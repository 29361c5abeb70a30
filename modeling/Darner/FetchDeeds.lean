import Darner.ReadProgress

/-! The deeds of a connection. A `get` takes at most one item; an item that is held
is removed by the `get` that took it, once every chunk is read, or by a later
request with `close`, and is given back by everything else that ends the pop. -/

namespace Darner.FetchDeeds
open OrderedStore LabelledRuns StreamMoves QueuePartition ChunkLayout CrashConsistency
open ServerMoves ReadProgress

def Serving (h : Handler) : Prop := ∃ text, h.pending = .write text .getOnWriteChunk

def Dying (h : Handler) : Prop := ∃ text, h.pending = .write text .hangUp

/-- What is known while a callback of connection `i` runs. -/
structure Ready (i : ℕ) (s : Server) : Prop where
  there : i < s.conns.length
  named : Named s
  sound : ∀ address, Sound (config s address)
  made : Made s

variable {s s' t : Server} {i address id : ℕ}

theorem holds_made (held : Holds s i address id) (sound : Sound (config s address)) :
    address < s.objects.length := by
  by_contra beyond
  have below := sound.cons.own.held_lt id held.mem
  have blank : (config s address).queue = .blank ∅ [] := Server.object_beyond (by omega)
  rw [blank] at below
  exact absurd below (Nat.not_lt_zero _)

theorem Ready.calm (ready : Ready i s) (calm : Calm i s t) : Ready i t where
  there := lt_of_lt_of_le ready.there calm.conns
  named := calm.named ready.named
  sound a := (calm.changes a).invariant change_sound (ready.sound a)
  made := calm.made ready.made

theorem Ready.did {deed : Deed} (ready : Ready i s) (did : Did i deed s t) : Ready i t where
  there := did.conns ▸ ready.there
  named := did.named ready.named
  sound a := (did.changes a).invariant change_sound (ready.sound a)
  made := did.made ready.made

theorem Ready.popMade (ready : Ready i s) :
    ∀ a, (s.conn i).popStream.queue = some a → a < s.objects.length := fun a isOpen =>
  holds_made ⟨isOpen, rfl⟩ (ready.sound a)

inductive Served (i address id : ℕ) (s s' : Server) : Prop where
  | kept (isOpen : (s.conn i).req.getOpen = true) (calm : Calm i s s')
      (req : (s'.conn i).req = (s.conn i).req) (stage : ¬Serving (s'.conn i))
  | removed (isOpen : (s.conn i).req.getOpen = false) (peek : (s.conn i).req.getPeek = false)
      (after : After i [.remove address id] s s') (req : (s'.conn i).req = (s.conn i).req)
      (same : (s'.conn i).popStream.id = id)
      (all : ReadAll (s.object address).contents (s'.conn i).popStream)
      (stage : ¬Serving (s'.conn i))
  | returned (isOpen : (s.conn i).req.getOpen = false)
      (after : After i [.giveBack address id] s s') (stage : ¬Serving (s'.conn i))
  | serving (calm : Calm i s s') (req : (s'.conn i).req = (s.conn i).req)
      (stage : Serving (s'.conn i)) (begun : (s'.conn i).popStream.chunkPos ≠ 0)
  | failed (calm : Calm i s s') (req : (s'.conn i).req = (s.conn i).req)
      (stage : Dying (s'.conn i))

theorem conn_reply {text : Bytes} {next : Next} (there : i < s.conns.length) :
    (s.reply i text next).conn i = { s.conn i with pending := .write text next } :=
  Server.conn_setConn_self _ there

theorem dying_reply (there : i < s.conns.length) (text : Bytes) :
    Dying ((s.reply i text .hangUp).conn i) :=
  ⟨text, by rw [conn_reply there]⟩

theorem not_serving {text : Bytes} (there : i < s.conns.length) :
    ¬Serving ((s.reply i text .readRequest).conn i) := by
  rw [conn_reply there]
  rintro ⟨text', same⟩
  cases same

theorem calm_reply (there : i < s.conns.length) (text : Bytes) (next : Next) :
    Calm i s (s.reply i text next) :=
  calm_setPending there _

theorem conns_dropPush {ok : Bool} : (s.dropPush i ok).conns.length = s.conns.length := by
  unfold Server.dropPush
  split
  · rfl
  · exact List.length_set

theorem conns_dropPop : (s.dropPop i).conns.length = s.conns.length := by
  unfold Server.dropPop
  split
  · rfl
  · exact List.length_set

theorem conn_drop {ok : Bool} (there : i < s.conns.length) :
    (s.drop i ok).conn i = { pending := .closed } := by
  have there' : i < ((s.dropPush i ok).dropPop i).conns.length := by
    rw [conns_dropPop, conns_dropPush]
    exact there
  exact Server.conn_setConn_self _ there'

theorem not_serving_drop {ok : Bool} (there : i < s.conns.length) :
    ¬Serving ((s.drop i ok).conn i) := by
  rw [conn_drop there]
  rintro ⟨text, same⟩
  cases same

theorem push_dropPush {ok : Bool} (there : i < s.conns.length) :
    ((s.dropPush i ok).conn i).pushStream.queue = none := by
  unfold Server.dropPush
  split
  case h_1 closed => exact closed
  case h_2 a isOpen =>
    rw [Server.conn_setObject_setConn a _ _ there]

theorem calm_closed {stats : Stats} (there : i < s.conns.length)
    (pop : (s.conn i).popStream.queue = none) (push : (s.conn i).pushStream.queue = none) :
    Calm i s { s.setConn i { pending := .closed } with stats := stats } := by
  refine (calm_setConn there (fun a => ?_) fun a => ?_).trans (calm_stats i _ stats)
  · rw [readerOn_none (by simp), readerOn_none (by rw [pop]; simp)]
  · rw [writerOn_none (by simp), writerOn_none (by rw [push]; simp)]

theorem drop_holding {ok : Bool} (ready : Ready i s) (held : Holds s i address id) :
    After i [.giveBack address id] s (s.drop i ok) := by
  have push := calm_dropPush ok ready.there fun a isOpen => ready.made i a isOpen
  have ready' := ready.calm push
  have held' := (push.held address id).mpr held
  have drop : (s.dropPush i ok).dropPop i = ((s.dropPush i ok).setObject address
      (((s.dropPush i ok).object address).putBack id).wakeUp).setConn i
        { (s.dropPush i ok).conn i with popStream := {} } := by
    rw [Server.dropPop, held'.1]
    simp only
    rw [IQStream.destruct_open (by rw [held'.1]; rfl), held'.2]
  have ends : Did i (.giveBack address id) (s.dropPush i ok) ((s.dropPush i ok).dropPop i) :=
    ⟨ready'.there, holds_made held' (ready'.sound address), held', _, true, {},
      Queue.popEnd_return _ _ _ _, rfl, drop⟩
  refine (push.after ends.after).calm (calm_closed ?_ ?_ ?_)
  · rw [ends.conns]
    exact ready'.there
  · rw [drop, Server.conn_setConn_self (s := (s.dropPush i ok).setObject address _) _ ready'.there]
  · rw [drop, Server.conn_setConn_self (s := (s.dropPush i ok).setObject address _) _ ready'.there]
    exact push_dropPush ready.there

theorem drop_closed {ok : Bool} (ready : Ready i s) (closed : (s.conn i).popStream.queue = none) :
    Calm i s (s.drop i ok) := by
  have push := calm_dropPush ok ready.there fun a isOpen => ready.made i a isOpen
  have closed' := push.closed_iff.mpr closed
  have drop : (s.dropPush i ok).dropPop i = s.dropPush i ok := by rw [Server.dropPop, closed']
  refine push.trans ?_
  simp only [Server.drop, drop]
  exact calm_closed (lt_of_lt_of_le ready.there push.conns) closed' (push_dropPush ready.there)

theorem calm_statsReply (there : i < s.conns.length) (stats : Stats) (text : Bytes) (next : Next) :
    Calm i s ({ s with stats := stats }.reply i text next) := by
  have there' : i < ({ s with stats := stats } : Server).conns.length := there
  exact (calm_stats i s stats).trans (calm_reply there' text next)

theorem calm_countReply (there : i < s.conns.length) (text : Bytes) (next : Next) :
    Calm i s (s.countDequeued.reply i text next) :=
  calm_statsReply there _ text next

theorem getFinish_served {text : Bytes} {closeOk dropOk : Bool} (ready : Ready i s)
    (held : Holds s i address id)
    (all : ReadAll (s.object address).contents (s.conn i).popStream) :
    Served i address id s (s.getFinish i text closeOk dropOk) := by
  have there := ready.there
  unfold Server.getFinish
  split
  case isTrue isOpen =>
    have conn : (s.countDequeued.reply i text .readRequest).conn i =
      { s.conn i with pending := .write text .readRequest } := conn_reply there
    exact .kept isOpen (calm_countReply there _ _) (by rw [conn])
      (not_serving (s := s.countDequeued) there)
  case isFalse isOpen =>
    rw [Bool.not_eq_true] at isOpen
    split
    case h_1 e failed => exact .returned isOpen (drop_holding ready held) (not_serving_drop there)
    case h_2 s₁ closed =>
      rcases Server.popClose_ok closed with ⟨none, -⟩ | ⟨a, q, some, pop, same⟩
      · rw [held.1] at none
        cases none
      · rw [held.1] at some
        obtain rfl := Option.some.inj some
        rw [held.2] at pop
        have ends : PopEnds i address id (!(s.conn i).req.getPeek) s s₁ :=
          ⟨there, holds_made held (ready.sound address), held, q, closeOk, _, pop, rfl, same⟩
        have conn : s₁.conn i =
            { s.conn i with popStream := { (s.conn i).popStream with queue := none } } := by
          rw [same, Server.conn_setObject_setConn address q _ there]
        have there₁ : i < s₁.conns.length := by
          rw [same]
          exact lt_of_lt_of_eq there List.length_set.symm
        have conn' : (s₁.countDequeued.reply i text .readRequest).conn i =
          { s₁.conn i with pending := .write text .readRequest } := conn_reply there₁
        rw [conn] at conn'
        cases peek : (s.conn i).req.getPeek with
        | true =>
          rw [peek] at ends
          have did : Did i (.giveBack address id) s s₁ := ends
          exact .returned isOpen (did.after.calm (calm_countReply there₁ _ _))
            (not_serving (s := s₁.countDequeued) there₁)
        | false =>
          rw [peek] at ends
          have did : Did i (.remove address id) s s₁ := ends
          refine .removed isOpen peek (did.after.calm (calm_countReply there₁ _ _)) ?_ ?_ ?_
            (not_serving (s := s₁.countDequeued) there₁)
          · rw [conn']
          · rw [conn']
            exact held.2
          · rw [conn']
            exact all

theorem Ready.readAll (ready : Ready i s) (held : Holds s i address id)
    (begun : (s.conn i).popStream.chunkPos ≠ 0)
    (told : (s.conn i).popStream.tell = (s.conn i).popStream.size) :
    ReadAll (s.object address).contents (s.conn i).popStream := by
  have sound := ready.sound address
  have progress := sound.progress _ (mem_readers ready.there held)
  exact progress.readAll sound.cons.layout.intact (solid_contents sound.solid) begun told

theorem popRead_begun {io : Io} {buf : Bytes} (ready : Ready i s) (held : Holds s i address id)
    (read : s.popRead i io = (.ok buf, t)) :
    Ready i t ∧ Holds t i address id ∧ (t.conn i).req = (s.conn i).req ∧
      (t.conn i).popStream.chunkPos ≠ 0 ∧ Calm i s t ∧ t.objects = s.objects := by
  have calm := calm_popRead ready.there ready.popMade io
  have conn : (s.popRead i io).2.conn i = { s.conn i with popStream :=
      ((s.conn i).popStream.read (s.object ((s.conn i).popStream.queue.getD 0)) io).2 } :=
    Server.conn_setConn_self _ ready.there
  have result : (s.popRead i io).1 =
    ((s.conn i).popStream.read (s.object ((s.conn i).popStream.queue.getD 0)) io).1 := rfl
  have objects : (s.popRead i io).2.objects = s.objects := rfl
  rw [read] at calm conn result objects
  rw [held.1, Option.getD_some] at conn result
  refine ⟨ready.calm calm, (calm.held address id).mpr held, by rw [conn], ?_, calm, objects⟩
  have sound := ready.sound address
  have progress := sound.progress _ (mem_readers ready.there held)
  rw [conn]
  exact (progress_read io sound.cons.layout.intact progress).2 buf result.symm

theorem Served.calm (calm : Calm i s t) (req : (t.conn i).req = (s.conn i).req)
    (objects : t.objects = s.objects) (h : Served i address id t s') :
    Served i address id s s' := by
  have object : t.object address = s.object address := by rw [Server.object, objects, Server.object]
  cases h with
  | kept isOpen last req' stage =>
    exact .kept (req ▸ isOpen) (calm.trans last) (req'.trans req) stage
  | removed isOpen peek after req' same all stage =>
    exact .removed (req ▸ isOpen) (req ▸ peek) (calm.after after) (req'.trans req) same
      (object ▸ all) stage
  | returned isOpen after stage => exact .returned (req ▸ isOpen) (calm.after after) stage
  | serving last req' stage begun => exact .serving (calm.trans last) (req'.trans req) stage begun
  | failed last req' stage => exact .failed (calm.trans last) (req'.trans req) stage

theorem served_chunk (there : i < s.conns.length) (text : Bytes)
    (begun : (s.conn i).popStream.chunkPos ≠ 0) :
    Served i address id s (s.reply i text .getOnWriteChunk) := by
  have conn : (s.reply i text .getOnWriteChunk).conn i =
    { s.conn i with pending := .write text .getOnWriteChunk } := conn_reply there
  exact .serving (calm_reply there _ _) (by rw [conn]) ⟨text, by rw [conn]⟩ (by rw [conn]; exact begun)

theorem getRead_served {env : Env} (ready : Ready i s) (held : Holds s i address id) :
    Served i address id s (s.getRead i env) := by
  unfold Server.getRead
  split
  case h_1 e t failed =>
    have calm := calm_popRead ready.there ready.popMade fun n => env.io (n + 1)
    rw [failed] at calm
    have there := lt_of_lt_of_le ready.there calm.conns
    refine .failed (calm.trans (calm_reply there _ _)) ?_ (dying_reply there _)
    have req : ((s.popRead i fun n => env.io (n + 1)).2.conn i).req = (s.conn i).req := by
      rw [Server.popRead, Server.conn_setConn_self _ ready.there]
    rw [failed] at req
    rw [Server.serverError, conn_reply there]
    exact req
  case h_2 buf t read =>
    obtain ⟨ready', held', req, begun, calm, objects⟩ := popRead_begun ready held read
    dsimp only
    split
    case isTrue told =>
      exact (getFinish_served ready' held' (ready'.readAll held' begun told)).calm calm req objects
    case isFalse => exact (served_chunk ready'.there _ begun).calm calm req objects

theorem getOnWriteChunk_served (env : Env) (ready : Ready i s) (held : Holds s i address id)
    (begun : (s.conn i).popStream.chunkPos ≠ 0) :
    Served i address id s (s.getOnWriteChunk i env) ∨
      After i [.giveBack address id] s (s.getOnWriteChunk i env) ∧
        ¬Serving ((s.getOnWriteChunk i env).conn i) := by
  unfold Server.getOnWriteChunk
  dsimp only
  split
  case isTrue told => exact .inl (getFinish_served ready held (ready.readAll held begun told))
  case isFalse =>
    split
    case h_1 e t failed =>
      have calm := calm_popRead ready.there ready.popMade fun n => env.io (n + 1)
      rw [failed] at calm
      have held' := (calm.held address id).mpr held
      exact .inr ⟨calm.after (drop_holding (ready.calm calm) held'),
        not_serving_drop (lt_of_lt_of_le ready.there calm.conns)⟩
    case h_2 buf t read =>
      obtain ⟨ready', -, req, begun', calm, objects⟩ := popRead_begun ready held read
      exact .inl ((served_chunk ready'.there _ begun').calm calm req objects)

/-- What follows when the connection holds nothing. -/
inductive Popped (i : ℕ) (s s' : Server) : Prop where
  | nothing (calm : Calm i s s') (stage : ¬Serving (s'.conn i))
      (req : (s'.conn i).req = (s.conn i).req)
  | taken {address id : ℕ} {t t' : Server} (calm : Calm i s t)
      (further : ((s.conn i).req.getClose && !(s.conn i).req.getOpen) = false ∧
        (s.conn i).req.getAbort = false)
      (req : (t'.conn i).req = (s.conn i).req) (take : Did i (.take address id) t t')
      (contents : (t'.object address).contents = (s.object address).contents)
      (served : Served i address id t' s')

theorem calm_queueAt {name : Bytes} (i : ℕ) (found : s.queueAt name = .ok (address, t)) :
    Calm i s t ∧ t.conns = s.conns ∧ t.queues.lookup name = some address ∧
      (t.object address).contents = (s.object address).contents := by
  rcases Server.queueAt_ok found with ⟨found, rfl⟩ | ⟨-, rfl, rfl⟩
  · exact ⟨.refl i t, rfl, found, rfl⟩
  · refine ⟨calm_withQueue i s name, rfl, ?_, ?_⟩
    · rw [Server.lookup_withQueue, if_pos rfl]
    · rw [Server.object_withQueue_self, Server.object_beyond (le_refl _)]
      rfl

theorem unseen_wait (q : Queue) (waitMs cb : ℕ) : Unseen q (q.wait waitMs cb) :=
  ⟨rfl, rfl, rfl, rfl, rfl, rfl⟩

theorem getPop_popped {env : Env} (ready : Ready i s) (run : s.getPop i env = .ok s') :
    Popped i s s' := by
  have there := ready.there
  rcases Server.getPop_ok run with ⟨msg, rfl⟩ | ⟨further, a, t, found, next⟩
  · exact .nothing (calm_reply there _ _) (not_serving there) (by rw [Server.end_, conn_reply there])
  · obtain ⟨calm, conns, registered, contents⟩ := calm_queueAt i found
    have there' : i < t.conns.length := conns ▸ there
    have ready' := ready.calm calm
    have same : t.conn i = s.conn i := Server.conn_congr conns i
    rcases t.popOpen_cases i a with ⟨-, result⟩ | ⟨-, none, result⟩ | ⟨closed, id, q, pop, result⟩
    · rw [result] at next
      rcases next with ⟨wrong, -⟩ | ⟨wrong, -⟩ <;> cases wrong
    · rw [result] at next
      rcases next with ⟨wrong, -⟩ | ⟨-, ⟨msg, rfl⟩ | ⟨waitMs, rfl⟩⟩
      · cases wrong
      · exact .nothing (calm.trans (calm_reply there' _ _)) (not_serving there')
          (by rw [Server.end_, conn_reply there', same])
      · have line := calm_unseen i (ready'.named _ a registered) (unseen_wait (t.object a) waitMs i)
        have waiting := calm_setPending (s := t.setObject a ((t.object a).wait waitMs i)) there'
          (.wait a (t.object a).nextNode)
        have conn := Server.conn_setObject_setConn a ((t.object a).wait waitMs i)
          { t.conn i with pending := .wait a (t.object a).nextNode } there'
        refine .nothing ((calm.trans line).trans waiting) ?_ ((congrArg Handler.req conn).trans ?_)
        · rintro ⟨text, isWrite⟩
          cases (congrArg Handler.pending conn).symm.trans isWrite
        · rw [same]
    · rw [result] at next
      rcases next with ⟨-, rfl⟩ | ⟨wrong, -⟩
      · have did : Did i (.take a id) t ((t.setObject a q).setConn i
            { t.conn i with popStream := { queue := some a, id := id } }) :=
          ⟨there', closed, q, pop, rfl⟩
        have conn := Server.conn_setObject_setConn a q
          { t.conn i with popStream := { queue := some a, id := id } } there'
        refine .taken calm further ?_ did ?_ (getRead_served (ready'.did did) ?_)
        · rw [conn, same]
        · rw [Server.object_setConn, Server.object_setObject_self q (popBegin_made pop),
            Queue.contents_popBegin pop, contents]
        · exact ⟨by rw [conn], by rw [conn]⟩
      · cases wrong

inductive Got (i : ℕ) (s s' : Server) : Prop where
  | refused (calm : Calm i s s') (stage : Dying (s'.conn i))
  | popped (closed : (s.conn i).popStream.queue = none) (popped : Popped i s s')
  | aborted {address id : ℕ} (after : After i [.giveBack address id] s s')
      (stage : ¬Serving (s'.conn i))
  | closed {address id : ℕ} (close : (s.conn i).req.getClose = true)
      (req : (s'.conn i).req = (s.conn i).req) (after : After i [.remove address id] s s')
      (stage : ¬Serving (s'.conn i))
  | closedTook {address id : ℕ} {t : Server} (close : (s.conn i).req.getClose = true)
      (isOpen : (s.conn i).req.getOpen = true) (did : Did i (.remove address id) s t)
      (req : (t.conn i).req = (s.conn i).req) (popped : Popped i t s')

theorem get_got {env : Env} (ready : Ready i s) (run : s.get i env = .ok s') : Got i s s' := by
  have there := ready.there
  unfold Server.get at run
  dsimp only at run
  split at run
  · rw [← Except.ok.inj run]
    exact .refused (calm_reply there _ _) (dying_reply there _)
  split at run
  · rw [← Except.ok.inj run]
    exact .refused (calm_reply there _ _) (dying_reply there _)
  split at run
  case isTrue ends =>
    split at run
    · rw [← Except.ok.inj run]
      exact .refused (calm_reply there _ _) (dying_reply there _)
    case h_2 s₁ close =>
      rcases Server.popClose_ok close with ⟨closed, rfl⟩ | ⟨a, q, isOpen, pop, same⟩
      · exact .popped closed (getPop_popped ready run)
      · have held : Holds s i a (s.conn i).popStream.id := ⟨isOpen, rfl⟩
        have done : PopEnds i a (s.conn i).popStream.id (s.conn i).req.getClose s s₁ :=
          ⟨there, holds_made held (ready.sound a), held, q, _, _, pop, rfl, same⟩
        have req : (s₁.conn i).req = (s.conn i).req := by
          rw [same, Server.conn_setObject_setConn a q _ there]
        cases flag : (s.conn i).req.getClose with
        | true =>
          rw [flag] at done
          have did : Did i (.remove a (s.conn i).popStream.id) s s₁ := done
          have ready₁ := ready.did did
          have popped := getPop_popped ready₁ run
          cases opens : (s.conn i).req.getOpen with
          | true => exact .closedTook flag opens did req popped
          | false =>
            cases popped with
            | nothing calm stage req' =>
              exact .closed flag (req'.trans req) (did.after.calm calm) stage
            | taken calm further =>
              rw [req, flag, opens] at further
              cases further.1
        | false =>
          rw [flag] at done ends
          have did : Did i (.giveBack a (s.conn i).popStream.id) s s₁ := done
          have ready₁ := ready.did did
          have popped := getPop_popped ready₁ run
          cases popped with
          | nothing calm stage req' => exact .aborted (did.after.calm calm) stage
          | taken calm further =>
            rw [req] at further
            rw [further.2] at ends
            cases ends
  case isFalse =>
    split at run
    · rw [← Except.ok.inj run]
      exact .refused (calm_reply there _ _) (dying_reply there _)
    case isFalse closed => exact .popped (by simpa using closed) (getPop_popped ready run)

theorem newQueue_not_open {name : Bytes} : s.newQueue name ≠ .error .popAlreadyOpen := by
  unfold Server.newQueue
  split <;> simp

theorem queueAt_not_open {name : Bytes} : s.queueAt name ≠ .error .popAlreadyOpen := by
  unfold Server.queueAt
  split
  · simp
  · exact newQueue_not_open

theorem getPop_not_open {env : Env} (closed : (s.conn i).popStream.queue = none) :
    s.getPop i env ≠ .error .popAlreadyOpen := by
  intro fault
  unfold Server.getPop at fault
  dsimp only at fault
  split at fault
  · cases fault
  rcases bind_error fault with fault | ⟨⟨a, t⟩, found, fault⟩
  · exact queueAt_not_open fault
  obtain ⟨-, conns, -, -⟩ := calm_queueAt i found
  rcases t.popOpen_cases i a with ⟨isOpen, -⟩ | ⟨-, -, result⟩ | ⟨-, id, q, -, result⟩
  · rw [Server.conn, conns] at isOpen
    rw [Server.conn] at closed
    rw [closed] at isOpen
    cases isOpen
  · simp only [result] at fault
    split at fault <;> cases fault
  · simp only [result] at fault
    cases fault

theorem get_not_open {env : Env} :
    s.get i env ≠ .error .popAlreadyOpen := by
  intro fault
  unfold Server.get at fault
  dsimp only at fault
  split at fault
  · cases fault
  split at fault
  · cases fault
  split at fault
  · split at fault
    · cases fault
    case h_2 s₁ close =>
      refine getPop_not_open ?_ fault
      rcases Server.popClose_ok close with ⟨closed, rfl⟩ | ⟨a, q, isOpen, -, rfl⟩
      · exact closed
      · have held : Holds s i a (s.conn i).popStream.id := ⟨isOpen, rfl⟩
        rw [Server.conn_setObject_setConn a q _ held.there]
  · split at fault
    · cases fault
    case isFalse closed => exact getPop_not_open (by simpa using closed) fault

theorem eraseQueue_not_open {name : Bytes} {recreate : Bool} :
    s.eraseQueue name recreate ≠ .error .popAlreadyOpen := by
  intro fault
  unfold Server.eraseQueue at fault
  split at fault
  · cases fault
  case h_2 a found =>
    dsimp only at fault
    split at fault
    · change ((s.withoutQueue name a).newQueue name).map Prod.snd = _ at fault
      cases new : (s.withoutQueue name a).newQueue name with
      | error e =>
        rw [new, Except.map] at fault
        rw [Except.error.inj fault] at new
        exact newQueue_not_open new
      | ok pair =>
        rw [new] at fault
        cases fault
    · cases fault

theorem dispatch_not_open {env : Env} : s.dispatch i env ≠ .error .popAlreadyOpen := by
  intro fault
  unfold Server.dispatch at fault
  split at fault
  case h_4 =>
    rcases bind_error fault with fault | ⟨t, -, fault⟩
    · exact eraseQueue_not_open fault
    · cases fault
  case h_5 =>
    rcases bind_error fault with fault | ⟨t, -, fault⟩
    · exact eraseQueue_not_open fault
    · cases fault
  case h_6 =>
    unfold Server.flushAll at fault
    split at fault <;> cases fault
  case h_7 =>
    rcases bind_error fault with fault | ⟨⟨a, t⟩, -, fault⟩
    · exact queueAt_not_open fault
    · dsimp only at fault
      split at fault <;> cases fault
  case h_8 => exact get_not_open fault
  all_goals cases fault

theorem parseRequest_not_open {n : ℕ} {env : Env} :
    s.parseRequest i n env ≠ .error .popAlreadyOpen := by
  unfold Server.parseRequest
  dsimp only
  split
  · simp
  · exact dispatch_not_open

theorem step_not_open (event : ServerEvent) : s.step event ≠ .error .popAlreadyOpen := by
  intro fault
  cases event with
  | accept | recv | readFailed | writeDone | writeFailed | expire => cases fault
  | callback a node env =>
    simp only [Server.step, Server.callback] at fault
    split at fault
    · cases fault
    · split at fault
      · exact get_not_open fault
      · cases fault
  | readDone i env =>
    simp only [Server.step, Server.readDone] at fault
    split at fault
    · split at fault
      · exact parseRequest_not_open fault
      · cases fault
    · cases fault
    · cases fault

end Darner.FetchDeeds
