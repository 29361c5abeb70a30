import Darner.BrokerStock
import Darner.GetReplies

/-! How a `get` answers its client. Each function of the handler, from the end of an item
back to the request line, keeps to the rule of the broker for it: with the deeds that it
does on the queues, what it writes and what the connection waits for then. -/

namespace Darner.BrokerGets
open OrderedStore LabelledRuns StreamMoves QueuePartition QueueRecovery ChunkLayout ReadProgress
open HoldingQueues ServerMoves FetchDeeds FetchEvents ReliableFetch ServerCalls GetReplies
open Broker
open ItemValues BrokerStock

variable {s t s' : Server} {stock : Stock ℕ ℕ Bytes} {i address id : ℕ} {deeds : List Deed}
  {said : Bytes} {phase : Phase}

/-- The bytes of a body that a push has written so far. -/
def gathered (image : Image) (stream : OQStream) : Bytes :=
  if stream.header.end_ > 1 then chunksOf image stream.header.beg stream.chunkPos else []

/-- Where a client stands, as its connection has it. -/
inductive Stands (s : Server) (j : ℕ) : Phase → Prop where
  | idle (pending : (s.conn j).pending = .readUntil) : Stands s j .asking
  | answered {text : Bytes} (pending : (s.conn j).pending = .write text .readRequest) :
      Stands s j .asking
  | storing {address n : ℕ} (pending : (s.conn j).pending = .readChunk n)
      (isOpen : (s.conn j).pushStream.queue = some address) :
      Stands s j (.storing address (s.conn j).req
        (gathered (s.object address).contents (s.conn j).pushStream))
  | waiting {address node : ℕ} (pending : (s.conn j).pending = .wait address node) :
      Stands s j (.waiting (s.conn j).req)
  | sending {address : ℕ} {text value : Bytes}
      (pending : (s.conn j).pending = .write text .getOnWriteChunk)
      (multi : (s.conn j).popStream.header.end_ > 1)
      (isOpen : (s.conn j).popStream.queue = some address)
      (item : itemAt (s.object address).contents (s.conn j).popStream.id = some value) :
      Stands s j (.sending (s.conn j).req (value.drop (s.conn j).popStream.tell))
  | leaving {text : Bytes} (pending : (s.conn j).pending = .write text .hangUp) :
      Stands s j .leaving
  | gone (pending : (s.conn j).pending = .closed) : Stands s j .gone

/-- What connection `i` has done, what it writes, and where it stands then. -/
structure Told (i : ℕ) (s s' : Server) (deeds : List Deed) (said : Bytes) (phase : Phase) :
    Prop where
  acts : Acts i deeds s s'
  text : sent (s'.conn i) = said
  stands : Stands s' i phase

theorem Told.acting {before : List Deed} (first : Acts i before s t)
    (told : Told i t s' deeds said phase) : Told i s s' (before ++ deeds) said phase :=
  ⟨first.append told.acts, told.text, told.stands⟩

theorem sent_reply (there : i < s.conns.length) (text : Bytes) (next : Next) :
    sent ((s.reply i text next).conn i) = text := by
  rw [conn_reply there, sent]

theorem told_reply (acts : Acts i deeds s t) (there : i < t.conns.length) (text : Bytes) :
    Told i s (t.reply i text .readRequest) deeds text .asking where
  acts := acts.calm (acts_reply there _ _)
  text := sent_reply there _ _
  stands := .answered (congrArg Handler.pending (conn_reply there))

theorem told_error (acts : Acts i deeds s t) (there : i < t.conns.length) (text : Bytes) :
    Told i s (t.reply i text .hangUp) deeds text .leaving where
  acts := acts.calm (acts_reply there _ _)
  text := sent_reply there _ _
  stands := .leaving (congrArg Handler.pending (conn_reply there))

theorem told_drop {ok : Bool} (acts : Acts i deeds s (t.drop i ok)) (there : i < t.conns.length) :
    Told i s (t.drop i ok) deeds [] .gone where
  acts := acts
  text := by rw [conn_drop there, sent]
  stands := .gone (congrArg Handler.pending (conn_drop there))

theorem told_chunk {value : Bytes} (acts : Acts i [] s t) (there : i < t.conns.length) (text : Bytes)
    (multi : (t.conn i).popStream.header.end_ > 1) (held : Holds t i address id)
    (item : itemAt (t.object address).contents id = some value) :
    Told i s (t.reply i text .getOnWriteChunk) [] text
      (.sending (t.conn i).req (value.drop (t.conn i).popStream.tell)) where
  acts := acts.calm (acts_reply there text .getOnWriteChunk)
  text := sent_reply there _ _
  stands := by
    have conn : (t.reply i text .getOnWriteChunk).conn i =
      { t.conn i with pending := .write text .getOnWriteChunk } := conn_reply there
    have stands : Stands (t.reply i text .getOnWriteChunk) i _ :=
      .sending (congrArg Handler.pending conn) (by rw [conn]; exact multi)
        (by rw [conn]; exact held.1) (by rw [conn]; exact held.2 ▸ item)
    rwa [conn] at stands

def namesOf (s : Server) : Names := ⟨s.queues, s.objects.length⟩

@[simp] theorem namesOf_setConn (s : Server) (i : ℕ) (h : Handler) :
    namesOf (s.setConn i h) = namesOf s := rfl

@[simp] theorem namesOf_setObject (s : Server) (a : ℕ) (q : Queue) :
    namesOf (s.setObject a q) = namesOf s := by
  simp [namesOf, Server.setObject]

@[simp] theorem namesOf_reply (s : Server) (i : ℕ) (text : Bytes) (next : Next) :
    namesOf (s.reply i text next) = namesOf s := rfl

@[simp] theorem namesOf_count (s : Server) : namesOf s.countDequeued = namesOf s := rfl

@[simp] theorem namesOf_drop (s : Server) (ok : Bool) : namesOf (s.drop i ok) = namesOf s := by
  have push : namesOf (s.dropPush i ok) = namesOf s := by
    unfold Server.dropPush
    split
    · rfl
    · simp
  have pop : namesOf ((s.dropPush i ok).dropPop i) = namesOf (s.dropPush i ok) := by
    unfold Server.dropPop
    split
    · rfl
    · simp
  exact pop.trans push

theorem namesOf_popClose {erase ok : Bool} (close : s.popClose i erase ok = .ok t) :
    namesOf t = namesOf s := by
  rcases Server.popClose_ok close with ⟨-, rfl⟩ | ⟨a, q, -, -, rfl⟩
  · rfl
  · simp

theorem namesOf_getFinish {text : Bytes} {closeOk dropOk : Bool} :
    namesOf (s.getFinish i text closeOk dropOk) = namesOf s := by
  unfold Server.getFinish
  split
  · simp
  · split
    · simp
    case h_2 t close =>
      rw [namesOf_reply, namesOf_count]
      exact namesOf_popClose close

theorem namesOf_popRead {io : Io} {result : Except Error Bytes} (read : s.popRead i io = (result, t)) :
    namesOf t = namesOf s := by
  have same : namesOf (s.popRead i io).2 = namesOf s := rfl
  rwa [read] at same

theorem namesOf_getRead {env : Env} : namesOf (s.getRead i env) = namesOf s := by
  unfold Server.getRead
  split
  case h_1 failed => exact (namesOf_reply ..).trans (namesOf_popRead failed)
  case h_2 read =>
    dsimp only
    split
    · exact namesOf_getFinish.trans (namesOf_popRead read)
    · exact (namesOf_reply ..).trans (namesOf_popRead read)

theorem namesOf_getOnWriteChunk {env : Env} : namesOf (s.getOnWriteChunk i env) = namesOf s := by
  unfold Server.getOnWriteChunk
  dsimp only
  split
  · exact namesOf_getFinish
  · split
    case h_1 failed => rw [namesOf_drop, namesOf_popRead failed]
    case h_2 read => exact (namesOf_reply ..).trans (namesOf_popRead read)

theorem acts_count (i : ℕ) (s : Server) : Acts i [] s s.countDequeued :=
  acts_calm (calm_stats i s _) fun _ => rfl

theorem getFinish_told {text : Bytes} {closeOk dropOk : Bool} (ready : Ready i s)
    (held : Holds s i address id) :
    (∃ deeds, Broker.Ends i address id (s.conn i).req (deeds.map (deal i)) ∧
      Told i s (s.getFinish i text closeOk dropOk) deeds text .asking) ∨
    Told i s (s.getFinish i text closeOk dropOk) [.giveBack address id] [] .gone := by
  have there := ready.there
  unfold Server.getFinish
  split
  case isTrue isOpen =>
    exact .inl ⟨[], .kept isOpen, told_reply (acts_count i s) there text⟩
  case isFalse isOpen =>
    rw [Bool.not_eq_true] at isOpen
    split
    case h_1 e failed => exact .inr (told_drop ⟨drop_holding ready held, heads_drop s i dropOk⟩ there)
    case h_2 s₁ closed =>
      left
      rcases Server.popClose_ok closed with ⟨none, -⟩ | ⟨a, q, some, pop, same⟩
      · rw [held.1] at none
        cases none
      · rw [held.1] at some
        obtain rfl := Option.some.inj some
        rw [held.2] at pop
        have ends : PopEnds i address id (!(s.conn i).req.getPeek) s s₁ :=
          ⟨there, holds_made held (ready.sound address), held, q, closeOk, _, pop, rfl, same⟩
        have there₁ : i < s₁.conns.length := by
          rw [same]
          exact lt_of_lt_of_eq there List.length_set.symm
        have counted := acts_count i s₁
        cases peek : (s.conn i).req.getPeek with
        | true =>
          rw [peek] at ends
          have did : Did i (.giveBack address id) s s₁ := ends
          exact ⟨[.giveBack address id], .returned isOpen peek,
            told_reply ((acts_did did).calm counted) there₁ text⟩
        | false =>
          rw [peek] at ends
          have did : Did i (.remove address id) s s₁ := ends
          exact ⟨[.remove address id], .removed isOpen peek,
            told_reply ((acts_did did).calm counted) there₁ text⟩

theorem popRead_part {io : Io} {buf : Bytes} (ready : Ready i s) (held : Holds s i address id)
    (read : s.popRead i io = (.ok buf, t)) :
    Part (s.object address).contents (s.conn i).popStream buf (t.conn i).popStream := by
  have sound := ready.sound address
  have progress := sound.progress _ (mem_readers ready.there held)
  have conn : ((s.popRead i io).2.conn i).popStream =
      ((s.conn i).popStream.read (s.object ((s.conn i).popStream.queue.getD 0)) io).2 :=
    congrArg Handler.popStream (Server.conn_setConn_self _ ready.there)
  have result : (s.popRead i io).1 =
    ((s.conn i).popStream.read (s.object ((s.conn i).popStream.queue.getD 0)) io).1 := rfl
  rw [read] at conn result
  rw [held.1, Option.getD_some] at conn result
  have whole : (s.conn i).popStream.read (s.object address) io = (.ok buf, (t.conn i).popStream) :=
    Prod.ext result.symm conn.symm
  exact part_read sound.cons.layout.intact (solid_contents sound.solid) progress whole

theorem getRead_told {env : Env} {value : Bytes} (ready : Ready i s) (held : Holds s i address id)
    (fresh : (s.conn i).popStream.tell = 0)
    (known : ∀ other, itemAt (s.object address).contents id = some other → other = value) :
    ∃ deeds said phase,
      Serves i address id (s.conn i).req value (deeds.map (deal i)) said phase ∧
      Told i s (s.getRead i env) deeds said phase := by
  unfold Server.getRead
  split
  case h_1 e t failed =>
    have acts := acts_popRead ready fun n => env.io (n + 1)
    rw [failed] at acts
    exact ⟨[], _, _, .failed e, told_error acts (acts.there ready) _⟩
  case h_2 buf t read =>
    obtain ⟨ready', held', req, begun, calm, objects⟩ := popRead_begun ready held read
    have part := popRead_part ready held read
    have acts := acts_popRead ready fun n => env.io (n + 1)
    rw [read] at acts
    have contents : (t.object address).contents = (s.object address).contents := by
      rw [Server.object, objects, Server.object]
    dsimp only
    rw [req]
    split
    case isTrue told =>
      -- the whole item is read
      have all : buf = value ∧ (t.conn i).popStream.size = value.length := by
        cases part with
        | item first item tell size =>
          rw [held.2] at item
          obtain rfl := known buf item
          exact ⟨rfl, size⟩
        | chunk multi item size some rest told' =>
          rw [held.2] at item
          obtain rfl := known _ item
          rw [fresh, List.drop_zero, told, size, List.drop_length, List.append_nil] at rest
          exact ⟨rest.symm, size⟩
      obtain ⟨rfl, size⟩ := all
      rw [size]
      rcases getFinish_told ready' held' with ⟨deeds, ends, told⟩ | told
      · rw [req] at ends
        exact ⟨deeds, _, _, .all ends, told.acting acts⟩
      · exact ⟨_, _, _, .lost, told.acting acts⟩
    case isFalse more =>
      cases part with
      | item first item tell size => exact absurd (tell.trans size.symm) more
      | @chunk v multi item size some rest told =>
        rw [held.2] at item
        obtain rfl := known v item
        rw [fresh, List.drop_zero] at rest
        rw [size]
        have going := told_chunk acts ready'.there
          (Server.valueHeader (s.conn i).req.queue v.length ++ buf) multi held' (contents ▸ item)
        rw [req] at going
        refine ⟨[], _, _, .part rest.symm fun done => more ?_, going⟩
        rw [List.drop_eq_nil_iff] at done
        omega

theorem size_item {value : Bytes} (ready : Ready i s) (held : Holds s i address id)
    (multi : (s.conn i).popStream.header.end_ > 1)
    (item : itemAt (s.object address).contents id = some value) :
    (s.conn i).popStream.size = value.length := by
  have sound := ready.sound address
  cases sound.progress _ (mem_readers ready.there held) with
  | fresh header pos tell =>
    rw [header] at multi
    exact absurd multi (by decide)
  | single entry item stop pos => omega
  | multi entry start stop tell =>
    have length := length_item sound.cons.layout.intact entry
    rw [held.2] at entry
    have same := (itemAt_header entry).symm.trans item
    rw [Option.some.inj same] at length
    exact length.symm

theorem getOnWriteChunk_told (env : Env) {req : Request} {rest : Bytes} (ready : Ready i s)
    (begun : (s.conn i).popStream.chunkPos ≠ 0) (stands : Stands s i (.sending req rest)) :
    ∃ address id, Holds s i address id ∧ ∃ deeds said phase,
      Continues i address id req rest (deeds.map (deal i)) said phase ∧
      Told i s (s.getOnWriteChunk i env) deeds said phase := by
  obtain ⟨address, value, held, multi, item, rfl, rfl⟩ : ∃ address value,
      Holds s i address (s.conn i).popStream.id ∧ (s.conn i).popStream.header.end_ > 1 ∧
      itemAt (s.object address).contents (s.conn i).popStream.id = some value ∧
      req = (s.conn i).req ∧ rest = value.drop (s.conn i).popStream.tell := by
    cases stands with
    | @sending address text value pending multi isOpen item =>
      exact ⟨address, value, ⟨isOpen, rfl⟩, multi, item, rfl, rfl⟩
  have size := size_item ready held multi item
  refine ⟨address, _, held, ?_⟩
  unfold Server.getOnWriteChunk
  dsimp only
  split
  case isTrue told =>
    have done : value.drop (s.conn i).popStream.tell = [] := by
      rw [told, size, List.drop_length]
    rcases getFinish_told ready held with ⟨deeds, ends, told⟩ | told
    · exact ⟨deeds, _, _, .all done ends, told⟩
    · exact ⟨_, _, _, .lost, told⟩
  case isFalse more =>
    split
    case h_1 e t failed =>
      have acts := acts_popRead ready fun n => env.io (n + 1)
      rw [failed] at acts
      have calm : Calm i s t := acts.after
      have held' := (calm.held address _).mpr held
      have dropped : Acts i [.giveBack address _] t (t.drop i (env.io 4)) :=
        ⟨drop_holding (ready.calm calm) held', heads_drop t i (env.io 4)⟩
      exact ⟨[.giveBack address _], _, _, .lost, told_drop (acts.append dropped) (acts.there ready)⟩
    case h_2 buf t read =>
      have acts := acts_popRead ready fun n => env.io (n + 1)
      rw [read] at acts
      obtain ⟨ready', held', req, -, calm, objects⟩ := popRead_begun ready held read
      have contents : (t.object address).contents = (s.object address).contents := by
        rw [Server.object, objects, Server.object]
      cases popRead_part ready held read with
      | item first item tell size => exact absurd first begun
      | @chunk v multi' item' size' some rest told =>
        rw [item] at item'
        obtain rfl := Option.some.inj item'
        have going := told_chunk acts ready'.there buf multi' held' (contents ▸ item)
        rw [req] at going
        exact ⟨[], _, _, .part rest.symm some, going⟩

theorem namesOf_finds {name : Bytes} (found : s.queueAt name = .ok (address, t)) :
    Finds name (namesOf s) address (namesOf t) := by
  rcases Server.queueAt_ok found with ⟨known, rfl⟩ | ⟨none, rfl, rfl⟩
  · exact .known known
  · have made : namesOf (s.withQueue name) =
        ⟨s.queues.insert name s.objects.length, s.objects.length + 1⟩ := by
      simp [namesOf, Server.withQueue]
    rw [made]
    exact .fresh none

theorem sameHeads_queueAt {name : Bytes} (found : s.queueAt name = .ok (address, t)) :
    SameHeads s t := by
  intro a
  rcases Server.queueAt_ok found with ⟨-, rfl⟩ | ⟨-, rfl, rfl⟩
  · rfl
  · by_cases new : a = s.objects.length
    · subst new
      rw [Server.object_withQueue_self, Server.object_beyond (le_refl _)]
      rfl
    · rw [Server.object_withQueue_ne s name new]

theorem take_told {env : Env} {q : Queue} {n : ℕ} (ready : Ready i s) (stocked : Stocked s stock)
    (closed : (s.conn i).popStream.queue = none)
    (pop : (s.object a).popBegin = some (n, q)) :
    ∃ value deeds said phase, (stock.lanes a).entries[n]? = some value ∧
      Serves i a n (s.conn i).req value (deeds.map (deal i)) said phase ∧
      Told i s (((s.setObject a q).setConn i { s.conn i with
        popStream := { queue := some a, id := n } }).getRead i env) (.take a n :: deeds) said
        phase := by
  have did : Did i (.take a n) s ((s.setObject a q).setConn i
      { s.conn i with popStream := { queue := some a, id := n } }) :=
    ⟨ready.there, closed, q, pop, rfl⟩
  have conn := Server.conn_setObject_setConn a q
    { s.conn i with popStream := { queue := some a, id := n } } ready.there
  have ready₁ := ready.did did
  obtain ⟨stock₁, does, stocked₁⟩ := stocked_did ready stocked did
  have held := holds_take did
  have entries : (stock₁.lanes a).entries = (stock.lanes a).entries := by
    cases does with
    | take free mem first => rw [Stock.entries_take]
  have small : n < (stock.lanes a).entries.length := by
    rw [← entries, stocked₁.length]
    exact held_below (ready₁.sound a) held
  obtain ⟨value, entry⟩ : ∃ value, (stock.lanes a).entries[n]? = some value :=
    ⟨_, List.getElem?_eq_getElem small⟩
  obtain ⟨deeds, said, phase, serves, told⟩ := getRead_told ready₁ held
    (by rw [conn]) fun other item => by
      have shown := stocked₁.entry (ready₁.sound a) item
      rw [entries, entry] at shown
      exact (Option.some.inj shown).symm
  rw [conn] at serves
  exact ⟨value, deeds, said, phase, entry, serves, told.acting (acts_did did)⟩

theorem wait_told {name : Bytes} (ready : Ready i s) (found : s.queues.lookup name = some a) :
    Told i s ((s.setObject a ((s.object a).wait (s.conn i).req.waitMs i)).setPending i
      (.wait a (s.object a).nextNode)) [] [] (.waiting (s.conn i).req) := by
  have line := calm_unseen i (ready.named _ a found)
    (unseen_wait (s.object a) (s.conn i).req.waitMs i)
  have there : i < (s.setObject a ((s.object a).wait (s.conn i).req.waitMs i)).conns.length :=
    ready.there
  have conn : ((s.setObject a ((s.object a).wait (s.conn i).req.waitMs i)).setPending i
      (.wait a (s.object a).nextNode)).conn i =
      { s.conn i with pending := .wait a (s.object a).nextNode } :=
    Server.conn_setConn_self _ there
  have heads : SameHeads s (s.setObject a ((s.object a).wait (s.conn i).req.waitMs i)) :=
    heads_setObject rfl
  have stands : Stands _ i _ := .waiting (congrArg Handler.pending conn)
  rw [conn] at stands
  refine ⟨acts_calm (line.trans (calm_setPending there _)) heads, ?_, stands⟩
  rw [conn, sent]

theorem getPop_told {env : Env} (ready : Ready i s) (stocked : Stocked s stock)
    (run : s.getPop i env = .ok s') :
    ∃ deeds said phase, Fetches i stock.lanes (namesOf s) (s.conn i).req (deeds.map (deal i)) said
        phase (namesOf s') ∧
      Told i s s' deeds said phase := by
  have there := ready.there
  unfold Server.getPop at run
  dsimp only at run
  split at run
  case isTrue only =>
    rw [← Except.ok.inj run]
    exact ⟨[], _, _, .ended only, told_reply (.refl i s) there _⟩
  case isFalse further =>
    rw [Bool.not_eq_true] at further
    obtain ⟨⟨a, t⟩, found, run⟩ := bind_ok run
    obtain ⟨calm, conns, registered, -⟩ := calm_queueAt i found
    have finds := namesOf_finds found
    have ready' := ready.calm calm
    have acts : Acts i [] s t := acts_calm calm (sameHeads_queueAt found)
    have stocked' := stocked_calm ready.sound stocked calm acts.heads
    have same : t.conn i = s.conn i := Server.conn_congr conns i
    dsimp only at run
    rw [← same] at run finds further ⊢
    rcases t.popOpen_cases i a with ⟨-, result⟩ | ⟨-, none, result⟩ | ⟨closed, n, q, pop, result⟩
    · rw [result] at run
      cases run
    · rw [result] at run
      have empty := stocked'.nothing none
      dsimp only at run
      split at run
      case isTrue patient =>
        rw [← Except.ok.inj run]
        exact ⟨[], _, _, .waits further (namesOf_setObject t _ _ ▸ finds) empty patient,
          (wait_told ready' registered).acting acts⟩
      case isFalse hasty =>
        rw [← Except.ok.inj run]
        rw [ne_eq, not_not] at hasty
        exact ⟨[], _, _, .nothing further finds empty hasty, told_reply acts (conns ▸ there) _⟩
    · rw [result] at run
      rw [← Except.ok.inj run]
      obtain ⟨value, deeds, said, phase, entry, serves, told⟩ :=
        take_told ready' stocked' closed pop
      refine ⟨.take a n :: deeds, said, phase, ?_, told.acting acts⟩
      rw [namesOf_getRead, namesOf_setConn, namesOf_setObject]
      exact .served further finds entry serves

theorem proper_of {req : Request}
    (alone : ¬(req.getAbort && (req.getOpen || req.getClose || req.getPeek)) = true)
    (one : ¬(req.getPeek && req.getOpen) = true) (msg : String) : ¬Improper req msg := by
  rintro (⟨abort, other⟩ | ⟨peek, isOpen⟩)
  · exact alone (by rw [abort, other]; rfl)
  · exact one (by rw [peek, isOpen]; rfl)

theorem popClose_error {erase ok : Bool} {e : Error} (failed : s.popClose i erase ok = .error e) :
    (s.conn i).popStream.queue ≠ none ∧ erase = true := by
  unfold Server.popClose at failed
  split at failed
  · cases failed
  case h_2 a isOpen =>
    refine ⟨by rw [isOpen]; exact Option.some_ne_none a, ?_⟩
    by_contra keep
    rw [Bool.not_eq_true] at keep
    subst keep
    split at failed
    case h_1 e' close =>
      unfold IQStream.close at close
      rw [isOpen, Queue.popEnd_return] at close
      cases close
    case h_2 => cases failed

theorem fetches_abort {lanes : ℕ → Lane Bytes} {names names' : Names} {req : Request}
    {deals : List Deal} (fetches : Fetches i lanes names req deals said phase names')
    (abort : req.getAbort = true) :
    deals = [] ∧ said = ascii "END\r\n" ∧ phase = .asking ∧ names' = names := by
  have only : ((req.getClose && !req.getOpen) || req.getAbort) = true := by
    rw [abort, Bool.or_true]
  cases fetches with
  | ended => exact ⟨rfl, rfl, rfl, rfl⟩
  | served further => exact absurd (further.symm.trans only) Bool.false_ne_true
  | waits further => exact absurd (further.symm.trans only) Bool.false_ne_true
  | nothing further => exact absurd (further.symm.trans only) Bool.false_ne_true

theorem get_removed_told {env : Env} {t : Server} {n : ℕ} (ready : Ready i s)
    (stocked : Stocked s stock) (proper : ∀ msg, ¬Improper (s.conn i).req msg)
    (flag : (s.conn i).req.getClose = true) (did : Did i (.remove a n) s t)
    (req : (t.conn i).req = (s.conn i).req) (names : namesOf t = namesOf s)
    (run : t.getPop i env = .ok s') :
    ∃ deeds said phase, Gets i stock (namesOf s) (s.conn i).req (deeds.map (deal i)) said
        phase (namesOf s') ∧
      Told i s s' deeds said phase := by
  have mine := (stocked.holds i a n).mpr did.held
  obtain ⟨stock₁, does, stocked₁⟩ := stocked_did ready stocked did
  obtain ⟨deeds, said, phase, fetches, told⟩ := getPop_told (ready.did did) stocked₁ run
  -- the item that is removed was in no lane
  have lanes : stock₁.lanes = stock.lanes := by
    cases does with
    | forget => exact Stock.lanes_forget ..
  rw [names, req, lanes] at fetches
  exact ⟨.remove a n :: deeds, said, phase, .closes proper mine flag fetches,
    told.acting (acts_did did)⟩

theorem get_returned_told {env : Env} {t : Server} {n : ℕ} (ready : Ready i s)
    (stocked : Stocked s stock) (proper : ∀ msg, ¬Improper (s.conn i).req msg)
    (abort : (s.conn i).req.getAbort = true) (did : Did i (.giveBack a n) s t)
    (req : (t.conn i).req = (s.conn i).req) (names : namesOf t = namesOf s)
    (run : t.getPop i env = .ok s') :
    ∃ deeds said phase, Gets i stock (namesOf s) (s.conn i).req (deeds.map (deal i)) said
        phase (namesOf s') ∧
      Told i s s' deeds said phase := by
  have mine := (stocked.holds i a n).mpr did.held
  obtain ⟨stock₁, does, stocked₁⟩ := stocked_did ready stocked did
  obtain ⟨deeds, said, phase, fetches, told⟩ := getPop_told (ready.did did) stocked₁ run
  rw [names, req] at fetches
  obtain ⟨none, rfl, rfl, names'⟩ := fetches_abort fetches abort
  rw [List.map_eq_nil_iff] at none
  subst none
  rw [names']
  exact ⟨[.giveBack a n], _, _, .aborts proper mine abort, told.acting (acts_did did)⟩

theorem get_closed_told {env : Env} {t : Server} {ok : Bool} (ready : Ready i s)
    (stocked : Stocked s stock) (proper : ∀ msg, ¬Improper (s.conn i).req msg)
    (ends : ((s.conn i).req.getAbort || (s.conn i).req.getClose) = true)
    (close : s.popClose i (s.conn i).req.getClose ok = .ok t) (run : t.getPop i env = .ok s') :
    ∃ deeds said phase, Gets i stock (namesOf s) (s.conn i).req (deeds.map (deal i)) said
        phase (namesOf s') ∧
      Told i s s' deeds said phase := by
  have names := namesOf_popClose close
  rcases Server.popClose_ok close with ⟨closed, rfl⟩ | ⟨a, q, isOpen, pop, same⟩
  · obtain ⟨deeds, said, phase, fetches, told⟩ := getPop_told ready stocked run
    exact ⟨deeds, said, phase, .fetches proper ((stocked.free i).mpr closed) fetches, told⟩
  · have held : Holds s i a (s.conn i).popStream.id := ⟨isOpen, rfl⟩
    have done : PopEnds i a (s.conn i).popStream.id (s.conn i).req.getClose s t :=
      ⟨ready.there, holds_made held (ready.sound a), held, q, _, _, pop, rfl, same⟩
    have req : (t.conn i).req = (s.conn i).req := by
      rw [same, Server.conn_setObject_setConn a q _ ready.there]
    cases flag : (s.conn i).req.getClose with
    | true =>
      rw [flag] at done
      exact get_removed_told ready stocked proper flag done req names run
    | false =>
      rw [flag] at done ends
      rw [Bool.or_false] at ends
      exact get_returned_told ready stocked proper ends done req names run

theorem get_told {env : Env} (ready : Ready i s) (stocked : Stocked s stock)
    (run : s.get i env = .ok s') :
    ∃ deeds said phase, Gets i stock (namesOf s) (s.conn i).req (deeds.map (deal i)) said
        phase (namesOf s') ∧
      Told i s s' deeds said phase := by
  have there := ready.there
  have here := Acts.refl i s
  unfold Server.get at run
  dsimp only at run
  split at run
  case isTrue improper =>
    rw [Bool.and_eq_true] at improper
    rw [← Except.ok.inj run]
    exact ⟨[], _, _, .improper (.abort improper.1 improper.2), told_error here there _⟩
  case isFalse alone =>
  split at run
  case isTrue improper =>
    rw [Bool.and_eq_true] at improper
    rw [← Except.ok.inj run]
    exact ⟨[], _, _, .improper (.peek improper.1 improper.2), told_error here there _⟩
  case isFalse one =>
  have proper := proper_of alone one
  split at run
  case isTrue ends =>
    split at run
    case h_1 e failed =>
      rw [← Except.ok.inj run]
      obtain ⟨isOpen, close⟩ := popClose_error failed
      have held := isOpen
      rw [ne_eq, ← stocked.free] at held
      exact ⟨[], _, _, .failed proper held close e, told_error here there _⟩
    case h_2 t close => exact get_closed_told ready stocked proper ends close run
  case isFalse keep =>
    rw [Bool.not_eq_true] at keep
    split at run
    case isTrue isOpen =>
      rw [← Except.ok.inj run]
      refine ⟨[], _, _, .busy proper ?_ keep, told_error here there _⟩
      rw [ne_eq, stocked.free]
      intro closed
      rw [closed] at isOpen
      cases isOpen
    case isFalse closed =>
      have free := (stocked.free i).mpr (by simpa using closed)
      obtain ⟨deeds, said, phase, fetches, told⟩ := getPop_told ready stocked run
      exact ⟨deeds, said, phase, .fetches proper free fetches, told⟩

end Darner.BrokerGets
