import Darner.FetchDeeds
import Darner.ServerWaiters

/-! One event of the loop, seen from the items: which deeds its connection can do,
in which stage of the connection, and in which stage it leaves the connection. -/

namespace Darner.FetchEvents
open OrderedStore LabelledRuns StreamMoves QueuePartition ChunkLayout CrashConsistency
open ServerMoves ServerWaiters ReadProgress FetchDeeds

variable {s s' t : Server} {i address id : ℕ}

/-- What holds of a handler between two events. -/
structure HandlerPhase (h : Handler) : Prop where
  serving : Serving h → h.popStream.queue.isSome ∧ h.popStream.chunkPos ≠ 0 ∧ h.req.type = .get
  waiting : ∀ address node, h.pending = .wait address node → h.req.type = .get
  reading : ∀ n, h.pending = .readChunk n → 0 < h.inBuf.length + n ∧
    h.pushStream.tell ≤ h.req.numBytes ∧
    (h.pushStream.header.end_ > 1 → h.pushStream.tell < h.req.numBytes)
  size : h.req.numBytes < 2 ^ 32
  shut : h.pending = .closed → h.popStream.queue = none

inductive Answered (h h' : Handler) : Prop where
  | gone (same : h' = { pending := .closed })
  | writes (stream : IQStream) (text : Bytes) (next : Next)
      (same : h' = { h with popStream := stream, pending := .write text next })
  | waits (stream : IQStream) (address node : ℕ)
      (same : h' = { h with popStream := stream, pending := .wait address node })

theorem Answered.stream {h h' : Handler} (stream : IQStream)
    (answered : Answered { h with popStream := stream } h') : Answered h h' := by
  rcases answered with same | ⟨stream', text, next, same⟩ | ⟨stream', address, node, same⟩
  · exact .gone same
  · exact .writes stream' text next same
  · exact .waits stream' address node same

theorem phase_closed : HandlerPhase { pending := .closed } where
  serving := by
    rintro ⟨text, same⟩
    cases same
  waiting _ _ same := by cases same
  reading _ same := by cases same
  size := Nat.two_pow_pos 32
  shut _ := rfl

theorem phase_answered {h h' : Handler} (answered : Answered h h') (size : h.req.numBytes < 2 ^ 32)
    (type : h.req.type = .get)
    (begun : Serving h' → h'.popStream.queue.isSome ∧ h'.popStream.chunkPos ≠ 0) :
    HandlerPhase h' := by
  rcases answered with rfl | ⟨stream, text, next, rfl⟩ | ⟨stream, address, node, rfl⟩
  · exact phase_closed
  · exact ⟨fun serving => ⟨(begun serving).1, (begun serving).2, type⟩, fun _ _ _ => type,
      (nomatch ·, ·), size, fun closed => by cases closed⟩
  · exact ⟨fun serving => ⟨(begun serving).1, (begun serving).2, type⟩, fun _ _ _ => type,
      (nomatch ·, ·), size, fun closed => by cases closed⟩

theorem answered_reply (there : i < s.conns.length) (text : Bytes) (next : Next) :
    Answered (s.conn i) ((s.reply i text next).conn i) :=
  .writes (s.conn i).popStream text next (conn_reply there)

theorem answered_drop {h : Handler} {ok : Bool} (there : i < s.conns.length) :
    Answered h ((s.drop i ok).conn i) :=
  .gone (conn_drop there)

theorem conn_popClose {erase ok : Bool} (there : i < s.conns.length)
    (close : s.popClose i erase ok = .ok t) :
    i < t.conns.length ∧ ∃ stream, t.conn i = { s.conn i with popStream := stream } := by
  rcases Server.popClose_ok close with ⟨-, rfl⟩ | ⟨a, q, -, -, rfl⟩
  · exact ⟨there, _, rfl⟩
  · refine ⟨lt_of_lt_of_eq there List.length_set.symm,
      { (s.conn i).popStream with queue := none }, ?_⟩
    exact Server.conn_setObject_setConn a q _ there

theorem answered_getFinish {text : Bytes} {closeOk dropOk : Bool} (there : i < s.conns.length) :
    Answered (s.conn i) ((s.getFinish i text closeOk dropOk).conn i) := by
  unfold Server.getFinish
  split
  · exact answered_reply (s := s.countDequeued) there _ _
  · split
    · exact answered_drop there
    case h_2 t close =>
      obtain ⟨there', stream, conn⟩ := conn_popClose there close
      have answered := answered_reply (s := t.countDequeued) there' text .readRequest
      rw [show t.countDequeued.conn i = t.conn i from rfl, conn] at answered
      exact answered.stream _

theorem conn_popRead (there : i < s.conns.length) (io : Io) :
    i < (s.popRead i io).2.conns.length ∧
      ∃ stream, (s.popRead i io).2.conn i = { s.conn i with popStream := stream } :=
  ⟨lt_of_lt_of_eq there List.length_set.symm, _, Server.conn_setConn_self _ there⟩

theorem answered_getRead {env : Env} (there : i < s.conns.length) :
    Answered (s.conn i) ((s.getRead i env).conn i) := by
  have read := conn_popRead there fun n => env.io (n + 1)
  unfold Server.getRead
  split
  case h_1 e t result =>
    rw [result] at read
    obtain ⟨there', stream, conn⟩ := read
    have answered := answered_reply (s := t) there' (ascii "SERVER_ERROR " ++ e.message ++ ascii "\r\n")
      .hangUp
    rw [show t.conn i = _ from conn] at answered
    exact answered.stream _
  case h_2 buf t result =>
    rw [result] at read
    obtain ⟨there', stream, conn⟩ := read
    refine Answered.stream stream ?_
    rw [← show t.conn i = _ from conn]
    dsimp only
    split
    · exact answered_getFinish there'
    · exact answered_reply there' _ _

theorem answered_getOnWriteChunk (there : i < s.conns.length) (env : Env) :
    Answered (s.conn i) ((s.getOnWriteChunk i env).conn i) := by
  have read := conn_popRead there fun n => env.io (n + 1)
  unfold Server.getOnWriteChunk
  dsimp only
  split
  · exact answered_getFinish there
  · split
    case h_1 e t result =>
      rw [result] at read
      exact answered_drop read.1
    case h_2 buf t result =>
      rw [result] at read
      obtain ⟨there', stream, conn⟩ := read
      refine Answered.stream stream ?_
      rw [← show t.conn i = _ from conn]
      exact answered_reply there' _ _

theorem answered_getPop {env : Env} (there : i < s.conns.length) (run : s.getPop i env = .ok s') :
    Answered (s.conn i) (s'.conn i) := by
  rcases Server.getPop_ok run with ⟨msg, rfl⟩ | ⟨-, a, t, found, next⟩
  · exact answered_reply there _ _
  · obtain ⟨-, conns, -, -⟩ := calm_queueAt i found
    have there' : i < t.conns.length := conns ▸ there
    have same : t.conn i = s.conn i := Server.conn_congr conns i
    have opened : i < (t.popOpen i a).2.conns.length ∧
        ∃ stream, (t.popOpen i a).2.conn i = { s.conn i with popStream := stream } := by
      rw [← same]
      exact ⟨lt_of_lt_of_eq there' List.length_set.symm, _,
        Server.conn_setObject_setConn a _ _ there'⟩
    generalize (t.popOpen i a).2 = u at opened next
    obtain ⟨there'', stream, conn⟩ := opened
    refine Answered.stream stream ?_
    rw [← conn]
    rcases next with ⟨-, rfl⟩ | ⟨-, ⟨msg, rfl⟩ | ⟨waitMs, rfl⟩⟩
    · exact answered_getRead there''
    · exact answered_reply there'' _ _
    · exact .waits (u.conn i).popStream a (u.object a).nextNode
        (Server.conn_setObject_setConn a ((u.object a).wait waitMs i) _ there'')

theorem answered_get {env : Env} (there : i < s.conns.length) (run : s.get i env = .ok s') :
    Answered (s.conn i) (s'.conn i) := by
  unfold Server.get at run
  dsimp only at run
  split at run
  · rw [← Except.ok.inj run]
    exact answered_reply there _ _
  split at run
  · rw [← Except.ok.inj run]
    exact answered_reply there _ _
  split at run
  · split at run
    · rw [← Except.ok.inj run]
      exact answered_reply there _ _
    case h_2 t close =>
      obtain ⟨there', stream, conn⟩ := conn_popClose there close
      have answered := answered_getPop there' run
      rw [conn] at answered
      exact answered.stream _
  · split at run
    · rw [← Except.ok.inj run]
      exact answered_reply there _ _
    · exact answered_getPop there run

theorem not_serving_dying {h : Handler} (dying : Dying h) : ¬Serving h := by
  rintro ⟨text, writes⟩
  obtain ⟨text', writes'⟩ := dying
  rw [writes] at writes'
  cases writes'

theorem Served.begun (served : Served i address id s s') (held : Holds s i address id)
    (serving : Serving (s'.conn i)) :
    (s'.conn i).popStream.queue.isSome ∧ (s'.conn i).popStream.chunkPos ≠ 0 := by
  cases served with
  | kept isOpen calm req stage => exact absurd serving stage
  | removed isOpen peek after req same all stage => exact absurd serving stage
  | returned isOpen after stage => exact absurd serving stage
  | serving calm req stage begun =>
    have still := (calm.held address id).mpr held
    exact ⟨by rw [still.1]; rfl, begun⟩
  | failed calm req stage => exact absurd serving (not_serving_dying stage)

theorem holds_take (take : Did i (.take address id) s t) : Holds t i address id := by
  obtain ⟨there, -, q, -, rfl⟩ := take
  have conn := Server.conn_setObject_setConn address q
    { s.conn i with popStream := { queue := some address, id := id } } there
  exact ⟨by rw [conn], by rw [conn]⟩

theorem Popped.begun (popped : Popped i s s') (serving : Serving (s'.conn i)) :
    (s'.conn i).popStream.queue.isSome ∧ (s'.conn i).popStream.chunkPos ≠ 0 := by
  cases popped with
  | nothing calm stage req => exact absurd serving stage
  | taken calm further req take contents served =>
    exact Served.begun served (holds_take take) serving

theorem Got.begun (got : Got i s s') (serving : Serving (s'.conn i)) :
    (s'.conn i).popStream.queue.isSome ∧ (s'.conn i).popStream.chunkPos ≠ 0 := by
  cases got with
  | refused calm stage => exact absurd serving (not_serving_dying stage)
  | popped closed popped => exact Popped.begun popped serving
  | aborted after stage => exact absurd serving stage
  | closed close req after stage => exact absurd serving stage
  | closedTook close isOpen did req popped => exact Popped.begun popped serving

def Idle (h : Handler) : Prop := ¬Serving h ∧ ¬Dying h

structure Follows (h h' : Handler) : Prop where
  serving : Serving h' → Serving h ∧ h'.req = h.req
  idle : Idle h' → h'.popStream.queue.isSome →
    Idle h ∨ Serving h ∧ h.req.getOpen = true ∧ h'.req = h.req

theorem Follows.refl (h : Handler) : Follows h h :=
  ⟨fun serving => ⟨serving, rfl⟩, fun idle _ => .inl idle⟩

theorem follows_idle {h h' : Handler} (idle : Idle h) (stage : ¬Serving h') : Follows h h' :=
  ⟨fun serving => absurd serving stage, fun _ _ => .inl idle⟩

def parsed (s : Server) (i : ℕ) : ServerEvent → Option Request
  | .readDone j _ =>
    if j = i ∧ (s.conn i).pending = .readUntil then
      (Server.lineLength (s.conn i).inBuf).bind fun n => Request.parse ((s.conn i).inBuf.take n)
    else none
  | _ => none

/-- A `get` without options that keep the item has sent all of it. -/
structure Sent (i address id : ℕ) (s s' : Server) : Prop where
  type : (s'.conn i).req.type = .get
  isOpen : (s'.conn i).req.getOpen = false
  peek : (s'.conn i).req.getPeek = false
  same : (s'.conn i).popStream.id = id
  all : ReadAll (s.object address).contents (s'.conn i).popStream

inductive Effect (i : ℕ) (event : ServerEvent) (s s' : Server) : Prop where
  | calm (calm : Calm i s s') (follows : Follows (s.conn i) (s'.conn i))
  | took {address id : ℕ} (after : After i [.take address id] s s')
      (type : (s'.conn i).req.type = .get)
      (opens : Idle (s'.conn i) → (s'.conn i).req.getOpen = true)
  | tookRemoved {address id : ℕ} (after : After i [.take address id, .remove address id] s s')
      (sent : Sent i address id s s')
  | tookReturned {address id : ℕ} (after : After i [.take address id, .giveBack address id] s s')
  | finished {address id : ℕ} (after : After i [.remove address id] s s')
      (serving : Serving (s.conn i)) (req : (s'.conn i).req = (s.conn i).req)
      (sent : Sent i address id s s')
  | returned {address id : ℕ} (after : After i [.giveBack address id] s s')
  | closed {address id : ℕ} (read : parsed s i event = some (s'.conn i).req)
      (type : (s'.conn i).req.type = .get) (close : (s'.conn i).req.getClose = true)
      (after : After i [.remove address id] s s')
  | closedTook {address id address' id' : ℕ} (read : parsed s i event = some (s'.conn i).req)
      (type : (s'.conn i).req.type = .get) (close : (s'.conn i).req.getClose = true)
      (isOpen : (s'.conn i).req.getOpen = true)
      (after : After i [.remove address id, .take address' id'] s s')

theorem held_remove {deeds : List Deed} (after : After i (.remove address id :: deeds) s s') :
    Holds s i address id := by
  obtain ⟨t, t', calm, did, -⟩ := after
  exact (calm.held address id).mp (PopEnds.held did)

theorem held_giveBack {deeds : List Deed} (after : After i (.giveBack address id :: deeds) s s') :
    Holds s i address id := by
  obtain ⟨t, t', calm, did, -⟩ := after
  exact (calm.held address id).mp (PopEnds.held did)

theorem effect_popped {event : ServerEvent} (calm : Calm i s t)
    (type : (t.conn i).req.type = .get) (idle : Idle (s.conn i))
    (same : ∀ a, (t.object a).contents = (s.object a).contents) (popped : Popped i t s') :
    Effect i event s s' := by
  cases popped with
  | nothing last stage req => exact .calm (calm.trans last) (follows_idle idle stage)
  | @taken a n u u' first further req take contents served =>
    have took : After i [.take a n] s u' := (calm.trans first).after take.after
    cases served with
    | kept isOpen last req' stage =>
      refine .took (took.calm last) (by rw [req', req]; exact type) fun _ => ?_
      rw [req']
      exact isOpen
    | removed isOpen peek after req' same' all stage =>
      refine .tookRemoved (took.append after) ⟨?_, ?_, ?_, same', ?_⟩
      · rw [req', req]
        exact type
      · rw [req']
        exact isOpen
      · rw [req']
        exact peek
      · rw [contents, same] at all
        exact all
    | returned isOpen after stage => exact .tookReturned (took.append after)
    | serving last req' stage begun =>
      exact .took (took.calm last) (by rw [req', req]; exact type) fun idle => absurd stage idle.1
    | failed last req' stage =>
      exact .took (took.calm last) (by rw [req', req]; exact type) fun idle => absurd stage idle.2

theorem effect_got {event : ServerEvent} (calm : Calm i s t) (type : (t.conn i).req.type = .get)
    (idle : Idle (s.conn i)) (same : ∀ a, (t.object a).contents = (s.object a).contents)
    (read : parsed s i event = some (t.conn i).req ∨ (t.conn i).popStream.queue = none)
    (got : Got i t s') : Effect i event s s' := by
  -- only a request that was just read can close an item
  have closing : ∀ {a n deeds u}, After i (.remove a n :: deeds) t u →
      parsed s i event = some (t.conn i).req := by
    intro a n deeds u after
    rcases read with read | closed
    · exact read
    · have held := held_remove after
      rw [Holds, closed] at held
      cases held.1
  cases got with
  | refused last stage =>
    exact .calm (calm.trans last) (follows_idle idle (not_serving_dying stage))
  | popped closed popped => exact effect_popped calm type idle same popped
  | aborted after stage => exact .returned (calm.after after)
  | closed close req after stage =>
    refine .closed ?_ ?_ ?_ (calm.after after)
    · rw [req]
      exact closing after
    · rw [req]
      exact type
    · rw [req]
      exact close
  | @closedTook a n u close isOpen did req popped =>
    have read := closing did.after
    cases popped with
    | nothing last stage req' =>
      refine .closed ?_ ?_ ?_ (calm.after (did.after.calm last)) <;> rw [req', req]
      exacts [read, type, close]
    | @taken b m v v' first further req' take contents served =>
      have took : After i [.remove a n, .take b m] s v' :=
        calm.after (did.after.append (first.after take.after))
      have wanted : (v'.conn i).req.getOpen = true := by rw [req', req]; exact isOpen
      cases served with
      | kept isOpen last req'' stage =>
        refine .closedTook ?_ ?_ ?_ ?_ (took.calm last) <;> rw [req'', req', req]
        exacts [read, type, close, by assumption]
      | removed isOpen => rw [wanted] at isOpen; cases isOpen
      | returned isOpen => rw [wanted] at isOpen; cases isOpen
      | serving last req'' stage begun =>
        refine .closedTook ?_ ?_ ?_ ?_ (took.calm last) <;> rw [req'', req', req]
        exacts [read, type, close, isOpen]
      | failed last req'' stage =>
        refine .closedTook ?_ ?_ ?_ ?_ (took.calm last) <;> rw [req'', req', req]
        exacts [read, type, close, isOpen]

theorem effect_served {event : ServerEvent} (serving : Serving (s.conn i))
    (type : (s.conn i).req.type = .get) (served : Served i address id s s') :
    Effect i event s s' := by
  cases served with
  | kept isOpen calm req stage =>
    exact .calm calm ⟨fun still => absurd still stage, fun _ _ => .inr ⟨serving, isOpen, req⟩⟩
  | removed isOpen peek after req same all stage =>
    refine .finished after serving req ⟨?_, ?_, ?_, same, all⟩ <;> rw [req]
    exacts [type, isOpen, peek]
  | returned isOpen after stage => exact .returned after
  | serving calm req stage begun =>
    exact .calm calm ⟨fun _ => ⟨serving, req⟩, fun idle _ => absurd stage idle.1⟩
  | failed calm req stage =>
    exact .calm calm ⟨fun still => absurd still (not_serving_dying stage),
      fun idle _ => absurd stage idle.2⟩

structure Pushing (h : Handler) : Prop where
  told : h.pushStream.tell ≤ h.req.numBytes
  more : h.pushStream.header.end_ > 1 → h.pushStream.tell < h.req.numBytes
  size : h.req.numBytes < 2 ^ 32

theorem phase_reply {text : Bytes} {next : Next} (there : i < s.conns.length)
    (plain : next ≠ .getOnWriteChunk) (size : (s.conn i).req.numBytes < 2 ^ 32) :
    HandlerPhase ((s.reply i text next).conn i) ∧ ¬Serving ((s.reply i text next).conn i) := by
  have stage : ¬Serving ((s.reply i text next).conn i) := by
    rw [conn_reply there]
    rintro ⟨text', same⟩
    exact plain (Pending.write.inj same).2
  refine ⟨⟨fun serving => absurd serving stage, ?_, ?_, ?_, ?_⟩, stage⟩
  · rw [conn_reply there]
    exact fun _ _ same => nomatch same
  · rw [conn_reply there]
    exact fun _ same => nomatch same
  · rw [conn_reply there]
    exact size
  · rw [conn_reply there]
    intro same
    cases same

theorem phase_readNextChunk (there : i < s.conns.length) (pos : 0 < s.chunkSize)
    (pushing : Pushing (s.conn i)) :
    HandlerPhase ((s.readNextChunk i).conn i) ∧ ¬Serving ((s.readNextChunk i).conn i) := by
  have conn : ∃ n, (s.readNextChunk i).conn i = { s.conn i with pending := .readChunk n } ∧
      0 < (s.conn i).inBuf.length + n := by
    refine ⟨_, Server.conn_setConn_self _ there, ?_⟩
    split <;> omega
  obtain ⟨n, conn, needs⟩ := conn
  rw [conn]
  have stage : ¬Serving { s.conn i with pending := .readChunk n } := by
    rintro ⟨text, same⟩
    cases same
  refine ⟨⟨fun serving => absurd serving stage, (fun _ _ same => nomatch same), fun m same => ?_,
    pushing.size, fun same => by cases same⟩, stage⟩
  rw [← Pending.readChunk.inj same]
  exact ⟨needs, pushing.told, pushing.more⟩

theorem calm_readNextChunk (there : i < s.conns.length) : Calm i s (s.readNextChunk i) :=
  calm_setPending there _

theorem storeChunk_calm {chunk : Bytes} (env : Env) (ready : Ready i s) (pos : 0 < s.chunkSize)
    (size : (s.conn i).req.numBytes < 2 ^ 32)
    (room : (s.conn i).pushStream.tell + chunk.length ≤ (s.conn i).req.numBytes)
    (full : (s.conn i).pushStream.header.end_ > 1 → chunk ≠ []) :
    Calm i s (s.storeChunk i chunk env) ∧
      HandlerPhase ((s.storeChunk i chunk env).conn i) ∧
      ¬Serving ((s.storeChunk i chunk env).conn i) := by
  have there := ready.there
  have word : (2 : ℕ) ^ 32 < wordSize := by decide
  have fits : (s.conn i).pushStream.header.size + chunk.length < wordSize := by
    rw [OQStream.tell] at room
    omega
  have calm := calm_pushWrite env.stray env.io there (ready.made i) fits full
  -- all that the write changes of the handler is the push stream
  have conn : ∃ stream, (s.pushWrite i chunk env.stray env.io).2.conn i =
      { s.conn i with pushStream := stream } ∧
      stream.tell ≤ (s.conn i).pushStream.tell + chunk.length := by
    unfold Server.pushWrite
    split
    · exact ⟨(s.conn i).pushStream, rfl, Nat.le_add_right _ _⟩
    case h_2 a isOpen =>
      refine ⟨_, Server.conn_setObject_setConn a _ _ there, ?_⟩
      exact size_write _ _ chunk env.stray env.io
  unfold Server.storeChunk
  split
  case h_1 e t result =>
    rw [result] at calm conn
    obtain ⟨stream, conn, -⟩ := conn
    have there' := lt_of_lt_of_le there calm.conns
    have conn : t.conn i = { s.conn i with pushStream := stream } := conn
    refine ⟨calm.trans (calm_reply there' _ _), phase_reply there' (by simp) ?_⟩
    rw [conn]
    exact size
  case h_2 t result =>
    rw [result] at calm conn
    obtain ⟨stream, conn, told⟩ := conn
    have there' := lt_of_lt_of_le there calm.conns
    have conn : t.conn i = { s.conn i with pushStream := stream } := conn
    have size' : (t.conn i).req.numBytes < 2 ^ 32 := by
      rw [conn]
      exact size
    split
    · exact ⟨calm.trans (calm_statsReply there' _ _ _),
        phase_reply (s := { t with stats := { t.stats with
          itemsEnqueued := t.stats.itemsEnqueued + 1 } }) there' (by simp) size'⟩
    case isFalse unfinished =>
      have chunkSize : t.chunkSize = s.chunkSize := calm.chunkSize
      refine ⟨calm.trans (calm_readNextChunk there'),
        phase_readNextChunk there' (chunkSize ▸ pos) ⟨?_, fun _ => ?_, size'⟩⟩
      · rw [conn]
        exact told.trans room
      · rw [conn] at unfinished ⊢
        exact lt_of_le_of_ne (told.trans room) unfinished

theorem setOnReadChunk_calm {env : Env} (ready : Ready i s) (pos : 0 < s.chunkSize)
    (pushing : Pushing (s.conn i)) (buffered : 0 < (s.conn i).inBuf.length) :
    Calm i s (s.setOnReadChunk i env) ∧
      HandlerPhase ((s.setOnReadChunk i env).conn i) ∧
      ¬Serving ((s.setOnReadChunk i env).conn i) := by
  have there := ready.there
  have told := pushing.told
  -- the buffer is consumed first, and then the chunk is stored
  have consumed : ∀ (rest chunk : Bytes),
      (s.conn i).pushStream.tell + chunk.length ≤ (s.conn i).req.numBytes →
      ((s.conn i).pushStream.header.end_ > 1 → chunk ≠ []) →
      Calm i s ((s.setConn i { s.conn i with inBuf := rest }).storeChunk i chunk env) ∧
        HandlerPhase (((s.setConn i { s.conn i with inBuf := rest }).storeChunk i chunk env).conn i) ∧
        ¬Serving (((s.setConn i { s.conn i with inBuf := rest }).storeChunk i chunk env).conn i) := by
    intro rest chunk room full
    have calm := calm_setConn (h := { s.conn i with inBuf := rest }) there (fun _ => rfl) fun _ => rfl
    have conn := Server.conn_setConn_self { s.conn i with inBuf := rest } there
    have ready' := ready.calm calm
    obtain ⟨stored, phase⟩ := storeChunk_calm env ready' pos
      (by rw [conn]; exact pushing.size) (by rw [conn]; exact room) (by rw [conn]; exact full)
    exact ⟨calm.trans stored, phase⟩
  unfold Server.setOnReadChunk
  dsimp only
  split
  case isTrue last =>
    split
    · exact ⟨calm_reply there _ _, phase_reply there (by simp) pushing.size⟩
    case isFalse ending =>
      refine consumed _ _ ?_ ?_
      · rw [List.length_take]
        omega
      · intro multi
        have more := pushing.more multi
        have long : (s.conn i).req.numBytes - (s.conn i).pushStream.tell < (s.conn i).inBuf.length := by
          by_contra short
          apply ending
          rw [List.drop_eq_nil_of_le (by omega)]
          decide
        rw [← List.length_pos_iff, List.length_take]
        omega
  case isFalse =>
    refine consumed _ _ ?_ fun _ => ?_
    · rw [List.length_take]
      omega
    · rw [← List.length_pos_iff, List.length_take]
      omega

theorem header_oopen {stream : OQStream} (address : ℕ) (q : Queue) (count : ℕ) (sync : Bool)
    (closed : stream.queue = none) : (stream.open_ address q count sync).2.1.header =
      if count > 1 then (q.reserveChunks count).1 else {} := by
  simp only [OQStream.open_, closed, Option.isSome_none, Bool.false_eq_true, if_false]
  split <;> rfl

theorem set_calm (ready : Ready i s) (pos : 0 < s.chunkSize)
    (size : (s.conn i).req.numBytes < 2 ^ 32)
    (run : s.set i = .ok s') (fits : ∀ a, (s'.object a).chunksHead.id < wordSize) :
    Calm i s s' ∧ HandlerPhase (s'.conn i) ∧ ¬Serving (s'.conn i) := by
  have there := ready.there
  obtain ⟨a, t, u, found, opened, rfl⟩ := Server.set_ok run
  obtain ⟨first, conns, registered, -⟩ := calm_queueAt i found
  have same : t.conn i = s.conn i := Server.conn_congr conns i
  have there' : i < t.conns.length := conns ▸ there
  have calm := calm_pushOpen there' (first.named ready.named _ a registered) opened (fits a)
  have there'' := lt_of_lt_of_le there' calm.conns
  have chunkSize : u.chunkSize = s.chunkSize := calm.chunkSize.trans first.chunkSize
  refine ⟨(first.trans calm).trans (calm_readNextChunk there''),
    phase_readNextChunk there'' (chunkSize ▸ pos) ?_⟩
  obtain ⟨closed, rfl⟩ := pushOpen_ok opened
  rw [same] at closed opened ⊢
  rw [Server.conn_setObject_setConn a _ _ there']
  have header := header_oopen a (t.object a)
    (((s.conn i).req.numBytes + t.chunkSize - 1) / t.chunkSize) (s.conn i).req.setSync closed
  refine ⟨?_, fun multi => ?_, size⟩
  · simp only [OQStream.tell, header]
    split <;> exact Nat.zero_le _
  · simp only [OQStream.tell, header] at multi ⊢
    split at multi
    case isTrue several =>
      rw [if_pos several]
      -- more than one chunk is needed only when there is a byte
      by_contra none
      have zero : (s.conn i).req.numBytes = 0 := Nat.eq_zero_of_not_pos none
      have positive : 0 < t.chunkSize := first.chunkSize ▸ pos
      rw [zero, Nat.zero_add, Nat.div_eq_of_lt (by omega)] at several
      omega
    case isFalse => exact absurd multi (by simp)

/-- What holds of a server between two events. -/
structure Settled (s : Server) : Prop where
  chunkSize_pos : 0 < s.chunkSize
  awake : Awake none s
  sound : ∀ address, Sound (config s address)
  made : Made s
  phase : ∀ j, HandlerPhase (s.conn j)

theorem Settled.ready (settled : Settled s) (there : i < s.conns.length) : Ready i s :=
  ⟨there, settled.awake.made, settled.sound, settled.made⟩

/-- An event of connection `i` has one of the effects, and leaves the handler in phase. -/
structure Turned (i : ℕ) (event : ServerEvent) (s s' : Server) : Prop where
  effect : Effect i event s s'
  phase : HandlerPhase (s'.conn i)

theorem turned_same {event : ServerEvent} (settled : Settled s) (i : ℕ) : Turned i event s s :=
  ⟨.calm (.refl i s) (.refl _), settled.phase i⟩

theorem turned_drop {event : ServerEvent} {ok : Bool} (calm : Calm i s t) (ready : Ready i t) :
    Turned i event s (t.drop i ok) := by
  have conn : (t.drop i ok).conn i = { pending := .closed } := conn_drop ready.there
  refine ⟨?_, conn ▸ phase_closed⟩
  cases isOpen : (t.conn i).popStream.queue with
  | some a => exact .returned (calm.after (drop_holding ready ⟨isOpen, rfl⟩))
  | none =>
    refine .calm (calm.trans (drop_closed ready isOpen)) ⟨fun serving => ?_, fun _ held => ?_⟩
    · exact absurd serving (not_serving_drop ready.there)
    · rw [conn] at held
      cases held

theorem idle_pending {h : Handler} (reading : ∀ text, h.pending ≠ .write text .getOnWriteChunk)
    (alive : ∀ text, h.pending ≠ .write text .hangUp) : Idle h :=
  ⟨fun ⟨text, same⟩ => reading text same, fun ⟨text, same⟩ => alive text same⟩

theorem turned_calm {event : ServerEvent} (idle : Idle (s.conn i))
    (h : Calm i s s' ∧ HandlerPhase (s'.conn i) ∧ ¬Serving (s'.conn i)) : Turned i event s s' :=
  ⟨.calm h.1 (follows_idle idle h.2.2), h.2.1⟩

theorem turned_reply {event : ServerEvent} {text : Bytes} {next : Next} (calm : Calm i s t)
    (idle : Idle (s.conn i)) (there : i < t.conns.length) (plain : next ≠ .getOnWriteChunk)
    (size : (t.conn i).req.numBytes < 2 ^ 32) : Turned i event s (t.reply i text next) :=
  turned_calm idle ⟨calm.trans (calm_reply there text next), phase_reply there plain size⟩

theorem turned_get {event : ServerEvent} {env : Env} (calm : Calm i s t) (ready : Ready i t)
    (type : (t.conn i).req.type = .get) (size : (t.conn i).req.numBytes < 2 ^ 32)
    (idle : Idle (s.conn i)) (same : ∀ a, (t.object a).contents = (s.object a).contents)
    (read : parsed s i event = some (t.conn i).req ∨ (t.conn i).popStream.queue = none)
    (run : t.get i env = .ok s') : Turned i event s s' := by
  have got := get_got ready run
  exact ⟨effect_got calm type idle same read got,
    phase_answered (answered_get ready.there run) size type (Got.begun got)⟩

theorem turned_erase {event : ServerEvent} {u : Server} {name : Bytes} {recreate : Bool}
    {msg : String} (calm : Calm i s t) (ready : Ready i t) (idle : Idle (s.conn i))
    (size : (t.conn i).req.numBytes < 2 ^ 32) (erase : t.eraseQueue name recreate = .ok u) :
    Turned i event s (u.end_ i msg) := by
  have erased := calm_eraseQueue i ready.named erase
  have conns : u.conns = t.conns := by
    rcases Server.eraseQueue_ok erase with rfl | ⟨a, -, rfl | rfl⟩ <;> rfl
  have same : u.conn i = t.conn i := Server.conn_congr conns i
  exact turned_reply (calm.trans erased) idle (conns ▸ ready.there) (by simp) (same ▸ size)

theorem turned_dispatch {event : ServerEvent} {env : Env} (calm : Calm i s t) (ready : Ready i t)
    (pos : 0 < t.chunkSize) (size : (t.conn i).req.numBytes < 2 ^ 32) (idle : Idle (s.conn i))
    (same : ∀ a, (t.object a).contents = (s.object a).contents)
    (read : parsed s i event = some (t.conn i).req)
    (run : t.dispatch i env = .ok s') (fits : ∀ a, (s'.object a).chunksHead.id < wordSize) :
    Turned i event s s' := by
  have there := ready.there
  unfold Server.dispatch at run
  split at run
  case h_1 =>
    rw [← Except.ok.inj run]
    exact turned_drop calm ready
  case h_2 =>
    rw [← Except.ok.inj run]
    exact turned_reply calm idle there (by simp) size
  case h_3 =>
    rw [← Except.ok.inj run]
    exact turned_reply calm idle there (by simp) size
  case h_4 =>
    obtain ⟨u, erased, rfl⟩ := Server.destroy_ok run
    exact turned_erase calm ready idle size erased
  case h_5 =>
    obtain ⟨u, erased, rfl⟩ := Server.flush_ok run
    exact turned_erase calm ready idle size erased
  case h_6 =>
    unfold Server.flushAll at run
    split at run
    · rw [← Except.ok.inj run]
      exact turned_reply calm idle there (by simp) size
    · cases run
  case h_7 =>
    have counted : Calm i t t.countSet := calm_stats i t _
    have ready' : Ready i t.countSet := ready.calm counted
    obtain ⟨last, phase⟩ := set_calm ready' pos size run fits
    exact turned_calm idle ⟨(calm.trans counted).trans last, phase⟩
  case h_8 type =>
    have counted : Calm i t t.countGet := calm_stats i t _
    have ready' : Ready i t.countGet := ready.calm counted
    exact turned_get (calm.trans counted) ready' type size idle same (.inl read) run

theorem turned_parse {n : ℕ} {event : ServerEvent} {env : Env} (settled : Settled s)
    (reading : (s.conn i).pending = .readUntil)
    (read : parsed s i event = Request.parse ((s.conn i).inBuf.take n))
    (run : s.parseRequest i n env = .ok s') (fits : ∀ a, (s'.object a).chunksHead.id < wordSize) :
    Turned i event s s' := by
  have there : i < s.conns.length := Server.conn_there (by simp [reading])
  have ready := settled.ready there
  have idle : Idle (s.conn i) := idle_pending (by simp [reading]) (by simp [reading])
  unfold Server.parseRequest at run
  dsimp only at run
  split at run
  case h_1 =>
    rw [← Except.ok.inj run]
    exact turned_reply (.refl i s) idle there (by simp) (settled.phase i).size
  case h_2 req parse =>
    have calm := calm_setConn (h := { s.conn i with req := req
                                                    inBuf := (s.conn i).inBuf.drop n })
      there (fun _ => rfl) fun _ => rfl
    have conn := Server.conn_setConn_self { s.conn i with req := req
                                                          inBuf := (s.conn i).inBuf.drop n } there
    refine turned_dispatch calm (ready.calm calm) settled.chunkSize_pos ?_
      idle (fun _ => rfl) ?_ run fits
    · rw [conn]
      exact Request.numBytes_parse parse
    · rw [conn, read, parse]

theorem turned_readDone {env : Env} (settled : Settled s) (run : s.readDone i env = .ok s')
    (fits : ∀ a, (s'.object a).chunksHead.id < wordSize) :
    Turned i (.readDone i env) s s' := by
  unfold Server.readDone at run
  dsimp only at run
  split at run
  case h_1 reading =>
    have there : i < s.conns.length := Server.conn_there (by simp [reading])
    split at run
    case h_1 n line =>
      exact turned_parse settled reading (by simp [parsed, reading, line]) run fits
    case h_2 =>
      rw [← Except.ok.inj run]
      split
      · exact turned_drop (.refl i s) (settled.ready there)
      · exact turned_same settled i
  case h_2 n reading =>
    have there : i < s.conns.length := Server.conn_there (by simp [reading])
    obtain ⟨buffered, told, more⟩ := (settled.phase i).reading n reading
    rw [← Except.ok.inj run]
    split
    case isTrue enough =>
      have ready := settled.ready there
      have idle : Idle (s.conn i) := idle_pending (by simp [reading]) (by simp [reading])
      refine turned_calm idle (setOnReadChunk_calm ready settled.chunkSize_pos
        ⟨told, more, (settled.phase i).size⟩ ?_)
      have := settled.chunkSize_pos
      rw [Server.capacity] at enough
      omega
    case isFalse => exact turned_same settled i
  case h_3 =>
    rw [← Except.ok.inj run]
    exact turned_same settled i

theorem turned_readFailed {env : Env} (settled : Settled s) :
    Turned i (.readFailed i env) s (s.readFailed i env) := by
  unfold Server.readFailed
  dsimp only
  split
  case h_1 reading =>
    have there : i < s.conns.length := Server.conn_there (by simp [reading])
    split
    · exact turned_drop (.refl i s) (settled.ready there)
    · exact turned_same settled i
  case h_2 n reading =>
    have there : i < s.conns.length := Server.conn_there (by simp [reading])
    split
    · exact turned_drop (.refl i s) (settled.ready there)
    · exact turned_same settled i
  case h_3 => exact turned_same settled i

theorem turned_writeDone {env : Env} (settled : Settled s) :
    Turned i (.writeDone i env) s (s.writeDone i env) := by
  have phase := settled.phase i
  unfold Server.writeDone
  split
  case h_1 text writing =>
    have there : i < s.conns.length := Server.conn_there (by simp [writing])
    have idle : Idle (s.conn i) := idle_pending (by simp [writing]) (by simp [writing])
    have conn : (s.setPending i .readUntil).conn i = { s.conn i with pending := .readUntil } :=
      Server.conn_setConn_self _ there
    have stage : ¬Serving ((s.setPending i .readUntil).conn i) := by
      rw [conn]
      rintro ⟨text, same⟩
      cases same
    refine turned_calm idle ⟨calm_setPending there _,
      ⟨fun serving => absurd serving stage, ?_, ?_, ?_, ?_⟩, stage⟩
    · rw [conn]
      exact fun _ _ same => nomatch same
    · rw [conn]
      exact fun _ same => nomatch same
    · rw [conn]
      exact phase.size
    · rw [conn]
      intro same
      cases same
  case h_2 text writing =>
    have there : i < s.conns.length := Server.conn_there (by simp [writing])
    have ready := settled.ready there
    have serving : Serving (s.conn i) := ⟨text, writing⟩
    obtain ⟨isOpen, begun, type⟩ := phase.serving serving
    obtain ⟨a, isOpen⟩ := Option.isSome_iff_exists.mp isOpen
    have held : Holds s i a (s.conn i).popStream.id := ⟨isOpen, rfl⟩
    have answered := answered_getOnWriteChunk there env
    rcases getOnWriteChunk_served env ready held begun with served | ⟨after, stage⟩
    · exact ⟨effect_served serving type served,
        phase_answered answered phase.size type (Served.begun served held)⟩
    · exact ⟨.returned after, phase_answered answered phase.size type
        fun serving => absurd serving stage⟩
  case h_3 text writing =>
    have there : i < s.conns.length := Server.conn_there (by simp [writing])
    exact turned_drop (.refl i s) (settled.ready there)
  case h_4 => exact turned_same settled i

theorem turned_writeFailed {env : Env} (settled : Settled s) :
    Turned i (.writeFailed i env) s (s.writeFailed i env) := by
  unfold Server.writeFailed
  split
  case h_1 writing =>
    have there : i < s.conns.length := Server.conn_there (by simp [writing])
    exact turned_drop (.refl i s) (settled.ready there)
  case h_2 => exact turned_same settled i

theorem turned_recv {data : Bytes} (settled : Settled s) :
    Turned i (.recv i data) s (s.recv i data) := by
  have phase := settled.phase i
  unfold Server.recv
  dsimp only
  split
  case isFalse => exact turned_same settled i
  case isTrue =>
    split
    case h_1 reading =>
      split
      case isTrue =>
        have there : i < s.conns.length := Server.conn_there (by simp [reading])
        have conn := Server.conn_setConn_self { s.conn i with inBuf := (s.conn i).inBuf ++ data } there
        refine ⟨.calm (calm_setConn there (fun _ => rfl) fun _ => rfl) ?_, ?_⟩
        · rw [conn]
          exact ⟨fun serving => ⟨serving, rfl⟩, fun idle _ => .inl idle⟩
        · rw [conn]
          refine ⟨phase.serving, phase.waiting, fun n same => ?_, phase.size, phase.shut⟩
          rw [show (s.conn i).pending = .readChunk n from same] at reading
          cases reading
      case isFalse => exact turned_same settled i
    case h_2 n reading =>
      split
      case isTrue =>
        have there : i < s.conns.length := Server.conn_there (by simp [reading])
        have conn := Server.conn_setConn_self
          { s.conn i with inBuf := (s.conn i).inBuf ++ data
                          pending := .readChunk (n - data.length) } there
        have idle : Idle (s.conn i) := idle_pending (by simp [reading]) (by simp [reading])
        obtain ⟨buffered, told, more⟩ := phase.reading n reading
        refine turned_calm idle ⟨calm_setConn there (fun _ => rfl) fun _ => rfl, ?_, ?_⟩
        · rw [conn]
          refine ⟨?_, fun _ _ same => (nomatch same), fun m same => ⟨?_, told, more⟩, phase.size,
            fun same => by cases same⟩
          · rintro ⟨text, same⟩
            cases same
          · rw [← Pending.readChunk.inj same, List.length_append]
            omega
        · rw [conn]
          rintro ⟨text, same⟩
          cases same
      case isFalse => exact turned_same settled i
    case h_3 => exact turned_same settled i

theorem turned_accept {stats : Stats} :
    Turned s.conns.length .accept s { s with conns := s.conns ++ [{}], stats := stats } := by
  have conn : ({ s with conns := s.conns ++ [{}], stats := stats } : Server).conn s.conns.length =
    {} := by simp [Server.conn]
  refine ⟨.calm (calm_accept s stats) ⟨fun serving => ?_, fun _ held => ?_⟩, ?_⟩
  · rw [conn] at serving
    obtain ⟨text, same⟩ := serving
    cases same
  · rw [conn] at held
    cases held
  · rw [conn]
    refine ⟨?_, ?_, ?_, Nat.two_pow_pos 32, fun _ => rfl⟩
    · rintro ⟨text, same⟩
      cases same
    · rintro _ _ same
      cases same
    · rintro _ same
      cases same

theorem turned_unseen {event : ServerEvent} {q : Queue} (settled : Settled s) (i : ℕ)
    (unseen : Unseen (s.object address) q) : Turned i event s (s.setObject address q) := by
  by_cases made : address < s.objects.length
  · have conn : (s.setObject address q).conn i = s.conn i := rfl
    refine ⟨.calm (calm_unseen i made unseen) ?_, ?_⟩
    · rw [conn]
      exact .refl _
    · rw [conn]
      exact settled.phase i
  · rw [Server.setObject_beyond q (by omega)]
    exact turned_same settled i

theorem turned_due {node : ℕ} {env : Env} {w : Waiter} (settled : Settled s)
    (due : s.dueWaiter address node = some w) (run : s.callback address node env = .ok s') :
    Turned w.cb (.callback address node env) s s' := by
  have mem : w ∈ (s.object address).waiters := List.mem_of_find?_eq_some due
  obtain ⟨-, waits⟩ := settled.awake.waits address w mem
  have made := Server.waiter_there mem
  have there : w.cb < s.conns.length := Server.conn_there (by simp [waits.pending])
  have phase := settled.phase w.cb
  have idle : Idle (s.conn w.cb) :=
    idle_pending (by simp [waits.pending]) (by simp [waits.pending])
  have unseen : Unseen (s.object address) ((s.object address).waiterWakeup node).1 :=
    ⟨rfl, rfl, rfl, rfl, rfl, rfl⟩
  have calm := calm_unseen w.cb made unseen
  simp only [Server.callback, due] at run
  split at run
  case isTrue =>
    refine turned_get calm ((settled.ready there).calm calm) (phase.waiting _ _ waits.pending)
      phase.size idle (fun a => ?_) (.inr waits.closed) run
    by_cases same : a = address
    · subst same
      rw [Server.object_setObject_self _ made]
      rfl
    · rw [Server.object_setObject_ne s _ same]
  case isFalse =>
    rw [← Except.ok.inj run]
    exact turned_reply calm idle there (by simp) phase.size

theorem turned_callback {node : ℕ} {env : Env} (settled : Settled s)
    (run : s.callback address node env = .ok s') :
    ∃ i, Turned i (.callback address node env) s s' := by
  cases due : s.dueWaiter address node with
  | none =>
    simp only [Server.callback, due] at run
    rw [← Except.ok.inj run]
    exact ⟨0, turned_same settled 0⟩
  | some w => exact ⟨w.cb, turned_due settled due run⟩

/-- All ids are 64-bit words. A queue is taken never to run out of them. -/
structure Fits (s : Server) : Prop where
  head : ∀ address, (s.object address).queueHead.id < wordSize
  chunks : ∀ address, (s.object address).chunksHead.id < wordSize

theorem step_turned {event : ServerEvent} (settled : Settled s) (run : s.Step event s')
    (fits : Fits s') : ∃ i, Turned i event s s' := by
  cases event with
  | accept =>
    rw [← Except.ok.inj run]
    exact ⟨_, turned_accept⟩
  | recv i data =>
    rw [← Except.ok.inj run]
    exact ⟨i, turned_recv settled⟩
  | readDone i env => exact ⟨i, turned_readDone settled run fits.chunks⟩
  | readFailed i env =>
    rw [← Except.ok.inj run]
    exact ⟨i, turned_readFailed settled⟩
  | writeDone i env =>
    rw [← Except.ok.inj run]
    exact ⟨i, turned_writeDone settled⟩
  | writeFailed i env =>
    rw [← Except.ok.inj run]
    exact ⟨i, turned_writeFailed settled⟩
  | expire address node =>
    rw [← Except.ok.inj run]
    exact ⟨0, turned_unseen settled 0 ⟨rfl, rfl, rfl, rfl, rfl, rfl⟩⟩
  | callback address node env => exact turned_callback settled run

theorem Effect.after {event : ServerEvent} (effect : Effect i event s s') :
    ∃ deeds, After i deeds s s' := by
  cases effect with
  | calm calm _ => exact ⟨[], calm⟩
  | took after | tookRemoved after | tookReturned after | finished after | returned after =>
    exact ⟨_, after⟩
  | closed _ _ _ after => exact ⟨_, after⟩
  | closedTook _ _ _ _ after => exact ⟨_, after⟩

theorem step_settled {event : ServerEvent} (settled : Settled s) (run : s.Step event s')
    (fits : Fits s') : Settled s' := by
  obtain ⟨i, turned⟩ := step_turned settled run fits
  obtain ⟨deeds, after⟩ := turned.effect.after
  refine
    { chunkSize_pos := after.chunkSize ▸ settled.chunkSize_pos
      awake := step_awake s event s' settled.awake run
      sound := fun a => (after.changes a).invariant change_sound (settled.sound a)
      made := after.made settled.made
      phase := fun j => ?_ }
  by_cases same : j = i
  · exact same ▸ turned.phase
  · rw [after.others same]
    exact settled.phase j

end Darner.FetchEvents
