import Darner.FetchEvents

/-! Every event of the loop as a sequence of calls. An event is served by one
connection; what it does to the queues, to the map and to the handlers is listed
here once, call by call, with what the caller has checked before. An invariant of
the server has one case for each call, and not one for each handler function. -/

namespace Darner.ServerCalls
open OrderedStore LabelledRuns StreamMoves ServerMoves ServerWaiters FetchDeeds FetchEvents

variable {s s' t u : Server} {i address : ℕ} {io : Io} {deletes : Bytes → Prop}

def outcomes : ServerEvent → Io
  | .readDone _ env | .readFailed _ env | .writeDone _ env | .writeFailed _ env => env.io
  | .callback _ _ env => env.io
  | _ => fun _ => true

def deleted (s : Server) : ServerEvent → Option Bytes
  | .readDone i env =>
    (parsed s i (.readDone i env)).bind fun req =>
      if req.type = .destroy ∨ req.type = .flush then some req.queue else none
  | _ => none

def Deletes (s : Server) (event : ServerEvent) (name : Bytes) : Prop :=
  deleted s event = some name

def spares (busy : Bytes → Handler → Bool) (s : Server) (event : ServerEvent) : Bool :=
  (deleted s event).all fun name => s.conns.all fun h => !busy name h

theorem spares_busy {busy : Bytes → Handler → Bool} {event : ServerEvent} {j : ℕ} {name : Bytes}
    (spared : spares busy s event = true) (there : j < s.conns.length)
    (isBusy : busy name (s.conn j) = true) : ¬Deletes s event name := by
  intro asked
  rw [Deletes] at asked
  rw [spares, asked, Option.all_some, List.all_eq_true] at spared
  have wrong := spared _ (List.mem_of_getElem? (conn_row there))
  rw [isBusy] at wrong
  cases wrong

def Free (h : Handler) : Prop :=
  (∀ text, h.pending ≠ .write text .hangUp) ∧ ∀ n, h.pending ≠ .readChunk n

def serving (s : Server) : ServerEvent → Option ℕ
  | .recv i _ | .readDone i _ | .readFailed i _ | .writeDone i _ | .writeFailed i _ => some i
  | .callback address node _ => (s.dueWaiter address node).map Waiter.cb
  | .accept | .expire _ _ => none

/-- One call of connection `i`. The journal calls turn out as `io` says, and
`deletes` are the names that the connection deletes. -/
inductive Call (i : ℕ) (io : Io) (deletes : Bytes → Prop) (s : Server) : Server → Prop where
  | touch {h : Handler} (pop : h.popStream = (s.conn i).popStream)
      (push : h.pushStream = (s.conn i).pushStream) (free : Free (s.conn i))
      (plain : (∀ n, h.pending ≠ .readChunk n) ∧ ∀ a node, h.pending ≠ .wait a node)
      (alive : h.pending ≠ .closed)
      (size : h.req = (s.conn i).req ∨ h.req.numBytes < 2 ^ 32) :
      Call i io deletes s (s.setConn i h)
  | count (stats : Stats) : Call i io deletes s { s with stats := stats }
  | make {name : Bytes} (absent : s.queues.lookup name = none)
      (unused : s.pathOf name ∉ s.paths) : Call i io deletes s (s.withQueue name)
  | delete {name : Bytes} {address : ℕ} (free : Free (s.conn i)) (asked : deletes name)
      (found : s.queues.lookup name = some address) :
      Call i io deletes s (s.withoutQueue name address)
  | fetch {address : ℕ} {t u : Server} {io' : Io} {buf : Bytes} (free : Free (s.conn i))
      (found : s.queues.lookup (s.conn i).req.queue = some address)
      (opened : s.popOpen i address = (.ok true, t)) (read : t.popRead i io' = (.ok buf, u)) :
      Call i io deletes s u
  | fetchFailed {address : ℕ} {t u : Server} {io' : Io} {e : Error} (free : Free (s.conn i))
      (found : s.queues.lookup (s.conn i).req.queue = some address)
      (opened : s.popOpen i address = (.ok true, t)) (read : t.popRead i io' = (.error e, u)) :
      Call i io deletes s (u.serverError i e)
  | read (io' : Io) (free : Free (s.conn i)) : Call i io deletes s (s.popRead i io').2
  | close {t : Server} {erase : Bool} (n : ℕ) (free : Free (s.conn i))
      (closed : s.popClose i erase (io n) = .ok t) : Call i io deletes s t
  | set {address : ℕ} {t : Server} (free : Free (s.conn i))
      (found : s.queues.lookup (s.conn i).req.queue = some address)
      (opened : s.pushOpen i address
        (((s.conn i).req.numBytes + s.chunkSize - 1) / s.chunkSize) (s.conn i).req.setSync =
          .ok t) : Call i io deletes s (t.readNextChunk i)
  | receive (data : Bytes) : Call i io deletes s (s.recv i data)
  | chunk {env : Env} {n : ℕ} (outcome : env.io = io)
      (reading : (s.conn i).pending = .readChunk n)
      (enough : n = 0 ∨ s.capacity ≤ (s.conn i).inBuf.length) :
      Call i io deletes s (s.setOnReadChunk i env)
  | drop (n : ℕ) : Call i io deletes s (s.drop i (io n))

abbrev Calls (i : ℕ) (io : Io) (deletes : Bytes → Prop) : Server → Server → Prop :=
  Relation.ReflTransGen (Call i io deletes)

/-- How an event gets to the connection that serves it. -/
inductive Begins (i : ℕ) (event : ServerEvent) (s : Server) : Server → Prop where
  | ready (away : ∀ a node, (s.conn i).pending ≠ .wait a node) : Begins i event s s
  | woken {address node : ℕ} {w : Waiter} {env : Env} (same : event = .callback address node env)
      (due : s.dueWaiter address node = some w) (cb : w.cb = i) :
      Begins i event s (s.setObject address ((s.object address).waiterWakeup node).1)

/-- How the connection is left. -/
inductive Leaves (i : ℕ) (s : Server) : Server → Prop where
  | done : Leaves i s s
  | waits {address waitMs : ℕ} (found : s.queues.lookup (s.conn i).req.queue = some address)
      (closed : (s.conn i).popStream.queue = none) (empty : (s.object address).popBegin = none)
      (free : Free (s.conn i)) :
      Leaves i s ((s.setObject address ((s.object address).wait waitMs i)).setPending i
        (.wait address (s.object address).nextNode))

inductive ServesEvent (event : ServerEvent) (s : Server) : Server → Prop where
  | nothing : ServesEvent event s s
  | accept : ServesEvent event s
      { s with conns := s.conns ++ [{}]
               stats := { s.stats with connsOpened := s.stats.connsOpened + 1 } }
  | expire (address node : ℕ) :
      ServesEvent event s (s.setObject address ((s.object address).expireTimer node))
  | calls {i : ℕ} {t u s' : Server} (who : serving s event = some i)
      (there : i < s.conns.length) (begins : Begins i event s t)
      (calls : Calls i (outcomes event) (Deletes s event) t u) (leaves : Leaves i u s') :
      ServesEvent event s s'

theorem object_setObject_field {β : Type} (field : Queue → β) {q : Queue}
    (same : field q = field (s.object address)) (a : ℕ) :
    field ((s.setObject address q).object a) = field (s.object a) := by
  rcases s.object_setObject_cases address q a with kept | ⟨rfl, set⟩
  · rw [kept]
  · rw [set, same]

def Ordered (q : Queue) : Prop :=
  q.queueHead.type = .queue ∧ q.queueTail.id ≤ q.queueHead.id

structure Works (q q' : Queue) : Prop where
  nudges : Nudges q q'
  path : q'.path = q.path
  destroyed : q'.destroyed = q.destroyed
  ordered : Ordered q → Ordered q'
  chunks : q.chunksHead.id ≤ q'.chunksHead.id

theorem Works.refl (q : Queue) : Works q q := ⟨.refl q, rfl, rfl, fun h => h, le_refl _⟩

theorem Works.trans {q q' q'' : Queue} (first : Works q q') (second : Works q' q'') :
    Works q q'' where
  nudges := first.nudges.trans second.nudges
  path := second.path.trans first.path
  destroyed := second.destroyed.trans first.destroyed
  ordered h := second.ordered (first.ordered h)
  chunks := first.chunks.trans second.chunks

theorem works_wakeUp {q q' : Queue} (nudges : Nudges q q'.wakeUp) (path : q'.path = q.path)
    (destroyed : q'.destroyed = q.destroyed)
    (ordered : Ordered q → Ordered q') (chunks : q'.chunksHead = q.chunksHead) :
    Works q q'.wakeUp := by
  obtain ⟨waiters, it, same⟩ := Queue.wakeUp_eq q'
  refine ⟨nudges, ?_, ?_, ?_, ?_⟩ <;> rw [same]
  exacts [path, destroyed, ordered, by rw [chunks]]

theorem works_popBegin {q q' : Queue} {id : ℕ} (pop : q.popBegin = some (id, q')) :
    Works q q' := by
  have nudges := nudges_popBegin pop
  rcases Queue.popBegin_some pop with ⟨-, -, rfl⟩ | ⟨-, more, -, rfl⟩
  · exact ⟨nudges, rfl, rfl, fun h => h, le_refl _⟩
  · refine ⟨nudges, rfl, rfl, fun ⟨type, h⟩ => ⟨type, ?_⟩, le_refl _⟩
    simp only [Queue.poppedTail]
    omega

theorem works_popEnd {q q' : Queue} {erase ok : Bool} {id : ℕ} {header : Header}
    (pop : q.popEnd erase id header ok = .ok q') : Works q q' := by
  have nudges := nudges_popEnd pop
  cases erase with
  | true =>
    obtain ⟨bytes, ranges, rfl⟩ := Queue.popEnd_erase pop
    exact ⟨nudges, rfl, rfl, fun h => h, le_refl _⟩
  | false =>
    rw [Queue.popEnd_return] at pop
    obtain rfl := Except.ok.inj pop
    exact works_wakeUp nudges rfl rfl (fun h => h) rfl

theorem works_pushValue {q q' : Queue} {value : Bytes} {sync ok : Bool} {id : ℕ}
    (push : q.pushValue value sync ok = .ok (id, q')) : Works q q' := by
  have nudges := nudges_pushValue push
  obtain ⟨-, rfl⟩ := Queue.pushValue_ok push
  exact works_wakeUp nudges rfl rfl (fun ⟨type, h⟩ => ⟨type, Nat.le_succ_of_le h⟩) rfl

theorem works_write (stream : OQStream) (q : Queue) (chunk : Bytes) (stray : UInt8) (io : Io) :
    Works q (stream.write q chunk stray io).2.2 := by
  rcases stream.write_cases q chunk stray io with
    ⟨-, h⟩ | ⟨-, -, ⟨e, -, h⟩ | ⟨stream', q', store, h⟩⟩
  · rw [h]
    exact .refl q
  · rw [h]
    exact .refl q
  · have stored : Works q q' := by
      rcases OQStream.store_ok store with ⟨-, id, push, -⟩ | ⟨-, put, -⟩
      · exact works_pushValue push
      · obtain rfl := Queue.put_ok put
        exact ⟨nudges_quiet rfl rfl rfl (le_refl _), rfl, rfl, fun h => h, le_refl _⟩
    rw [h]
    rcases (stream'.advance chunk.length).finish_cases q' (io 1) with
      ⟨-, h⟩ | ⟨-, -, h⟩ | ⟨-, -, ⟨e, h⟩ | ⟨id, q'', push, h⟩⟩
    · rw [h]
      exact stored
    · rw [h]
      exact stored
    · rw [h]
      exact stored
    · rw [h]
      exact stored.trans (works_pushValue push)

theorem works_oopen (stream : OQStream) (address : ℕ) (q : Queue) (count : ℕ) (sync : Bool) :
    Works q (stream.open_ address q count sync).2.2 := by
  rcases stream.open_queue address q count sync with same | reserved
  · rw [same]
    exact .refl q
  · rw [reserved]
    exact ⟨nudges_quiet rfl rfl rfl (le_refl _), rfl, rfl, fun h => h, Nat.le_add_right _ _⟩

theorem works_odestruct (stream : OQStream) (q : Queue) (ok : Bool) :
    Works q (stream.destruct q ok) := by
  rcases stream.destruct_queue q ok with same | erased
  · rw [same]
    exact .refl q
  · rw [Queue.write_ok erased]
    exact ⟨nudges_quiet rfl rfl rfl (le_refl _), rfl, rfl, fun h => h, le_refl _⟩

/-- A call that leaves the map as it is. Its connection opens streams on registered
queues only. -/
structure KeepsMap (i : ℕ) (s s' : Server) : Prop where
  queues : s'.queues = s.queues
  dataPath : s'.dataPath = s.dataPath
  chunkSize : s'.chunkSize = s.chunkSize
  objects : s'.objects.length = s.objects.length
  conns : s'.conns.length = s.conns.length
  others : ∀ j ≠ i, s'.conn j = s.conn j
  works : ∀ a, Works (s.object a) (s'.object a)
  streams : ∀ a, (s'.conn i).popStream.queue = some a ∨ (s'.conn i).pushStream.queue = some a →
    ((s.conn i).popStream.queue = some a ∨ (s.conn i).pushStream.queue = some a) ∨
      Registered s a

theorem KeepsMap.refl (i : ℕ) (s : Server) : KeepsMap i s s :=
  ⟨rfl, rfl, rfl, rfl, rfl, fun _ _ => rfl, fun _ => .refl _, fun _ h => .inl h⟩

theorem KeepsMap.trans (first : KeepsMap i s t) (second : KeepsMap i t u) : KeepsMap i s u where
  queues := second.queues.trans first.queues
  dataPath := second.dataPath.trans first.dataPath
  chunkSize := second.chunkSize.trans first.chunkSize
  objects := second.objects.trans first.objects
  conns := second.conns.trans first.conns
  others j ne := (second.others j ne).trans (first.others j ne)
  works a := (first.works a).trans (second.works a)
  streams a isOpen := by
    rcases second.streams a isOpen with before | ⟨name, found⟩
    · exact first.streams a before
    · exact .inr ⟨name, first.queues ▸ found⟩

theorem keeps_set {q : Queue} {h : Handler} (there : i < s.conns.length)
    (works : Works (s.object address) q)
    (streams : ∀ a, h.popStream.queue = some a ∨ h.pushStream.queue = some a →
      ((s.conn i).popStream.queue = some a ∨ (s.conn i).pushStream.queue = some a) ∨
        Registered s a) : KeepsMap i s ((s.setObject address q).setConn i h) where
  queues := rfl
  dataPath := rfl
  chunkSize := rfl
  objects := List.length_set
  conns := List.length_set
  others j ne := Server.conn_setConn_ne _ _ ne
  works a := by
    rw [Server.object_setConn]
    rcases s.object_setObject_cases address q a with kept | ⟨rfl, set⟩
    · rw [kept]
      exact .refl _
    · rw [set]
      exact works
  streams a := by
    rw [Server.conn_setObject_setConn address q h there]
    exact streams a

theorem keeps_setConn {h : Handler} (there : i < s.conns.length)
    (streams : ∀ a, h.popStream.queue = some a ∨ h.pushStream.queue = some a →
      ((s.conn i).popStream.queue = some a ∨ (s.conn i).pushStream.queue = some a) ∨
        Registered s a) : KeepsMap i s (s.setConn i h) := by
  have set := keeps_set there (Works.refl (s.object 0)) streams
  rwa [Server.setObject_same] at set

theorem keeps_touch {h : Handler} (there : i < s.conns.length)
    (pop : h.popStream = (s.conn i).popStream) (push : h.pushStream = (s.conn i).pushStream) :
    KeepsMap i s (s.setConn i h) :=
  keeps_setConn there fun a isOpen => .inl (by rwa [pop, push] at isOpen)

theorem keeps_stats (stats : Stats) : KeepsMap i s { s with stats := stats } :=
  ⟨rfl, rfl, rfl, rfl, rfl, fun _ _ => rfl, fun _ => .refl _, fun _ h => .inl h⟩

theorem keeps_popOpen (there : i < s.conns.length) (registered : Registered s address)
    (result : Except Error Bool) (opened : s.popOpen i address = (result, t)) : KeepsMap i s t := by
  rcases s.popOpen_cases i address with ⟨-, h⟩ | ⟨-, -, h⟩ | ⟨-, id, q, pop, h⟩
  · obtain ⟨-, rfl⟩ := Prod.mk.inj (h.symm.trans opened)
    exact .refl i s
  · obtain ⟨-, rfl⟩ := Prod.mk.inj (h.symm.trans opened)
    exact .refl i s
  · obtain ⟨-, rfl⟩ := Prod.mk.inj (h.symm.trans opened)
    refine keeps_set there (works_popBegin pop) fun a isOpen => ?_
    rcases isOpen with here | push
    · obtain rfl := Option.some.inj here
      exact .inr registered
    · exact .inl (.inr push)

theorem keeps_popRead {io : Io} {result : Except Error Bytes} (there : i < s.conns.length)
    (read : s.popRead i io = (result, t)) : KeepsMap i s t := by
  have target : t = s.setConn i { s.conn i with popStream :=
      ((s.conn i).popStream.read (s.object ((s.conn i).popStream.queue.getD 0)) io).2 } :=
    (congrArg Prod.snd read).symm
  rw [target]
  refine keeps_setConn there fun a isOpen => .inl ?_
  rwa [IQStream.queue_read] at isOpen

theorem keeps_popClose {erase ok : Bool} (there : i < s.conns.length)
    (close : s.popClose i erase ok = .ok t) : KeepsMap i s t := by
  rcases Server.popClose_ok close with ⟨-, rfl⟩ | ⟨a, q, -, pop, rfl⟩
  · exact .refl i t
  · refine keeps_set there (works_popEnd pop) fun b isOpen => .inl (.inr ?_)
    exact isOpen.resolve_left (nomatch ·)

theorem keeps_pushOpen {count : ℕ} {sync : Bool} (there : i < s.conns.length)
    (registered : Registered s address) (opened : s.pushOpen i address count sync = .ok t) :
    KeepsMap i s t := by
  obtain ⟨closed, rfl⟩ := pushOpen_ok opened
  refine keeps_set there (works_oopen _ address _ count sync) fun a isOpen => ?_
  rcases isOpen with pop | here
  · exact .inl (.inl pop)
  · rw [queue_oopen _ address _ count sync closed] at here
    obtain rfl := Option.some.inj here
    exact .inr registered

theorem keeps_pushWrite {chunk : Bytes} {stray : UInt8} {io : Io} (there : i < s.conns.length) :
    KeepsMap i s (s.pushWrite i chunk stray io).2 := by
  unfold Server.pushWrite
  split
  · exact .refl i s
  case h_2 a isOpen =>
    refine keeps_set there (works_write _ _ chunk stray io) fun b still => .inl ?_
    rcases still with pop | push
    · exact .inl pop
    · rcases queue_write (s.conn i).pushStream (s.object a) chunk stray io with same | none
      · exact .inr (same ▸ push)
      · rw [none] at push
        cases push

theorem keeps_storeChunk {chunk : Bytes} {env : Env} (there : i < s.conns.length) :
    KeepsMap i s (s.storeChunk i chunk env) := by
  have written : KeepsMap i s (s.pushWrite i chunk env.stray env.io).2 := keeps_pushWrite there
  have there' := written.conns ▸ there
  unfold Server.storeChunk
  split
  case h_1 e t result =>
    rw [result] at written there'
    exact written.trans (keeps_touch there' rfl rfl)
  case h_2 t result =>
    rw [result] at written there'
    split
    · exact (written.trans (keeps_stats _)).trans (keeps_touch there' rfl rfl)
    · exact written.trans (keeps_touch there' rfl rfl)

theorem keeps_setOnReadChunk {env : Env} (there : i < s.conns.length) :
    KeepsMap i s (s.setOnReadChunk i env) := by
  have consumed : ∀ rest chunk,
      KeepsMap i s ((s.setConn i { s.conn i with inBuf := rest }).storeChunk i chunk env) := by
    intro rest chunk
    have first : KeepsMap i s (s.setConn i { s.conn i with inBuf := rest }) := keeps_touch there rfl rfl
    exact first.trans (keeps_storeChunk (first.conns ▸ there))
  unfold Server.setOnReadChunk
  dsimp only
  split
  · split
    · exact keeps_touch there rfl rfl
    · exact consumed _ _
  · exact consumed _ _

theorem keeps_drop {ok : Bool} (there : i < s.conns.length) : KeepsMap i s (s.drop i ok) := by
  have push : KeepsMap i s (s.dropPush i ok) := by
    unfold Server.dropPush
    split
    · exact .refl i s
    · exact keeps_set there (works_odestruct _ _ ok) fun a isOpen =>
        .inl (.inl (isOpen.resolve_right (nomatch ·)))
  have there' := push.conns ▸ there
  have pop : KeepsMap i (s.dropPush i ok) ((s.dropPush i ok).dropPop i) := by
    unfold Server.dropPop
    split
    · exact .refl i _
    case h_2 a isOpen =>
      rw [IQStream.destruct_open (by rw [isOpen]; rfl)]
      refine keeps_set there' (works_popEnd (Queue.popEnd_return _ _ {} true)) fun b still => ?_
      exact .inl (.inr (still.resolve_left (nomatch ·)))
  have there'' := pop.conns ▸ there'
  refine ((push.trans pop).trans (keeps_setConn there'' fun a isOpen => ?_)).trans (keeps_stats _)
  rcases isOpen with wrong | wrong <;> cases wrong

theorem recv_cases (s : Server) (i : ℕ) (data : Bytes) :
    s.recv i data = s ∨ (s.conn i).inBuf.length + data.length ≤ s.capacity ∧
      (((s.conn i).pending = .readUntil ∧ Server.lineLength (s.conn i).inBuf = none ∧
        s.recv i data = s.setConn i { s.conn i with inBuf := (s.conn i).inBuf ++ data }) ∨
      ∃ n, 0 < n ∧ (s.conn i).pending = .readChunk n ∧
        s.recv i data = s.setConn i { s.conn i with
          inBuf := (s.conn i).inBuf ++ data, pending := .readChunk (n - data.length) }) := by
  unfold Server.recv
  dsimp only
  split
  case isFalse => exact .inl rfl
  case isTrue room =>
    split
    case h_1 reading =>
      split
      case isTrue noLine => exact .inr ⟨room, .inl ⟨reading, noLine, rfl⟩⟩
      case isFalse => exact .inl rfl
    case h_2 n reading =>
      split
      case isTrue needs => exact .inr ⟨room, .inr ⟨n, needs, reading, rfl⟩⟩
      case isFalse => exact .inl rfl
    case h_3 => exact .inl rfl

theorem keeps_recv {data : Bytes} : KeepsMap i s (s.recv i data) := by
  rcases recv_cases s i data with same | ⟨-, ⟨reading, -, same⟩ | ⟨n, -, reading, same⟩⟩
  · rw [same]
    exact .refl i s
  · rw [same]
    exact keeps_touch (Server.conn_there (by simp [reading])) rfl rfl
  · rw [same]
    exact keeps_touch (Server.conn_there (by simp [reading])) rfl rfl

theorem Call.cases (there : i < s.conns.length) (call : Call i io deletes s s') :
    (∃ name, s.queues.lookup name = none ∧ s.pathOf name ∉ s.paths ∧ s' = s.withQueue name) ∨
    (∃ name address, deletes name ∧ s.queues.lookup name = some address ∧
      s' = s.withoutQueue name address) ∨ KeepsMap i s s' := by
  cases call with
  | touch pop push => exact .inr (.inr (keeps_touch there pop push))
  | count stats => exact .inr (.inr (keeps_stats stats))
  | make absent unused => exact .inl ⟨_, absent, unused, rfl⟩
  | delete free asked found => exact .inr (.inl ⟨_, _, asked, found, rfl⟩)
  | fetch free found opened read =>
    have first := keeps_popOpen there ⟨_, found⟩ _ opened
    exact .inr (.inr (first.trans (keeps_popRead (first.conns ▸ there) read)))
  | fetchFailed free found opened read =>
    have first := keeps_popOpen there ⟨_, found⟩ _ opened
    have both := first.trans (keeps_popRead (first.conns ▸ there) read)
    exact .inr (.inr (both.trans (keeps_touch (both.conns ▸ there) rfl rfl)))
  | read io' free => exact .inr (.inr (keeps_popRead there rfl))
  | close n free closed => exact .inr (.inr (keeps_popClose there closed))
  | set free found opened =>
    have first := keeps_pushOpen there ⟨_, found⟩ opened
    exact .inr (.inr (first.trans (keeps_touch (first.conns ▸ there) rfl rfl)))
  | receive data => exact .inr (.inr keeps_recv)
  | chunk outcome reading enough => exact .inr (.inr (keeps_setOnReadChunk there))
  | drop n => exact .inr (.inr (keeps_drop there))

theorem Call.conns (there : i < s.conns.length) (call : Call i io deletes s s') :
    s'.conns.length = s.conns.length := by
  rcases call.cases there with ⟨name, -, -, rfl⟩ | ⟨name, a, -, -, rfl⟩ | keeps
  · rfl
  · rfl
  · exact keeps.conns

theorem Call.others (there : i < s.conns.length) (call : Call i io deletes s s') {j : ℕ}
    (ne : j ≠ i) : s'.conn j = s.conn j := by
  rcases call.cases there with ⟨name, -, -, rfl⟩ | ⟨name, a, -, -, rfl⟩ | keeps
  · rfl
  · rfl
  · exact keeps.others j ne

theorem Call.lookup {name : Bytes} {a : ℕ} (there : i < s.conns.length)
    (call : Call i io deletes s s') (found : s.queues.lookup name = some a)
    (kept : ¬deletes name) : s'.queues.lookup name = some a := by
  rcases call.cases there with ⟨other, absent, -, rfl⟩ | ⟨other, b, asked, -, rfl⟩ | keeps
  · exact Server.lookup_withQueue_old absent found
  · have ne : name ≠ other := by
      rintro rfl
      exact kept asked
    exact (Finmap.lookup_erase_ne ne).trans found
  · rw [keeps.queues]
    exact found

theorem call_named (s s' : Server) (there : i < s.conns.length) (named : Named s)
    (call : Call i io deletes s s') : Named s' := by
  rcases call.cases there with ⟨name, -, -, rfl⟩ | ⟨name, a, -, -, rfl⟩ | keeps
  · exact (calm_withQueue i s name).named named
  · intro other b found
    exact lt_of_lt_of_eq (named other b (Server.lookup_erase found)) List.length_set.symm
  · intro other b found
    rw [keeps.objects]
    exact named other b (keeps.queues ▸ found)

theorem Call.chunkSize (there : i < s.conns.length) (call : Call i io deletes s s') :
    s'.chunkSize = s.chunkSize := by
  rcases call.cases there with ⟨name, -, -, rfl⟩ | ⟨name, a, -, -, rfl⟩ | keeps
  · rfl
  · rfl
  · exact keeps.chunkSize

theorem Call.chunksHead (there : i < s.conns.length)
    (call : Call i io deletes s s') (a : ℕ) :
    (s.object a).chunksHead.id ≤ (s'.object a).chunksHead.id := by
  rcases call.cases there with ⟨name, -, -, rfl⟩ | ⟨name, b, -, -, rfl⟩ | keeps
  · by_cases new : a = s.objects.length
    · rw [new, Server.object_beyond (le_refl _)]
      exact Nat.zero_le _
    · rw [Server.object_withQueue_ne s name new]
  · refine le_of_eq (object_setObject_field (fun q => q.chunksHead.id) ?_ a).symm
    rw [(unseen_destroy (s.object b) s.paths).chunks]
  · exact (keeps.works a).chunks

structure Sited (s : Server) : Prop where
  named : Named s
  held : ∀ j a, (s.conn j).popStream.queue = some a ∨ (s.conn j).pushStream.queue = some a →
    a < s.objects.length

theorem Sited.congr (sited : Sited s) (queues : s'.queues = s.queues)
    (objects : s'.objects.length = s.objects.length)
    (streams : ∀ j a, (s'.conn j).popStream.queue = some a ∨ (s'.conn j).pushStream.queue = some a →
      (s.conn j).popStream.queue = some a ∨ (s.conn j).pushStream.queue = some a) : Sited s' where
  named name a found := by
    rw [objects]
    exact sited.named name a (queues ▸ found)
  held j a isOpen := by
    rw [objects]
    exact sited.held j a (streams j a isOpen)

theorem call_sited (s s' : Server) (there : i < s.conns.length) (sited : Sited s)
    (call : Call i io deletes s s') : Sited s' := by
  refine ⟨call_named s s' there sited.named call, ?_⟩
  rcases call.cases there with ⟨name, -, -, rfl⟩ | ⟨name, a, -, -, rfl⟩ | keeps
  · intro j b isOpen
    rw [Server.withQueue, List.length_append]
    exact Nat.lt_add_right _ (sited.held j b isOpen)
  · exact fun j b isOpen => lt_of_lt_of_eq (sited.held j b isOpen) List.length_set.symm
  · intro j b isOpen
    rw [keeps.objects]
    by_cases same : j = i
    · subst same
      rcases keeps.streams b isOpen with before | ⟨name, found⟩
      · exact sited.held j b before
      · exact sited.named name b found
    · rw [keeps.others j same] at isOpen
      exact sited.held j b isOpen

theorem Begins.conns {event : ServerEvent} (begins : Begins i event s t) : t.conns = s.conns := by
  cases begins with
  | ready => rfl
  | woken => rfl

theorem Begins.named {event : ServerEvent} (begins : Begins i event s t) (named : Named s) :
    Named t := by
  cases begins with
  | ready => exact named
  | woken => exact fun name b found => lt_of_lt_of_eq (named name b found) List.length_set.symm

theorem Begins.sited {event : ServerEvent} (begins : Begins i event s t) (sited : Sited s) :
    Sited t := by
  cases begins with
  | ready => exact sited
  | woken => exact sited.congr rfl List.length_set fun _ _ h => h

/-- The invariant rule for the calls of one event. -/
theorem Calls.invariant {P : Server → Prop}
    (keep : ∀ t t', i < t.conns.length → P t → Call i io deletes t t' → P t')
    (calls : Calls i io deletes s s') (there : i < s.conns.length) (start : P s) :
    i < s'.conns.length ∧ P s' := by
  induction calls with
  | refl => exact ⟨there, start⟩
  | tail _ last ih => exact ⟨(last.conns ih.1).symm ▸ ih.1, keep _ _ ih.1 ih.2 last⟩

/-! The handler functions. -/

theorem free_pending {h h' : Handler} (same : h'.pending = h.pending) (free : Free h) :
    Free h' := by
  rw [Free, same]
  exact free

theorem calls_reply {text : Bytes} {next : Next} (free : Free (s.conn i)) :
    Calls i io deletes s (s.reply i text next) :=
  .single (.touch rfl rfl free ⟨fun _ => nofun, fun _ _ => nofun⟩ nofun (.inl rfl))

theorem calls_countReply {stats : Stats} {text : Bytes} {next : Next}
    (free : Free (s.conn i)) :
    Calls i io deletes s ({ s with stats := stats }.reply i text next) := by
  have free' : Free (({ s with stats := stats } : Server).conn i) := free
  exact (Relation.ReflTransGen.single (.count stats)).trans (calls_reply free')

theorem pending_popClose {erase ok : Bool} (there : i < s.conns.length)
    (close : s.popClose i erase ok = .ok t) :
    i < t.conns.length ∧ (t.conn i).pending = (s.conn i).pending ∧
      (t.conn i).req = (s.conn i).req := by
  obtain ⟨there', stream, conn⟩ := conn_popClose there close
  exact ⟨there', by rw [conn], by rw [conn]⟩

theorem calls_getFinish {text : Bytes} {n m : ℕ} (there : i < s.conns.length)
    (free : Free (s.conn i)) :
    Calls i io deletes s (s.getFinish i text (io n) (io m)) := by
  unfold Server.getFinish
  split
  · exact calls_countReply free
  · split
    · exact .single (.drop m)
    case h_2 t closed =>
      have free' := free_pending (pending_popClose there closed).2.1 free
      exact (Relation.ReflTransGen.single (.close n free closed)).trans (calls_countReply free')

theorem calls_getOnWriteChunk {env : Env} (there : i < s.conns.length)
    (free : Free (s.conn i)) :
    Calls i env.io deletes s (s.getOnWriteChunk i env) := by
  have first : Call i env.io deletes s (s.popRead i fun n => env.io (n + 1)).2 := .read _ free
  have conn := conn_popRead there fun n => env.io (n + 1)
  unfold Server.getOnWriteChunk
  dsimp only
  split
  · exact calls_getFinish there free
  · split
    case h_1 e t result =>
      rw [result] at first
      exact (Relation.ReflTransGen.single first).tail (.drop 4)
    case h_2 buf t result =>
      rw [result] at first conn
      obtain ⟨-, stream, conn⟩ := conn
      have conn : t.conn i = { s.conn i with popStream := stream } := conn
      have free' : Free (t.conn i) := free_pending (by rw [conn]) free
      exact (Relation.ReflTransGen.single first).trans (calls_reply free')

theorem conn_popOpen {result : Except Error Bool} (there : i < s.conns.length)
    (opened : s.popOpen i address = (result, t)) :
    i < t.conns.length ∧ ∃ stream, t.conn i = { s.conn i with popStream := stream } := by
  have same := Server.conn_setObject_setConn (s := s) address
    ((s.conn i).popStream.open_ address (s.object address)).2.2
    { s.conn i with
      popStream := ((s.conn i).popStream.open_ address (s.object address)).2.1 } there
  have length : (s.popOpen i address).2.conns.length = s.conns.length := List.length_set
  have target := congrArg Prod.snd opened
  rw [target] at length
  exact ⟨lt_of_lt_of_eq there length.symm, _, (congrArg (Server.conn · i) target).symm.trans same⟩

theorem conn_fetch {result : Except Error Bool} {read' : Except Error Bytes} {io' : Io}
    (there : i < s.conns.length) (opened : s.popOpen i address = (result, t))
    (read : t.popRead i io' = (read', u)) :
    i < u.conns.length ∧ ∃ stream, u.conn i = { s.conn i with popStream := stream } := by
  obtain ⟨there', stream, conn⟩ := conn_popOpen there opened
  obtain ⟨there'', stream', conn'⟩ := conn_popRead there' io'
  rw [read] at there'' conn'
  have conn' : u.conn i = { t.conn i with popStream := stream' } := conn'
  exact ⟨there'', stream', by rw [conn', conn]⟩

theorem calls_getRead {env : Env} (there : i < s.conns.length) (free : Free (s.conn i))
    (found : s.queues.lookup (s.conn i).req.queue = some address)
    (opened : s.popOpen i address = (.ok true, t)) :
    Calls i env.io deletes s (t.getRead i env) := by
  obtain ⟨there', stream, conn'⟩ := conn_popOpen there opened
  have conn := conn_popRead there' fun n => env.io (n + 1)
  unfold Server.getRead
  split
  case h_1 e u read => exact .single (.fetchFailed free found opened read)
  case h_2 buf u read =>
    have first : Call i env.io deletes s u := .fetch free found opened read
    rw [read] at conn
    obtain ⟨there'', stream', conn⟩ := conn
    have conn : u.conn i = { t.conn i with popStream := stream' } := conn
    have free' : Free (u.conn i) := free_pending (by rw [conn, conn']) free
    refine (Relation.ReflTransGen.single first).trans ?_
    dsimp only
    split
    · exact calls_getFinish there'' free'
    · exact calls_reply free'

theorem newQueue_unused {name : Bytes} {pair : ℕ × Server} (h : s.newQueue name = .ok pair) :
    s.pathOf name ∉ s.paths := by
  unfold Server.newQueue at h
  split at h
  · cases h
  case isFalse unused => simpa using unused

theorem queueAt_registers {name : Bytes} (found : s.queueAt name = .ok (address, t)) :
    t.queues.lookup name = some address ∧ t.conns = s.conns := by
  rcases Server.queueAt_ok found with ⟨there, rfl⟩ | ⟨-, rfl, rfl⟩
  · exact ⟨there, rfl⟩
  · exact ⟨by rw [Server.lookup_withQueue, if_pos rfl], rfl⟩

theorem calls_queueAt {name : Bytes} (found : s.queueAt name = .ok (address, t)) :
    Calls i io deletes s t ∧ t.queues.lookup name = some address ∧ t.conns = s.conns := by
  refine ⟨?_, queueAt_registers found⟩
  rcases Server.queueAt_ok found with ⟨-, rfl⟩ | ⟨absent, rfl, rfl⟩
  · exact .refl
  · refine .single (.make absent ?_)
    rw [Server.queueAt, absent] at found
    exact newQueue_unused found

theorem calls_eraseQueue {name : Bytes} {recreate : Bool} (free : Free (s.conn i)) (asked : deletes name)
    (erase : s.eraseQueue name recreate = .ok t) :
    Calls i io deletes s t ∧ t.conns = s.conns := by
  unfold Server.eraseQueue at erase
  split at erase
  · rw [← Except.ok.inj erase]
    exact ⟨.refl, rfl⟩
  case h_2 a found =>
    have first : Call i io deletes s (s.withoutQueue name a) := .delete free asked found
    dsimp only at erase
    split at erase
    · change ((s.withoutQueue name a).newQueue name).map Prod.snd = .ok t at erase
      cases new : (s.withoutQueue name a).newQueue name with
      | error fault =>
        rw [new] at erase
        cases erase
      | ok pair =>
        rw [new] at erase
        have made := (Server.newQueue_ok new).2
        have absent : (s.withoutQueue name a).queues.lookup name = none :=
          Finmap.lookup_erase _ _
        have second : Call i io deletes (s.withoutQueue name a) pair.2 := by
          rw [made]
          exact .make absent (newQueue_unused new)
        rw [← Except.ok.inj erase]
        refine ⟨(Relation.ReflTransGen.single first).tail second, ?_⟩
        rw [made]
        rfl
    · rw [← Except.ok.inj erase]
      exact ⟨.single first, rfl⟩

def Follow (i : ℕ) (io : Io) (deletes : Bytes → Prop) (s s' : Server) : Prop :=
  ∃ t, Calls i io deletes s t ∧ Leaves i t s'

theorem follow_calls (calls : Calls i io deletes s s') : Follow i io deletes s s' :=
  ⟨s', calls, .done⟩

theorem Follow.after (follow : Follow i io deletes t s') (first : Calls i io deletes s t) :
    Follow i io deletes s s' := by
  obtain ⟨u, calls, leaves⟩ := follow
  exact ⟨u, first.trans calls, leaves⟩

theorem follow_getPop {env : Env} (there : i < s.conns.length) (free : Free (s.conn i))
    (run : s.getPop i env = .ok s') : Follow i env.io deletes s s' := by
  rcases Server.getPop_ok run with ⟨msg, rfl⟩ | ⟨-, a, t, found, next⟩
  · exact follow_calls (calls_reply free)
  obtain ⟨first, registered, conns⟩ :
    Calls i env.io deletes s t ∧ _ := calls_queueAt found
  have same : t.conn i = s.conn i := Server.conn_congr conns i
  rw [← same] at registered free
  refine Follow.after ?_ first
  rcases t.popOpen_cases i a with ⟨-, result⟩ | ⟨closed, none, result⟩ | ⟨-, id, q, -, result⟩
  · rw [result] at next
    rcases next with ⟨wrong, -⟩ | ⟨wrong, -⟩ <;> cases wrong
  · rw [result] at next
    rcases next with ⟨wrong, -⟩ | ⟨-, ⟨msg, rfl⟩ | ⟨waitMs, rfl⟩⟩
    · cases wrong
    · exact follow_calls (calls_reply free)
    · exact ⟨t, .refl, .waits registered closed none free⟩
  · rw [result] at next
    rcases next with ⟨-, rfl⟩ | ⟨wrong, -⟩
    · exact follow_calls (calls_getRead (conns ▸ there) free registered result)
    · cases wrong

theorem follow_get {env : Env} (there : i < s.conns.length) (free : Free (s.conn i))
    (run : s.get i env = .ok s') : Follow i env.io deletes s s' := by
  unfold Server.get at run
  dsimp only at run
  split at run
  · rw [← Except.ok.inj run]
    exact follow_calls (calls_reply free)
  split at run
  · rw [← Except.ok.inj run]
    exact follow_calls (calls_reply free)
  split at run
  · split at run
    · rw [← Except.ok.inj run]
      exact follow_calls (calls_reply free)
    case h_2 t closed =>
      obtain ⟨there', pending, -⟩ := pending_popClose there closed
      refine (follow_getPop there' (free_pending pending free) run).after ?_
      exact .single (.close 0 free closed)
  · split at run
    · rw [← Except.ok.inj run]
      exact follow_calls (calls_reply free)
    · exact follow_getPop there free run

theorem calls_set (free : Free (s.conn i)) (run : s.set i = .ok s') : Calls i io deletes s s' := by
  obtain ⟨a, t, u, found, opened, rfl⟩ := Server.set_ok run
  obtain ⟨first, registered, conns⟩ : Calls i io deletes s t ∧ _ := calls_queueAt found
  have same : t.conn i = s.conn i := Server.conn_congr conns i
  rw [← same] at registered opened free
  exact first.tail (.set free registered opened)

theorem follow_dispatch {env : Env} (there : i < s.conns.length) (free : Free (s.conn i))
    (asked : (s.conn i).req.type = .destroy ∨ (s.conn i).req.type = .flush →
      deletes (s.conn i).req.queue)
    (run : s.dispatch i env = .ok s') : Follow i env.io deletes s s' := by
  have erased : ∀ {recreate msg t}, deletes (s.conn i).req.queue →
      s.eraseQueue (s.conn i).req.queue recreate = .ok t →
      Follow i env.io deletes s (t.end_ i msg) := by
    intro recreate msg t asked erase
    obtain ⟨first, conns⟩ : Calls i env.io deletes s t ∧ _ := calls_eraseQueue free asked erase
    have same : t.conn i = s.conn i := Server.conn_congr conns i
    rw [← same] at free
    exact (follow_calls (calls_reply free)).after first
  unfold Server.dispatch at run
  split at run
  case h_1 =>
    rw [← Except.ok.inj run]
    exact follow_calls (.single (.drop 4))
  case h_2 =>
    rw [← Except.ok.inj run]
    exact follow_calls (calls_reply free)
  case h_3 =>
    rw [← Except.ok.inj run]
    exact follow_calls (calls_reply free)
  case h_4 type =>
    obtain ⟨t, erase, rfl⟩ := Server.destroy_ok run
    exact erased (asked (.inl type)) erase
  case h_5 type =>
    obtain ⟨t, erase, rfl⟩ := Server.flush_ok run
    exact erased (asked (.inr type)) erase
  case h_6 =>
    unfold Server.flushAll at run
    split at run
    · rw [← Except.ok.inj run]
      exact follow_calls (calls_reply free)
    · cases run
  case h_7 =>
    have counted : Call i env.io deletes s s.countSet := .count _
    have free' : Free (s.countSet.conn i) := free
    exact follow_calls ((Relation.ReflTransGen.single counted).trans (calls_set free' run))
  case h_8 =>
    have counted : Call i env.io deletes s s.countGet := .count _
    have there' : i < s.countGet.conns.length := there
    have free' : Free (s.countGet.conn i) := free
    exact (follow_get there' free' run).after (.single counted)

/-! The events. -/

theorem serves_readDone {env : Env} (run : s.readDone i env = .ok s') :
    ServesEvent (.readDone i env) s s' := by
  unfold Server.readDone at run
  dsimp only at run
  split at run
  case h_1 reading =>
    have there : i < s.conns.length := Server.conn_there (by simp [reading])
    have begins : Begins i (.readDone i env) s s := .ready (by simp [reading])
    have free : Free (s.conn i) := by simp [Free, reading]
    split at run
    case h_1 n line =>
      unfold Server.parseRequest at run
      dsimp only at run
      split at run
      case h_1 =>
        rw [← Except.ok.inj run]
        exact .calls rfl there begins (calls_reply free) .done
      case h_2 req parse =>
        have conn := Server.conn_setConn_self { s.conn i with
          req := req, inBuf := (s.conn i).inBuf.drop n } there
        have length : (s.setConn i { s.conn i with
          req := req, inBuf := (s.conn i).inBuf.drop n }).conns.length = s.conns.length :=
          List.length_set
        have first : Call i env.io (Deletes s (.readDone i env)) s (s.setConn i { s.conn i with
            req := req, inBuf := (s.conn i).inBuf.drop n }) := by
          refine .touch rfl rfl free ⟨fun m => ?_, fun a node => ?_⟩ ?_
            (.inr (Request.numBytes_parse parse)) <;> simp [reading]
        generalize s.setConn i { s.conn i with
          req := req, inBuf := (s.conn i).inBuf.drop n } = t at run conn length first
        have follow : Follow i env.io (Deletes s (.readDone i env)) t s' := by
          refine follow_dispatch (length ▸ there) ?_ ?_ run
          · rw [conn]
            exact free_pending rfl free
          · rw [conn]
            intro type
            have read : parsed s i (.readDone i env) = some req := by
              simp [parsed, reading, line, parse]
            rw [Deletes, deleted, read, Option.bind_some, if_pos type]
        obtain ⟨u, calls, leaves⟩ := follow.after (.single first)
        exact .calls rfl there begins calls leaves
    case h_2 =>
      rw [← Except.ok.inj run]
      split
      · exact .calls rfl there begins (.single (.drop 4)) .done
      · exact .nothing
  case h_2 n reading =>
    have there : i < s.conns.length := Server.conn_there (by simp [reading])
    rw [← Except.ok.inj run]
    split
    case isTrue enough =>
      exact .calls rfl there (.ready (by simp [reading])) (.single (.chunk rfl reading enough)) .done
    case isFalse => exact .nothing
  case h_3 =>
    rw [← Except.ok.inj run]
    exact .nothing

theorem serves_drop {event : ServerEvent} (n : ℕ) (who : serving s event = some i) (open_ : (s.conn i).pending ≠ .closed)
    (away : ∀ a node, (s.conn i).pending ≠ .wait a node) :
    ServesEvent event s (s.drop i (outcomes event n)) :=
  .calls who (Server.conn_there open_) (.ready away) (.single (.drop n)) .done

theorem serves_readFailed {env : Env} : ServesEvent (.readFailed i env) s (s.readFailed i env) := by
  unfold Server.readFailed
  dsimp only
  split
  case h_1 reading =>
    split
    · exact serves_drop 4 rfl (by simp [reading]) (by simp [reading])
    · exact .nothing
  case h_2 n reading =>
    split
    · exact serves_drop 4 rfl (by simp [reading]) (by simp [reading])
    · exact .nothing
  case h_3 => exact .nothing

theorem serves_writeDone {env : Env} : ServesEvent (.writeDone i env) s (s.writeDone i env) := by
  unfold Server.writeDone
  split
  case h_1 text writing =>
    have free : Free (s.conn i) := by simp [Free, writing]
    have touched : Call i (outcomes (.writeDone i env)) (Deletes s (.writeDone i env)) s
        (s.setPending i .readUntil) :=
      .touch rfl rfl free ⟨fun _ => nofun, fun _ _ => nofun⟩ nofun (.inl rfl)
    exact .calls rfl (Server.conn_there (by simp [writing])) (.ready (by simp [writing]))
      (.single touched) .done
  case h_2 text writing =>
    have there : i < s.conns.length := Server.conn_there (by simp [writing])
    have free : Free (s.conn i) := by simp [Free, writing]
    exact .calls rfl there (.ready (by simp [writing])) (calls_getOnWriteChunk there free) .done
  case h_3 text writing => exact serves_drop 4 rfl (by simp [writing]) (by simp [writing])
  case h_4 => exact .nothing

theorem serves_writeFailed {env : Env} :
    ServesEvent (.writeFailed i env) s (s.writeFailed i env) := by
  unfold Server.writeFailed
  split
  case h_1 writing => exact serves_drop 4 rfl (by simp [writing]) (by simp [writing])
  case h_2 => exact .nothing

theorem serves_recv {data : Bytes} : ServesEvent (.recv i data) s (s.recv i data) := by
  rcases recv_cases s i data with same | ⟨-, ⟨reading, -⟩ | ⟨n, -, reading, -⟩⟩
  · rw [same]
    exact .nothing
  · exact .calls rfl (Server.conn_there (by simp [reading])) (.ready (by simp [reading]))
      (.single (.receive data)) .done
  · exact .calls rfl (Server.conn_there (by simp [reading])) (.ready (by simp [reading]))
      (.single (.receive data)) .done

theorem serves_callback {node : ℕ} {env : Env} (awake : Awake none s)
    (run : s.callback address node env = .ok s') : ServesEvent (.callback address node env) s s' := by
  unfold Server.callback at run
  split at run
  · rw [← Except.ok.inj run]
    exact .nothing
  case h_2 w due =>
    obtain ⟨mem, -⟩ := dueWaiter_mem due
    obtain ⟨-, waits⟩ := awake.waits address w mem
    have there : w.cb < s.conns.length := Server.conn_there (by simp [waits.pending])
    have who : serving s (.callback address node env) = some w.cb := by simp [serving, due]
    have begins : Begins w.cb (.callback address node env) s
      (s.setObject address ((s.object address).waiterWakeup node).1) := .woken rfl due rfl
    have free : Free ((s.setObject address ((s.object address).waiterWakeup node).1).conn w.cb) :=
      free_pending rfl (by simp [Free, waits.pending] : Free (s.conn w.cb))
    dsimp only at run
    split at run
    case isTrue =>
      have there' : w.cb <
        (s.setObject address ((s.object address).waiterWakeup node).1).conns.length := there
      obtain ⟨t, calls, leaves⟩ : Follow w.cb env.io (Deletes s (.callback address node env)) _ s' :=
        follow_get there' free run
      exact .calls who there begins calls leaves
    case isFalse =>
      rw [← Except.ok.inj run]
      exact .calls who there begins (calls_reply free) .done

theorem step_serves {event : ServerEvent} (awake : Awake none s) (run : s.Step event s') :
    ServesEvent event s s' := by
  cases event with
  | accept =>
    rw [← Except.ok.inj run]
    exact .accept
  | recv i data =>
    rw [← Except.ok.inj run]
    exact serves_recv
  | readDone i env => exact serves_readDone run
  | readFailed i env =>
    rw [← Except.ok.inj run]
    exact serves_readFailed
  | writeDone i env =>
    rw [← Except.ok.inj run]
    exact serves_writeDone
  | writeFailed i env =>
    rw [← Except.ok.inj run]
    exact serves_writeFailed
  | expire address node =>
    rw [← Except.ok.inj run]
    exact .expire address node
  | callback address node env => exact serves_callback awake run

theorem conn_accept (s : Server) (stats : Stats) (j : ℕ) :
    ({ s with conns := s.conns ++ [{}], stats := stats } : Server).conn j = s.conn j ∨
    ({ s with conns := s.conns ++ [{}], stats := stats } : Server).conn j = {} := by
  rcases Nat.lt_trichotomy j s.conns.length with old | new | beyond
  · have row : (s.conns ++ [({} : Handler)])[j]? = s.conns[j]? := List.getElem?_append_left old
    exact .inl (congrArg (·.getD { pending := .closed }) row)
  · exact .inr (by simp [Server.conn, new])
  · left
    rw [Server.conn_beyond (Nat.le_of_lt beyond)]
    exact Server.conn_beyond (by simpa using beyond)

theorem conn_waits {a waitMs : ℕ} (there : i < s.conns.length) (j : ℕ) :
    ((s.setObject a ((s.object a).wait waitMs i)).setPending i
      (.wait a (s.object a).nextNode)).conn j =
    if j = i then { s.conn i with pending := .wait a (s.object a).nextNode } else s.conn j := by
  split
  case isTrue same =>
    subst same
    exact Server.conn_setObject_setConn a ((s.object a).wait waitMs j) _ there
  case isFalse ne => exact Server.conn_setConn_ne _ _ ne

theorem sited_started (started : s.Started) : Sited s := by
  refine ⟨started.registered, fun j a isOpen => ?_⟩
  rw [started.closed j] at isOpen
  rcases isOpen with wrong | wrong <;> cases wrong

theorem Leaves.sited (there : i < s.conns.length) (leaves : Leaves i s s') (sited : Sited s) :
    Sited s' := by
  cases leaves with
  | done => exact sited
  | waits found closed empty =>
    refine sited.congr rfl List.length_set fun j b => ?_
    rw [conn_waits there]
    split
    case isTrue same =>
      subst same
      exact id
    case isFalse => exact id

theorem step_sited {event : ServerEvent} (awake : Awake none s) (sited : Sited s)
    (run : s.Step event s') : Sited s' := by
  cases step_serves awake run with
  | nothing => exact sited
  | accept =>
    refine sited.congr rfl rfl fun j a isOpen => ?_
    rcases conn_accept s _ j with same | new
    · rwa [same] at isOpen
    · rw [new] at isOpen
      rcases isOpen with wrong | wrong <;> cases wrong
  | expire a node => exact sited.congr rfl List.length_set fun _ _ h => h
  | calls who there begins calls leaves =>
    obtain ⟨there', sited'⟩ := calls.invariant call_sited (begins.conns ▸ there) (begins.sited sited)
    exact leaves.sited there' sited'

theorem Leaves.others (leaves : Leaves i s s') {j : ℕ} (ne : j ≠ i) : s'.conn j = s.conn j := by
  cases leaves with
  | done => rfl
  | waits found closed empty => exact Server.conn_setConn_ne _ _ ne

theorem step_others {event : ServerEvent} {j : ℕ} (awake : Awake none s) (run : s.Step event s')
    (there : j < s.conns.length) (ne : serving s event ≠ some j) : s'.conn j = s.conn j := by
  cases step_serves awake run with
  | nothing => rfl
  | accept =>
    have row : (s.conns ++ [({} : Handler)])[j]? = s.conns[j]? := List.getElem?_append_left there
    exact congrArg (·.getD { pending := .closed }) row
  | expire a node => rfl
  | @calls i t u _ who there' begins calls leaves =>
    have ne : j ≠ i := by
      rintro rfl
      exact ne who
    have start : t.conn j = s.conn j := Server.conn_congr begins.conns j
    have kept := calls.invariant (P := fun t => t.conn j = s.conn j)
      (fun t t' there same call => (call.others there ne).trans same) (begins.conns ▸ there') start
    exact (leaves.others ne).trans kept.2

theorem step_chunkSize {event : ServerEvent} (awake : Awake none s) (run : s.Step event s') :
    s'.chunkSize = s.chunkSize := by
  cases step_serves awake run with
  | nothing => rfl
  | accept => rfl
  | expire a node => rfl
  | @calls i t u _ who there begins calls leaves =>
    have start : t.chunkSize = s.chunkSize := by cases begins <;> rfl
    have kept := (calls.invariant (P := fun t => t.chunkSize = s.chunkSize)
      (fun t t' there same call => (call.chunkSize there).trans same)
      (begins.conns ▸ there) start).2
    cases leaves with
    | done => exact kept
    | waits => exact kept

theorem step_conns {event : ServerEvent} (awake : Awake none s) (run : s.Step event s') :
    s'.conns.length = s.conns.length ∨
    s'.conns.length = s.conns.length + 1 ∧ s'.conn s.conns.length = {} := by
  cases step_serves awake run with
  | nothing => exact .inl rfl
  | accept => exact .inr ⟨List.length_append, by simp [Server.conn]⟩
  | expire a node => exact .inl rfl
  | @calls i t u _ who there begins calls leaves =>
    have kept := (calls.invariant (P := fun t => t.conns.length = s.conns.length)
      (fun t t' there same call => (call.conns there).trans same)
      (begins.conns ▸ there) (congrArg List.length begins.conns)).2
    cases leaves with
    | done => exact .inl kept
    | waits => exact .inl (List.length_set.trans kept)

structure OldNames (first : Server) (a : ℕ) (s : Server) : Prop where
  made : a < s.objects.length
  names : ∀ name, s.queues.lookup name = some a → first.queues.lookup name = some a

theorem call_oldNames {first : Server} {a : ℕ} (s s' : Server) (there : i < s.conns.length)
    (h : OldNames first a s) (call : Call i io deletes s s') : OldNames first a s' := by
  rcases call.cases there with ⟨new, -, -, rfl⟩ | ⟨gone, b, -, -, rfl⟩ | keeps
  · refine ⟨?_, fun other found => ?_⟩
    · rw [Server.withQueue, List.length_append]
      exact Nat.lt_add_right _ h.made
    · rw [Server.lookup_withQueue] at found
      split at found
      · have made := h.made
        have same := Option.some.inj found
        omega
      · exact h.names other found
  · exact ⟨lt_of_lt_of_eq h.made List.length_set.symm,
      fun other found => h.names other (Server.lookup_erase found)⟩
  · exact ⟨keeps.objects ▸ h.made, fun other found => h.names other (keeps.queues ▸ found)⟩

theorem step_oldNames {event : ServerEvent} {a : ℕ} (awake : Awake none s)
    (made : a < s.objects.length) (run : s.Step event s') : OldNames s a s' := by
  have start : OldNames s a s := ⟨made, fun _ found => found⟩
  cases step_serves awake run with
  | nothing => exact start
  | accept => exact ⟨made, start.names⟩
  | expire b node => exact ⟨lt_of_lt_of_eq made List.length_set.symm, start.names⟩
  | @calls i t u _ who there begins calls leaves =>
    have begun : OldNames s a t := by
      cases begins with
      | ready => exact start
      | woken => exact ⟨lt_of_lt_of_eq made List.length_set.symm, start.names⟩
    have stop := (calls.invariant call_oldNames (begins.conns ▸ there) begun).2
    cases leaves with
    | done => exact stop
    | waits => exact ⟨lt_of_lt_of_eq stop.made List.length_set.symm, stop.names⟩

end Darner.ServerCalls
