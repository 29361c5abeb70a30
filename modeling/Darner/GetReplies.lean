import Darner.ItemCodec
import Darner.SetBodies

/-! What a `get` writes to its client. An item that a completed `set` has stored stays as
it was written while the queue or a stream has it, so a `get` that pops it reads the chunks
of the `set`, in their order: in one buffer, or one chunk for each call of
`get_on_write_chunk`. The totals that the loop compares agree with the chunks that the
stream counts, and the loop ends at the end of the item. -/

namespace Darner.GetReplies
open OrderedStore LabelledRuns StreamMoves QueuePartition QueueRecovery ChunkLayout CrashConsistency
open StoredItems ReadProgress ServerMoves ServerWaiters FetchDeeds FetchEvents ReliableFetch
open ServerCalls SetProgress ChunkStore ChunkedItems ItemCodec SetBodies

variable {s s' t u : Server} {i j address id : ℕ} {env : Env} {writes : List Bytes}

inductive Survives (id : ℕ) (writes : List Bytes) (c : Config) : Prop where
  | single {chunk : Bytes} {stray : UInt8} (one : writes = [chunk])
      (records : Records id (some (escape chunk stray)) c.queue (heldIds c))
  | multi {header : Header} (fits : header.Fits) (several : 2 ≤ writes.length)
      (count : header.end_ = header.beg + writes.length)
      (size : header.size = writes.flatten.length) (whole : Whole id header writes c)

theorem survives_item {c : Config} (own : c.queue.Ownership (heldIds c))
    (below : id < c.queue.queueHead.id) (item : Item c.queue id writes) :
    Survives id writes c := by
  cases item with
  | single one entry => exact .single one ⟨own, below, fun _ => entry⟩
  | multi stores size =>
    exact .multi stores.fits stores.several stores.count size
      ⟨⟨own, below, fun _ => stores.entry⟩, fun _ => stores.chunks⟩

theorem Survives.item {c : Config} (survives : Survives id writes c)
    (owned : c.queue.Owned (heldIds c) id) : Item c.queue id writes := by
  cases survives with
  | single one records => exact .single one (records.entry owned)
  | multi fits several count size whole =>
    exact .multi ⟨fits, several, count, whole.records.entry owned, whole.chunks owned⟩ size

theorem stored_item {q : Queue} (item : Item q id writes) : q.Stored id := by
  cases item with
  | single one entry => exact mem_iff_lookup.mpr ⟨_, entry⟩
  | multi stores size => exact mem_iff_lookup.mpr ⟨_, stores.entry⟩

theorem change_records {entry : Option Bytes} (c c' : Config)
    (h : Records id entry c.queue (heldIds c)) (change : Change c c') :
    Records id entry c'.queue (heldIds c') := by
  cases change with
  | move move => exact (itemInvariant_records id entry).move _ _ h move
  | unseen unseen => exact (itemInvariant_records id entry).same unseen.same h

theorem change_consistent (c c' : Config) (cons : Consistent c) (change : Change c c') :
    Consistent c' := by
  cases change with
  | move move => exact move_consistent _ _ cons move
  | unseen unseen => exact Consistent.unseen cons unseen

theorem change_whole {header : Header} (fits : header.Fits)
    (count : header.end_ = header.beg + writes.length) (c c' : Config) (cons : Consistent c)
    (whole : Whole id header writes c) (change : Change c c') : Whole id header writes c' := by
  refine ⟨change_records c c' whole.records change, ?_⟩
  cases change with
  | move move => exact (move_whole fits count _ _ ⟨cons, whole⟩ move).2.chunks
  | unseen unseen =>
    intro owned
    have chunks := whole.chunks (owned.imp_left (unseen.same.available id).mp)
    rwa [Queue.contents, unseen.journal]

theorem change_survives (c c' : Config) (h : Consistent c ∧ Survives id writes c)
    (change : Change c c') : Consistent c' ∧ Survives id writes c' := by
  obtain ⟨cons, survives⟩ := h
  refine ⟨change_consistent c c' cons change, ?_⟩
  cases survives with
  | single one records => exact .single one (change_records c c' records change)
  | multi fits several count size whole =>
    exact .multi fits several count size (change_whole fits count c c' cons whole change)

theorem Changes.survives {c c' : Config} (changes : Changes c c') (cons : Consistent c)
    (survives : Survives id writes c) : Survives id writes c' :=
  (changes.invariant (P := fun c => Consistent c ∧ Survives id writes c) change_survives
    ⟨cons, survives⟩).2

theorem Changes.whole {header : Header} {c c' : Config} (changes : Changes c c')
    (cons : Consistent c) (fits : header.Fits)
    (count : header.end_ = header.beg + writes.length) (whole : Whole id header writes c) :
    Whole id header writes c' :=
  (changes.invariant (P := fun c => Consistent c ∧ Whole id header writes c)
    (fun c c' h change => ⟨change_consistent c c' h.1 change,
      change_whole fits count c c' h.1 h.2 change⟩) ⟨cons, whole⟩).2

structure OnlyName (name : Bytes) (address : ℕ) (s : Server) : Prop where
  made : address < s.objects.length
  only : ∀ other, s.queues.lookup other = some address → other = name

theorem step_onlyName {name : Bytes} {event : ServerEvent} (awake : Awake none s)
    (h : OnlyName name address s) (run : s.Step event s') : OnlyName name address s' := by
  have old := step_oldNames awake h.made run
  exact ⟨old.made, fun other found => h.only other (old.names other found)⟩

theorem life_onlyName {name : Bytes} {event : ServerEvent}
    (h : Awake none s ∧ OnlyName name address s) (life : Life s (.event event) s') :
    Awake none s' ∧ OnlyName name address s' := by
  obtain ⟨step, -⟩ := life
  exact ⟨step_awake s event s' h.1 step, step_onlyName h.1 h.2 step⟩

/-! The pop of an item by a `get`. -/

inductive CallsGet (j : ℕ) (env : Env) (s : Server) : ServerEvent → Server → Prop where
  | asked {req : Request} {n : ℕ} (read : parsed s j (.readDone j env) = some req)
      (type : req.type = .get) (line : Server.lineLength (s.conn j).inBuf = some n) :
      CallsGet j env s (.readDone j env) (s.setConn j
        { s.conn j with req := req, inBuf := (s.conn j).inBuf.drop n }).countGet
  | woken {a node : ℕ} {w : Waiter} (due : s.dueWaiter a node = some w) (cb : w.cb = j)
      (item : ((s.object a).waiterWakeup node).2 = true) :
      CallsGet j env s (.callback a node env) (s.setObject a ((s.object a).waiterWakeup node).1)

/-- The event calls `get` of connection `j`, which closes what it holds if it is asked to,
and pops the item `id` from the queue of its request, the one at `address`. -/
inductive Pops (j address id : ℕ) (env : Env) (s : Server) (event : ServerEvent) : Prop where
  | intro {t u : Server} {q : Queue} (gets : CallsGet j env s event t)
      (abort : (t.conn j).req.getAbort = false)
      (either : ((t.conn j).req.getPeek && (t.conn j).req.getOpen) = false)
      (further : ((t.conn j).req.getClose && !(t.conn j).req.getOpen) = false)
      (closes : if (t.conn j).req.getClose then t.popClose j true (env.io 0) = .ok u
        else (t.conn j).popStream.queue = none ∧ u = t)
      (found : u.queues.lookup (u.conn j).req.queue = some address)
      (pop : (u.object address).popBegin = some (id, q))

variable {event : ServerEvent}

theorem step_gets (there : j < s.conns.length) (gets : CallsGet j env s event t) :
    s.step event = t.get j env := by
  cases gets with
  | asked read type line =>
    obtain ⟨reading, n, line', step⟩ := step_parsed read
    obtain rfl := Option.some.inj (line.symm.trans line')
    rw [step, Server.dispatch, Server.conn_setConn_self _ there]
    simp only [type]
  | woken due cb item =>
    simp only [Server.step, Server.callback, due]
    rw [if_pos item, cb]

theorem CallsGet.there (awake : Awake none s) (gets : CallsGet j env s event t) :
    j < s.conns.length := by
  cases gets with
  | asked read type line =>
    obtain ⟨reading, -⟩ := step_parsed read
    exact Server.conn_there (by simp [reading])
  | @woken a node w due cb item =>
    have pending := (awake.waits a w (dueWaiter_mem due).1).2.pending
    rw [← cb]
    exact Server.conn_there (by simp [pending])

theorem CallsGet.calm (awake : Awake none s) (gets : CallsGet j env s event t) : Calm j s t := by
  have there := gets.there awake
  cases gets with
  | @asked req n read type line =>
    have touch : Calm j s (s.setConn j
        { s.conn j with req := req, inBuf := (s.conn j).inBuf.drop n }) :=
      calm_setConn there (fun _ => rfl) fun _ => rfl
    exact touch.trans (calm_stats j _ _)
  | @woken a node w due cb item =>
    exact calm_unseen j (Server.waiter_there (dueWaiter_mem due).1) ⟨rfl, rfl, rfl, rfl, rfl, rfl⟩

theorem get_getPop (abort : (t.conn j).req.getAbort = false)
    (either : ((t.conn j).req.getPeek && (t.conn j).req.getOpen) = false)
    (closes : if (t.conn j).req.getClose then t.popClose j true (env.io 0) = .ok u
      else (t.conn j).popStream.queue = none ∧ u = t) : t.get j env = u.getPop j env := by
  unfold Server.get
  dsimp only
  rw [abort, either]
  split at closes
  case isTrue close =>
    simp [close, closes]
  case isFalse close =>
    obtain ⟨closed, rfl⟩ := closes
    simp [close, closed]

theorem getPop_pops {q : Queue} (abort : (u.conn j).req.getAbort = false)
    (further : ((u.conn j).req.getClose && !(u.conn j).req.getOpen) = false)
    (closed : (u.conn j).popStream.queue = none)
    (found : u.queues.lookup (u.conn j).req.queue = some address)
    (pop : (u.object address).popBegin = some (id, q)) :
    u.getPop j env = .ok (((u.setObject address q).setConn j
      { u.conn j with popStream := { queue := some address, id := id } }).getRead j env) := by
  have queue : u.queueAt (u.conn j).req.queue = .ok (address, u) := by
    rw [Server.queueAt, found]
  have opened : u.popOpen j address = (.ok true, (u.setObject address q).setConn j
      { u.conn j with popStream := { queue := some address, id := id } }) := by
    rcases u.popOpen_cases j address with ⟨isOpen, -⟩ | ⟨-, none, -⟩ | ⟨-, id', q', pop', h⟩
    · rw [closed] at isOpen
      cases isOpen
    · cases none.symm.trans pop
    · obtain ⟨rfl, rfl⟩ := Prod.mk.inj (Option.some.inj (pop'.symm.trans pop))
      exact h
  unfold Server.getPop
  dsimp only
  rw [further, abort, if_neg (by simp), queue]
  simp only [bind, Except.bind, opened]

structure JustPopped (j address id : ℕ) (env : Env) (s : Server) (event : ServerEvent)
    (t : Server) : Prop where
  there : j < t.conns.length
  step : s.step event = .ok (t.getRead j env)
  stream : (t.conn j).popStream = { queue := some address, id := id }
  changes : Changes (config s address) (config t address)
  made : address < t.objects.length
  queue : s.queues.lookup (t.conn j).req.queue = some address

theorem CallsGet.queues (gets : CallsGet j env s event t) : t.queues = s.queues := by
  cases gets with
  | asked => rfl
  | woken => rfl

theorem pops_popped (settled : Settled s) (pops : Pops j address id env s event) :
    ∃ t, JustPopped j address id env s event t := by
  obtain ⟨gets, abort, either, further, closes, found, pop⟩ := pops
  rename_i t u q
  have there := gets.there settled.awake
  have first := gets.calm settled.awake
  have ready := (settled.ready there).calm first
  have step : s.step event = u.getPop j env := by
    rw [step_gets there gets, get_getPop abort either closes]
  -- what the close leaves of the handler, the map and the streams
  obtain ⟨there', closed, req, queues, second⟩ : j < u.conns.length ∧
      (u.conn j).popStream.queue = none ∧ (u.conn j).req = (t.conn j).req ∧ u.queues = t.queues ∧
      Changes (config t address) (config u address) := by
    split at closes
    case isFalse =>
      obtain ⟨closed, rfl⟩ := closes
      exact ⟨ready.there, closed, rfl, rfl, .refl⟩
    case isTrue =>
      rcases Server.popClose_ok closes with ⟨closed, rfl⟩ | ⟨a, q', isOpen, pop', rfl⟩
      · exact ⟨ready.there, closed, rfl, rfl, .refl⟩
      · have ends : PopEnds j a (t.conn j).popStream.id true t ((t.setObject a q').setConn j
            { t.conn j with popStream := { (t.conn j).popStream with queue := none } }) :=
          ⟨ready.there, ready.popMade a isOpen, ⟨isOpen, rfl⟩, q', env.io 0,
            { (t.conn j).popStream with queue := none }, pop', rfl, rfl⟩
        have conn := Server.conn_setObject_setConn a q'
          { t.conn j with popStream := { (t.conn j).popStream with queue := none } } ready.there
        exact ⟨lt_of_lt_of_eq ready.there List.length_set.symm, by rw [conn], by rw [conn], rfl,
          ends.changes address⟩
  have take : Did j (.take address id) u ((u.setObject address q).setConn j
      { u.conn j with popStream := { queue := some address, id := id } }) :=
    ⟨there', closed, q, pop, rfl⟩
  have conn := Server.conn_setObject_setConn address q
    { u.conn j with popStream := { queue := some address, id := id } } there'
  refine ⟨_, ?_, step.trans (getPop_pops (by rw [req]; exact abort) (by rw [req]; exact further)
    closed found pop), by rw [conn], ((first.changes address).trans second).trans
      (take.changes address), ?_, ?_⟩
  · exact lt_of_lt_of_eq there' List.length_set.symm
  · exact lt_of_lt_of_eq (popBegin_made pop) List.length_set.symm
  · rw [conn, ← gets.queues, ← queues]
    exact found

variable {q : Queue} {io : Io} {name : Bytes}

theorem read_single (address : ℕ) {chunk : Bytes} {stray : UInt8} (clean : ∀ n, io n = true)
    (entry : q.contents.lookup ⟨.queue, id⟩ = some (escape chunk stray)) (two : 2 ≤ chunk.length) :
    ({ queue := some address, id := id } : IQStream).read q io =
      (.ok chunk, { queue := some address, id := id, header := { size := chunk.length },
                    chunkPos := 1, tell := chunk.length }) := by
  have nonempty : chunk ≠ [] := List.length_pos_iff.mp (by omega)
  have item := ofValue_escape_eq nonempty stray
  rw [if_neg (by rintro rfl; simp at two)] at item
  have popRead := popRead_item entry item {}
  simp [IQStream.read, IQStream.readEntry, clean, popRead, IQStream.readChunk]

theorem popClose_clean (s : Server) (i : ℕ) (erase : Bool) :
    ∃ t, s.popClose i erase true = .ok t := by
  cases erase with
  | false => exact popClose_return s i true
  | true =>
    unfold Server.popClose
    split
    · exact ⟨_, rfl⟩
    case h_2 a isOpen =>
      rw [IQStream.close, isOpen]
      exact ⟨_, rfl⟩

theorem conn_getFinish (text : Bytes) (dropOk : Bool) (there : i < s.conns.length) :
    ∃ stream : IQStream, (s.getFinish i text true dropOk).conn i =
        { s.conn i with popStream := stream, pending := .write text .readRequest } ∧
      stream.tell = (s.conn i).popStream.tell ∧ stream.size = (s.conn i).popStream.size := by
  unfold Server.getFinish
  split
  · refine ⟨(s.conn i).popStream, ?_, rfl, rfl⟩
    exact conn_reply (s := s.countDequeued) there
  · obtain ⟨t, closed⟩ := popClose_clean s i (!(s.conn i).req.getPeek)
    rw [closed]
    simp only
    rcases Server.popClose_ok closed with ⟨-, rfl⟩ | ⟨a, q, -, -, rfl⟩
    · exact ⟨(t.conn i).popStream, conn_reply (s := t.countDequeued) there, rfl, rfl⟩
    · refine ⟨{ (s.conn i).popStream with queue := none }, ?_, rfl, rfl⟩
      have there' : i < ((s.setObject a q).setConn i { s.conn i with
          popStream := { (s.conn i).popStream with queue := none } }).countDequeued.conns.length :=
        lt_of_lt_of_eq there List.length_set.symm
      have conn := Server.conn_setObject_setConn a q { s.conn i with
        popStream := { (s.conn i).popStream with queue := none } } there
      rw [conn_reply there']
      exact congrArg (fun h : Handler => { h with pending := .write text .readRequest }) conn

theorem popRead_read {buf : Bytes} {stream : IQStream}
    (read : (s.conn j).popStream.read (s.object ((s.conn j).popStream.queue.getD 0)) io =
      (.ok buf, stream)) :
    s.popRead j io = (.ok buf, s.setConn j { s.conn j with popStream := stream }) := by
  rw [Server.popRead, read]

theorem getRead_more {buf : Bytes} {stream : IQStream} (there : j < s.conns.length)
    (read : (s.conn j).popStream.read (s.object ((s.conn j).popStream.queue.getD 0))
      (fun n => env.io (n + 1)) = (.ok buf, stream)) (more : stream.tell ≠ stream.size) :
    (s.getRead j env).conn j = { s.conn j with
      popStream := stream
      pending := .write (Server.valueHeader (s.conn j).req.queue stream.size ++ buf)
        .getOnWriteChunk } := by
  have conn := Server.conn_setConn_self { s.conn j with popStream := stream } there
  rw [Server.getRead, popRead_read read]
  simp only
  rw [if_neg (by rw [conn]; exact more), conn_reply (lt_of_lt_of_eq there List.length_set.symm),
    conn]

theorem getRead_all {buf : Bytes} {stream : IQStream} (there : j < s.conns.length)
    (clean : ∀ n, env.io n = true)
    (read : (s.conn j).popStream.read (s.object ((s.conn j).popStream.queue.getD 0))
      (fun n => env.io (n + 1)) = (.ok buf, stream)) (all : stream.tell = stream.size) :
    ∃ stream' : IQStream, (s.getRead j env).conn j = { s.conn j with
        popStream := stream'
        pending := .write (Server.valueHeader (s.conn j).req.queue stream.size ++ buf ++
          ascii "\r\nEND\r\n") .readRequest } ∧
      stream'.tell = stream.tell ∧ stream'.size = stream.size := by
  have conn := Server.conn_setConn_self { s.conn j with popStream := stream } there
  have there' : j < (s.setConn j { s.conn j with popStream := stream }).conns.length :=
    lt_of_lt_of_eq there List.length_set.symm
  obtain ⟨stream', finish, tell, size⟩ := conn_getFinish
    (Server.valueHeader (s.conn j).req.queue stream.size ++ buf ++ ascii "\r\nEND\r\n")
    (env.io 4) there'
  rw [conn] at finish tell size
  refine ⟨stream', ?_, tell, size⟩
  rw [Server.getRead, popRead_read read]
  simp only
  rw [if_pos (by rw [conn]; exact all), clean 3, conn, finish]

theorem getOnWriteChunk_more {buf : Bytes} {stream : IQStream}
    (read : (s.conn j).popStream.read (s.object ((s.conn j).popStream.queue.getD 0))
      (fun n => env.io (n + 1)) = (.ok buf, stream))
    (more : (s.conn j).popStream.tell ≠ (s.conn j).popStream.size) :
    s.getOnWriteChunk j env =
      (s.setConn j { s.conn j with popStream := stream }).reply j buf .getOnWriteChunk := by
  rw [Server.getOnWriteChunk]
  simp only
  rw [if_neg more, popRead_read read]

theorem conn_sendChunk {buf : Bytes} {stream : IQStream} (there : j < s.conns.length) :
    ((s.setConn j { s.conn j with popStream := stream }).reply j buf .getOnWriteChunk).conn j =
      { s.conn j with popStream := stream, pending := .write buf .getOnWriteChunk } := by
  rw [conn_reply (lt_of_lt_of_eq there List.length_set.symm),
    Server.conn_setConn_self { s.conn j with popStream := stream } there]

theorem getOnWriteChunk_all (there : j < s.conns.length) (clean : ∀ n, env.io n = true)
    (all : (s.conn j).popStream.tell = (s.conn j).popStream.size) :
    ∃ stream : IQStream, (s.getOnWriteChunk j env).conn j = { s.conn j with
        popStream := stream, pending := .write (ascii "\r\nEND\r\n") .readRequest } ∧
      stream.tell = (s.conn j).popStream.tell ∧ stream.size = (s.conn j).popStream.size := by
  rw [Server.getOnWriteChunk]
  simp only
  rw [if_pos all, clean 3]
  exact conn_getFinish _ _ there

theorem total_eq_length (chunks : List Bytes) : total chunks = chunks.flatten.length :=
  List.length_flatten.symm

theorem total_take_iff {chunks : List Bytes} {k : ℕ} (solid : ∀ chunk ∈ chunks, chunk ≠ [])
    (le : k ≤ chunks.length) : total (chunks.take k) = total chunks ↔ k = chunks.length := by
  constructor
  · intro same
    by_contra less
    have split := congrArg total (List.take_append_drop k chunks)
    have sum : total (chunks.take k ++ chunks.drop k) =
        total (chunks.take k) + total (chunks.drop k) := by
      simp [total]
    obtain ⟨chunk, rest, drop⟩ : ∃ chunk rest, chunks.drop k = chunk :: rest := by
      cases drop : chunks.drop k with
      | nil =>
        have := List.drop_eq_nil_iff.mp drop
        omega
      | cons chunk rest => exact ⟨chunk, rest, rfl⟩
    have some : 0 < chunk.length := by
      have mem : chunk ∈ chunks.drop k := by
        rw [drop]
        exact List.mem_cons_self
      exact List.length_pos_iff.mpr (solid chunk (List.mem_of_mem_drop mem))
    have positive : 0 < total (chunks.drop k) := by
      rw [drop]
      simp only [total, List.map_cons, List.sum_cons]
      omega
    omega
  · rintro rfl
    rw [List.take_length]

/-! The reply, as it is seen from the socket and from the pop stream. -/

/-- What a `get` has written since it popped its item, its calls of `pop_stream_.read`, of
which `get` itself makes the first, and those of `get_on_write_chunk`. -/
structure Reply where
  text : Bytes
  reads : ℕ := 1
  calls : ℕ := 0

def sent (h : Handler) : Bytes :=
  match h.pending with
  | .write bytes _ => bytes
  | _ => []

def Reply.next (j : ℕ) (reply : Reply) (s : Server) (event : ServerEvent) (s' : Server) : Reply :=
  match event with
  | .writeDone k _ =>
    if k = j then
      { text := reply.text ++ sent (s'.conn j)
        reads :=
          if (s.conn j).popStream.tell = (s.conn j).popStream.size then reply.reads
          else reply.reads + 1
        calls := reply.calls + 1 }
    else reply
  | _ => reply

/-- An event while connection `j` is in the middle of a reply. Neither its socket nor its
journal calls fail. -/
structure Sending (j : ℕ) (p : Server × Reply) (event : ServerEvent) (p' : Server × Reply) :
    Prop where
  middle : Serving (p.1.conn j)
  life : Life p.1 (.event event) p'.1
  clean : serving p.1 event = some j → ∀ n, outcomes event n = true
  stays : ∀ env, event ≠ .writeFailed j env
  next : p'.2 = p.2.next j p.1 event p'.1

structure Partway (j : ℕ) (name : Bytes) (writes : List Bytes) (s : Server) (reply : Reply) :
    Prop where
  middle : Serving (s.conn j)
  text : reply.text = Server.valueHeader name writes.flatten.length ++
    (writes.take reply.reads).flatten
  calls : reply.reads = reply.calls + 1
  reads : reply.reads ≤ writes.length
  ends : (s.conn j).popStream.tell = (s.conn j).popStream.size ↔ reply.reads = writes.length
  goesOn : (s.conn j).popStream.tell ≠ (s.conn j).popStream.size →
    (s.conn j).popStream.queue.isSome ∧
      (s.conn j).popStream.chunkPos < (s.conn j).popStream.header.end_

structure Replied (j : ℕ) (name body : Bytes) (count : ℕ) (s : Server) (reply : Reply) :
    Prop where
  pending : ∃ bytes, (s.conn j).pending = .write bytes .readRequest
  text : reply.text = Server.valueHeader name body.length ++ body ++ ascii "\r\nEND\r\n"
  reads : reply.reads = count
  calls : reply.calls = if count = 1 then 0 else count
  told : (s.conn j).popStream.tell = (s.conn j).popStream.size
  size : (s.conn j).popStream.size = body.length

inductive Answers (j : ℕ) (name : Bytes) (writes : List Bytes) (p : Server × Reply) : Prop where
  | partway (partway : Partway j name writes p.1 p.2)
  | replied (replied : Replied j name writes.flatten writes.length p.1 p.2)

structure Fetching (j address id : ℕ) (header : Header) (name : Bytes) (writes : List Bytes)
    (s : Server) (reply : Reply) : Prop where
  middle : Serving (s.conn j)
  queue : (s.conn j).req.queue = name
  isOpen : (s.conn j).popStream.queue = some address
  cursor : Cursor id header writes (writes.take reply.reads) (s.conn j).popStream
  begun : 0 < reply.reads
  reads : reply.reads ≤ writes.length
  calls : reply.reads = reply.calls + 1
  text : reply.text = Server.valueHeader name writes.flatten.length ++
    (writes.take reply.reads).flatten
  fits : header.Fits
  several : 2 ≤ writes.length
  count : header.end_ = header.beg + writes.length
  size : header.size = writes.flatten.length
  whole : Whole id header writes (config s address)

variable {header : Header} {reply : Reply}

theorem Fetching.stores (fetching : Fetching j address id header name writes s reply) :
    Stores (s.object address) id header writes := by
  have held : Holds s j address id := ⟨fetching.isOpen, fetching.cursor.id_eq⟩
  have owned : (config s address).queue.Owned (heldIds (config s address)) id := .inr held.mem
  exact ⟨fetching.fits, fetching.several, fetching.count, fetching.whole.records.entry owned,
    fetching.whole.chunks owned⟩

theorem Stores.solid {q : Queue} (stores : Stores q id header writes) (solid : Solid q.contents) :
    ∀ chunk ∈ writes, chunk ≠ [] := by
  intro chunk mem
  obtain ⟨n, found⟩ := List.mem_iff_getElem?.mp mem
  exact solid _ chunk (stores.chunks n chunk found)

theorem Fetching.known (fetching : Fetching j address id header name writes s reply) :
    (s.conn j).popStream.header = header ∧
    (s.conn j).popStream.chunkPos = header.beg + reply.reads := by
  have reads := fetching.reads
  have begun := fetching.begun
  have length : (writes.take reply.reads).length = reply.reads := List.length_take_of_le reads
  rcases fetching.cursor.cursor with ⟨-, -, none⟩ | ⟨known, pos⟩
  · rw [none] at length
    simp only [List.length_nil] at length
    omega
  · rw [length] at pos
    exact ⟨known, pos⟩

theorem Fetching.ends (fetching : Fetching j address id header name writes s reply)
    (solid : Solid (s.object address).contents) :
    (s.conn j).popStream.tell = (s.conn j).popStream.size ↔ reply.reads = writes.length := by
  obtain ⟨known, -⟩ := fetching.known
  rw [fetching.cursor.tell_eq, IQStream.size, known, fetching.size, ← total_eq_length,
    total_take_iff (Stores.solid fetching.stores solid) fetching.reads]

theorem Fetching.partway (fetching : Fetching j address id header name writes s reply)
    (solid : Solid (s.object address).contents) : Partway j name writes s reply := by
  obtain ⟨known, chunkPos⟩ := fetching.known
  have ends := fetching.ends solid
  have count := fetching.count
  have reads := fetching.reads
  refine ⟨fetching.middle, fetching.text, fetching.calls, reads, ends, fun more => ?_⟩
  have more : reply.reads ≠ writes.length := fun all => more (ends.mpr all)
  exact ⟨fetching.cursor.isOpen, by rw [chunkPos, known]; omega⟩

/-! One event. -/

theorem Reply.next_other (other : ∀ env, event ≠ .writeDone j env) :
    reply.next j s event s' = reply := by
  cases event with
  | writeDone k env =>
    refine if_neg ?_
    rintro rfl
    exact other env rfl
  | _ => rfl

theorem Reply.next_writeDone : reply.next j s (.writeDone j env) s' =
    { text := reply.text ++ sent (s'.conn j)
      reads :=
        if (s.conn j).popStream.tell = (s.conn j).popStream.size then reply.reads
        else reply.reads + 1
      calls := reply.calls + 1 } := if_pos rfl

theorem Fetching.same (fetching : Fetching j address id header name writes s reply)
    (conn : s'.conn j = s.conn j) (whole : Whole id header writes (config s' address)) :
    Fetching j address id header name writes s' reply :=
  { fetching with
    middle := by rw [conn]; exact fetching.middle
    queue := by rw [conn]; exact fetching.queue
    isOpen := by rw [conn]; exact fetching.isOpen
    cursor := by rw [conn]; exact fetching.cursor
    whole := whole }

theorem Fetching.read (fetching : Fetching j address id header name writes s reply)
    (clean : ∀ n, env.io n = true) (solid : Solid (s.object address).contents)
    (more : (s.conn j).popStream.tell ≠ (s.conn j).popStream.size) :
    ∃ chunk stream, writes[reply.reads]? = some chunk ∧
      (s.conn j).popStream.read (s.object ((s.conn j).popStream.queue.getD 0))
        (fun n => env.io (n + 1)) = (.ok chunk, stream) ∧
      stream.queue = some address ∧ Cursor id header writes (writes.take (reply.reads + 1)) stream := by
  have length : (writes.take reply.reads).length = reply.reads :=
    List.length_take_of_le fetching.reads
  have queue : (s.conn j).popStream.queue.getD 0 = address := by rw [fetching.isOpen]; rfl
  rcases fetching.cursor.read fetching.stores fun n => env.io (n + 1) with
    ⟨all, -⟩ | ⟨chunk, found, ⟨failed, -⟩ | ⟨stream, read, cursor⟩⟩
  · exact absurd ((fetching.ends solid).mpr (length.symm.trans all)) more
  · exact absurd (fun m => clean (m + 1)) failed
  rw [length] at found
  have take : writes.take reply.reads ++ [chunk] = writes.take (reply.reads + 1) := by
    rw [List.take_add_one, found]
    rfl
  have isOpen : stream.queue = some address := by
    have same := (s.conn j).popStream.queue_read (s.object address) fun n => env.io (n + 1)
    rw [read] at same
    exact same.trans fetching.isOpen
  exact ⟨chunk, stream, found, by rw [queue]; exact read, isOpen, take ▸ cursor⟩

theorem Fetching.more (fetching : Fetching j address id header name writes s reply)
    (there : j < s.conns.length) (clean : ∀ n, env.io n = true)
    (solid : Solid (s.object address).contents)
    (more : (s.conn j).popStream.tell ≠ (s.conn j).popStream.size)
    (after : s' = s.getOnWriteChunk j env) (whole : Whole id header writes (config s' address)) :
    Fetching j address id header name writes s' (reply.next j s (.writeDone j env) s') := by
  obtain ⟨chunk, stream, found, read, isOpen, cursor⟩ := fetching.read clean solid more
  have conn : s'.conn j =
      { s.conn j with popStream := stream, pending := .write chunk .getOnWriteChunk } := by
    rw [after, getOnWriteChunk_more read more]
    exact conn_sendChunk there
  have next : reply.next j s (.writeDone j env) s' =
      ⟨reply.text ++ chunk, reply.reads + 1, reply.calls + 1⟩ := by
    rw [Reply.next_writeDone, if_neg more, conn]
    rfl
  rw [next]
  refine
    { fetching with
      middle := ⟨chunk, by rw [conn]⟩
      queue := by rw [conn]; exact fetching.queue
      isOpen := by rw [conn]; exact isOpen
      cursor := by rw [conn]; exact cursor
      begun := Nat.succ_pos _
      reads := (List.getElem?_eq_some_iff.mp found).1
      calls := congrArg (· + 1) fetching.calls
      text := ?_
      whole := whole }
  simp only
  rw [fetching.text, List.take_add_one, found, List.flatten_append, List.append_assoc]
  simp

theorem Fetching.all (fetching : Fetching j address id header name writes s reply)
    (there : j < s.conns.length) (clean : ∀ n, env.io n = true)
    (solid : Solid (s.object address).contents)
    (all : (s.conn j).popStream.tell = (s.conn j).popStream.size)
    (after : s' = s.getOnWriteChunk j env) :
    Replied j name writes.flatten writes.length s' (reply.next j s (.writeDone j env) s') := by
  have reads := (fetching.ends solid).mp all
  have several := fetching.several
  have calls := fetching.calls
  obtain ⟨stream, conn, tell, size⟩ := getOnWriteChunk_all there clean all
  rw [← after] at conn
  have next : reply.next j s (.writeDone j env) s' =
      ⟨reply.text ++ ascii "\r\nEND\r\n", reply.reads, reply.calls + 1⟩ := by
    rw [Reply.next_writeDone, if_pos all, conn]
    rfl
  rw [next]
  refine
    { pending := ⟨_, by rw [conn]⟩
      text := ?_
      reads := reads
      calls := ?_
      told := by rw [conn]; exact tell.trans (all.trans size.symm)
      size := ?_ }
  · simp only
    rw [fetching.text, reads, List.take_length]
  · simp only
    rw [if_neg (by omega)]
    omega
  · rw [conn]
    simp only
    rw [size, IQStream.size, fetching.known.1, fetching.size]

theorem Fetching.step {p' : Server × Reply} (settled : Settled s)
    (fetching : Fetching j address id header name writes s reply)
    (sending : Sending j (s, reply) event p') :
    Fetching j address id header name writes p'.1 p'.2 ∨
      Replied j name writes.flatten writes.length p'.1 p'.2 := by
  obtain ⟨s', reply'⟩ := p'
  obtain ⟨⟨text, writing⟩, life, clean, stays, next⟩ := sending
  obtain rfl : reply' = reply.next j s event s' := next
  have writing : (s.conn j).pending = .write text .getOnWriteChunk := writing
  have there : j < s.conns.length := Server.conn_there (by simp [writing])
  have sound := settled.sound address
  have solid := solid_contents sound.solid
  have whole : Whole id header writes (config s' address) :=
    Changes.whole (life_changes settled life address) sound.cons fetching.fits fetching.count
      fetching.whole
  obtain ⟨step, -⟩ := life
  by_cases mine : serving s event = some j
  case neg =>
    have other : ∀ env, event ≠ .writeDone j env := by
      rintro env rfl
      exact mine rfl
    rw [Reply.next_other other]
    exact .inl (fetching.same (step_others settled.awake step there mine) whole)
  rcases step_writing settled.awake writing mine step with
    ⟨env, rfl, after⟩ | ⟨env, rfl, -⟩ | ⟨other, same⟩
  · have after : s' = s.getOnWriteChunk j env := by
      refine Eq.trans after ?_
      rw [Server.writeDone, writing]
    have clean : ∀ n, env.io n = true := clean mine
    by_cases all : (s.conn j).popStream.tell = (s.conn j).popStream.size
    · exact .inr (fetching.all there clean solid all after)
    · exact .inl (fetching.more there clean solid all after whole)
  · exact absurd rfl (stays env)
  · have conn : s'.conn j = s.conn j := congrArg (fun s : Server => s.conn j) same
    rw [Reply.next_other other]
    exact .inl (fetching.same conn whole)

theorem replied_single {chunk : Bytes} {stray : UInt8} (there : j < s.conns.length)
    (clean : ∀ n, env.io n = true) (two : 2 ≤ chunk.length)
    (stream : (s.conn j).popStream = { queue := some address, id := id })
    (entry : (s.object address).contents.lookup ⟨.queue, id⟩ = some (escape chunk stray)) :
    Replied j (s.conn j).req.queue chunk 1 (s.getRead j env)
      { text := sent ((s.getRead j env).conn j) } := by
  have read := read_single address (fun n => clean (n + 1)) entry two
  rw [← stream] at read
  have queue : (s.conn j).popStream.queue.getD 0 = address := by rw [stream]; rfl
  rw [← queue] at read
  obtain ⟨stream', conn, tell, size⟩ := getRead_all there clean read rfl
  refine ⟨⟨_, by rw [conn]⟩, ?_, rfl, rfl, ?_, ?_⟩
  · rw [conn]
    rfl
  · rw [conn]
    exact tell.trans size.symm
  · rw [conn]
    exact size

theorem fetching_multi {q : Queue} (there : j < s.conns.length) (clean : ∀ n, env.io n = true)
    (stream : (s.conn j).popStream = { queue := some address, id := id })
    (object : s.object address = q) (solid : Solid q.contents)
    (fits : header.Fits) (several : 2 ≤ writes.length)
    (count : header.end_ = header.beg + writes.length)
    (size : header.size = writes.flatten.length) (stores : Stores q id header writes)
    (whole : Whole id header writes (config (s.getRead j env) address)) :
    Fetching j address id header (s.conn j).req.queue writes (s.getRead j env)
      { text := sent ((s.getRead j env).conn j) } := by
  have fresh : Cursor id header writes [] (s.conn j).popStream := by
    rw [stream]
    exact ⟨rfl, rfl, rfl, rfl, .inl ⟨rfl, rfl, rfl⟩⟩
  have queue : (s.conn j).popStream.queue.getD 0 = address := by rw [stream]; rfl
  rcases fresh.read stores fun n => env.io (n + 1) with
    ⟨all, -⟩ | ⟨chunk, found, ⟨failed, -⟩ | ⟨after, read, cursor⟩⟩
  · simp only [List.length_nil] at all
    omega
  · exact absurd (fun m => clean (m + 1)) failed
  have take : [chunk] = writes.take 1 := by
    rw [List.take_add_one, List.take_zero, List.nil_append]
    exact congrArg Option.toList found.symm
  rw [List.nil_append, take] at cursor
  have isOpen : after.queue = some address := by
    have same := (s.conn j).popStream.queue_read q fun n => env.io (n + 1)
    rw [read] at same
    rw [same, stream]
  have known : after.header = header := by
    rcases cursor.cursor with ⟨-, -, none⟩ | ⟨known, -⟩
    · rw [← take] at none
      cases none
    · exact known
  have more : after.tell ≠ after.size := by
    intro all
    rw [cursor.tell_eq, IQStream.size, known, size, ← total_eq_length,
      total_take_iff (Stores.solid stores solid) (by omega)] at all
    omega
  rw [← object] at read
  have conn := getRead_more there (by rw [queue]; exact read) more
  exact
    { middle := ⟨_, by rw [conn]⟩
      queue := by rw [conn]
      isOpen := by rw [conn]; exact isOpen
      cursor := by rw [conn]; exact cursor
      begun := Nat.one_pos
      reads := by simp only; omega
      calls := rfl
      text := by
        rw [conn, ← take]
        simp only [sent, IQStream.size, known, size, List.flatten_singleton]
      fits := fits
      several := several
      count := count
      size := size
      whole := whole }

theorem getRead_answers (popped : JustPopped j address id env s event t) (settled : Settled s)
    (life : Life s (.event event) s') (survives : Survives id writes (config s address))
    (two : 2 ≤ writes.flatten.length) (clean : ∀ n, env.io n = true) :
    (∃ header, Fetching j address id header (t.conn j).req.queue writes s'
      { text := sent (s'.conn j) }) ∨
      Replied j (t.conn j).req.queue writes.flatten writes.length s'
        { text := sent (s'.conn j) } := by
  have changes := life_changes settled life address
  obtain ⟨step, -⟩ := life
  obtain rfl : s' = t.getRead j env := Except.ok.inj (step.symm.trans popped.step)
  have sound := settled.sound address
  have held : Holds t j address id := by
    rw [Holds, popped.stream]
    exact ⟨rfl, rfl⟩
  have owned : (config t address).queue.Owned (heldIds (config t address)) id := .inr held.mem
  cases survives with
  | @single chunk stray one records =>
    subst one
    rw [List.flatten_singleton] at two ⊢
    have records := popped.changes.invariant change_records records
    exact .inr (replied_single popped.there clean two popped.stream (records.entry owned))
  | @multi header fits several count size whole =>
    have before := Changes.whole popped.changes sound.cons fits count whole
    have solid := solid_contents (popped.changes.invariant change_sound sound).solid
    exact .inl ⟨header, fetching_multi popped.there clean popped.stream rfl solid fits several
      count size ⟨fits, several, count, before.records.entry owned, before.chunks owned⟩
      (Changes.whole changes sound.cons fits count whole)⟩

theorem chunksHead_popEnd {q' : Queue} {erase ok : Bool}
    (pop : q.popEnd erase id header ok = .ok q') : q'.chunksHead = q.chunksHead := by
  cases erase with
  | true =>
    obtain ⟨bytes, ranges, rfl⟩ := Queue.popEnd_erase pop
    rfl
  | false =>
    rw [Queue.popEnd_return] at pop
    obtain rfl := Except.ok.inj pop
    exact chunksHead_wakeUp _

theorem fits_getFinish {text : Bytes} {dropOk : Bool} (fits : Fits s) :
    Fits (s.getFinish i text true dropOk) := by
  unfold Server.getFinish
  split
  · exact ⟨fits.head, fits.chunks⟩
  · obtain ⟨t, closed⟩ := popClose_clean s i (!(s.conn i).req.getPeek)
    rw [closed]
    rcases Server.popClose_ok closed with ⟨-, rfl⟩ | ⟨a, q, -, pop, rfl⟩
    · exact ⟨fits.head, fits.chunks⟩
    · constructor
      · intro b
        have same := object_setObject_field Queue.queueHead (Queue.head_popEnd pop) b
        exact lt_of_eq_of_lt (congrArg Key.id same) (fits.head b)
      · intro b
        have same := object_setObject_field Queue.chunksHead (chunksHead_popEnd pop) b
        exact lt_of_eq_of_lt (congrArg Key.id same) (fits.chunks b)

theorem Fetching.goes (settled : Settled s) (fits : Fits s)
    (fetching : Fetching j address id header name writes s reply) :
    ∃ event p, Sending j (s, reply) event p ∧
      (Replied j name writes.flatten writes.length p.1 p.2 ∨
        Fetching j address id header name writes p.1 p.2 ∧ p.2.reads = reply.reads + 1) := by
  obtain ⟨text, writing⟩ := fetching.middle
  have solid := solid_contents (settled.sound address).solid
  have clean : ∀ n, (⟨fun _ => true, 0, 0, 0⟩ : Env).io n = true := fun _ => rfl
  generalize (⟨fun _ => true, 0, 0, 0⟩ : Env) = env at clean
  have after : s.writeDone j env = s.getOnWriteChunk j env := by rw [Server.writeDone, writing]
  have fits' : Fits (s.writeDone j env) := by
    rw [after]
    by_cases all : (s.conn j).popStream.tell = (s.conn j).popStream.size
    · rw [Server.getOnWriteChunk, if_pos all, clean 3]
      exact fits_getFinish fits
    · obtain ⟨chunk, stream, -, read, -⟩ := fetching.read clean solid all
      rw [getOnWriteChunk_more read all]
      exact ⟨fits.head, fits.chunks⟩
  have sending : Sending j (s, reply) (.writeDone j env)
      (s.writeDone j env, reply.next j s (.writeDone j env) (s.writeDone j env)) :=
    ⟨fetching.middle, .event rfl fits', fun _ => clean, by simp, rfl⟩
  refine ⟨_, _, sending, ?_⟩
  rcases fetching.step settled sending with again | replied
  · refine .inr ⟨again, ?_⟩
    have calls := again.calls
    simp only [Reply.next_writeDone] at calls ⊢
    rw [calls, fetching.calls]
  · exact .inl replied

theorem Fetching.finishes (settled : Settled s) (fits : Fits s)
    (fetching : Fetching j address id header name writes s reply) :
    ∃ events p, Runs (Sending j) (s, reply) events p ∧
      Replied j name writes.flatten writes.length p.1 p.2 := by
  -- on the number of chunks that are still to be read
  induction left : writes.length - reply.reads generalizing s reply with
  | zero =>
    obtain ⟨event, p, sending, replied | ⟨again, reads⟩⟩ := fetching.goes settled fits
    · exact ⟨[event], p, .cons sending (.nil _), replied⟩
    · have bound := again.reads
      omega
  | succ n ih =>
    obtain ⟨event, p, sending, replied | ⟨again, reads⟩⟩ := fetching.goes settled fits
    · exact ⟨[event], p, .cons sending (.nil _), replied⟩
    · have settled' := life_settled _ _ _ settled sending.life
      have fits' : Fits p.1 := by
        obtain ⟨-, fits'⟩ := sending.life
        exact fits'
      obtain ⟨events, p', runs, replied⟩ := ih settled' fits' again (by omega)
      exact ⟨event :: events, p', .cons sending runs, replied⟩

/-! The `set` and the `get`. -/

/-- A `set` of `body` on the queue `name` is complete, and was answered with `STORED`. Its
item is the entry `id` of the queue at `address`. -/
inductive Completed (start : Server) (name : Bytes) (address id : ℕ) (body : Bytes)
    (t : Server) : Prop where
  | intro {s s' : Server} {i : ℕ} {env : Env} {req : Request} {events : List ServerEvent}
      {loop : Loop} (reach : Reachable Life start s)
      (asked : parsed s i (.readDone i env) = some req) (type : req.type = .set)
      (life : Life s (.event (.readDone i env)) s')
      (runs : Runs (Watched i) (s', { input := (s'.conn i).inBuf }) events (t, loop))
      (answer : (t.conn i).pending = .write (ascii "STORED\r\n") .readRequest)
      (queue : req.queue = name) (found : s'.queues.lookup name = some address)
      (item : (t.conn i).pushStream.id = id) (bytes : loop.input.take req.numBytes = body)

theorem Completed.survives {chunkSize : ℕ} {dataPath body : Bytes} (pos : 0 < chunkSize)
    (completed : Completed (.empty chunkSize dataPath) name address id body t) :
    Reachable Life (.empty chunkSize dataPath) t ∧ OnlyName name address t ∧
    ∃ writes : List Bytes, writes.flatten = body ∧
      writes.length = max 1 (body.length ⌈/⌉ t.chunkSize) ∧
      Survives id writes (config t address) := by
  obtain ⟨reach, asked, type, life, runs, answer, rfl, found, rfl, rfl⟩ := completed
  rename_i s s' i env req events loop
  obtain ⟨address', found', each⟩ := set_body pos reach asked type life
  obtain rfl := Option.some.inj (found.symm.trans found')
  obtain ⟨reach', body⟩ := each events (t, loop) runs
  have settled : Settled t := reach'.invariant (settled_empty pos) life_settled
  have sound := settled.sound address
  have stored : StoredBody i address req.numBytes t loop := by
    cases body with
    | looping looping =>
      obtain ⟨n, reading⟩ := looping.reading
      cases reading.symm.trans answer
    | stored stored => exact stored
    | refused refused => exact absurd answer refused.not_stored
  have size : (loop.input.take req.numBytes).length = req.numBytes := by
    have ending := congrArg List.length stored.ending
    have two : (ascii "\r\n").length = 2 := by decide
    rw [List.length_take, List.length_drop, two] at ending
    exact List.length_take_of_le (by omega)
  have below := stored_below sound (stored_item stored.item)
  refine ⟨reach', ?_, loop.writes, stored.body, by rw [size, stored.count],
    survives_item sound.cons.own below stored.item⟩
  have awake := (reachable_steady pos (reach.next life)).1
  have start : OnlyName req.queue address s' :=
    ⟨awake.made _ _ found, fun other same => awake.distinct _ _ _ same found⟩
  exact (runs.preserves (P := fun p => Awake none p.1 ∧ OnlyName req.queue address p.1)
    (fun p event p' _ h watched => life_onlyName h watched.life) (fun _ _ => trivial)
    ⟨awake, start⟩).2

/-- What a `get` writes from its pop on: as far as it has come the item that was stored,
and at the end all of it. -/
theorem get_returns_body {chunkSize : ℕ} {dataPath body : Bytes} {u v w : Server}
    {between events : List ServerEvent} (pos : 0 < chunkSize)
    (completed : Completed (.empty chunkSize dataPath) name address id body t)
    (two : 2 ≤ body.length)
    (others : Runs (fun s event s' => Life s (.event event) s') t between u)
    (pops : Pops j address id env u event) (clean : ∀ n, env.io n = true)
    (life : Life u (.event event) v)
    (runs : Runs (Sending j) (v, { text := sent (v.conn j) }) events (w, reply)) :
    ∃ writes : List Bytes, writes.flatten = body ∧
      writes.length = max 1 (body.length ⌈/⌉ t.chunkSize) ∧
      Answers j name writes (w, reply) ∧
      ∃ rest p, Runs (Sending j) (w, reply) rest p ∧
        Replied j name body writes.length p.1 p.2 := by
  obtain ⟨reach, only, writes, rfl, count, survives⟩ := completed.survives pos
  refine ⟨writes, rfl, count, ?_⟩
  have settled : Settled t := reach.invariant (settled_empty pos) life_settled
  -- the item, until it is popped
  obtain ⟨settled, only, survives⟩ := others.preserves
    (P := fun s => Settled s ∧ OnlyName name address s ∧ Survives id writes (config s address))
    (fun s event s' _ h life => ⟨life_settled _ _ _ h.1 life,
      (life_onlyName ⟨h.1.awake, h.2.1⟩ life).2, Changes.survives (life_changes h.1 life address)
        (h.1.sound address).cons h.2.2⟩) (fun _ _ => trivial) ⟨settled, only, survives⟩
  obtain ⟨popped, h⟩ := pops_popped settled pops
  obtain rfl := only.only _ h.queue
  have first := getRead_answers h settled life survives two clean
  have settled' := life_settled _ _ _ settled life
  obtain ⟨-, fits⟩ := life
  -- the reply, in every event from then on
  have each := runs.preserves (P := fun p => Settled p.1 ∧ Fits p.1 ∧
      ((∃ header, Fetching j address id header (popped.conn j).req.queue writes p.1 p.2) ∨
        Replied j (popped.conn j).req.queue writes.flatten writes.length p.1 p.2))
    (fun p event p' _ h sending => ?_) (fun _ _ => trivial) ⟨settled', fits, first⟩
  · obtain ⟨settled, fits, ⟨header, fetching⟩ | replied⟩ := each
    · exact ⟨.partway (fetching.partway (solid_contents (settled.sound address).solid)),
        fetching.finishes settled fits⟩
    · exact ⟨.replied replied, [], (w, reply), .nil _, replied⟩
  · obtain ⟨settled, fits, ⟨header, fetching⟩ | replied⟩ := h
    · refine ⟨life_settled _ _ _ settled sending.life, ?_, ?_⟩
      · obtain ⟨-, fits⟩ := sending.life
        exact fits
      · exact (fetching.step settled sending).imp_left fun again => ⟨header, again⟩
    · obtain ⟨bytes, writing⟩ := replied.pending
      obtain ⟨text, middle⟩ := sending.middle
      cases writing.symm.trans middle

def writesChunk : Pending → Bool
  | .write _ .getOnWriteChunk => true
  | _ => false

theorem writesChunk_eq {h : Handler} (writes : writesChunk h.pending = true) : Serving h := by
  unfold writesChunk at writes
  split at writes
  case h_1 text pending => exact ⟨text, pending⟩
  case h_2 => cases writes

def sending (j : ℕ) : Server × Reply → List ServerEvent → Option (Server × Reply) :=
  during writesChunk j (Reply.next j)

theorem runs_sending {p p' : Server × Reply} {events : List ServerEvent}
    (run : sending j p events = some p') (clean : ∀ event ∈ events, ∀ n, outcomes event n = true)
    (stays : ∀ event ∈ events, ∀ env, event ≠ .writeFailed j env) :
    Runs (Sending j) p events p' := by
  have runs : Runs (Sending j) p (events.map id) p' :=
    runs_during id id (fun event mem s a t writes life =>
      ⟨writesChunk_eq writes, life, fun _ => clean event mem, stays event mem, rfl⟩) run
  rwa [List.map_id] at runs

theorem runs_fitting {events : List ServerEvent} (run : fitting s events = some t) :
    Runs (fun s event s' => Life s (.event event) s') s events t := by
  induction events generalizing s with
  | nil =>
    rw [← Option.some.inj run]
    exact .nil _
  | cons event events ih =>
    obtain ⟨u, life, rest⟩ := fitting_cons run
    exact .cons life (ih rest)

theorem pops_plain {req : Request} {n : ℕ} (read : parsed s j (.readDone j env) = some req)
    (type : req.type = .get) (line : Server.lineLength (s.conn j).inBuf = some n)
    (plain : req.getAbort = false ∧ req.getClose = false ∧ (req.getPeek && req.getOpen) = false)
    (closed : (s.conn j).popStream.queue = none)
    (found : s.queues.lookup req.queue = some address)
    (begins : (s.object address).popBegin = some (id, q)) :
    Pops j address id env s (.readDone j env) := by
  obtain ⟨reading, -⟩ := step_parsed read
  have there : j < s.conns.length := Server.conn_there (by simp [reading])
  have conn : (s.setConn j { s.conn j with
      req := req, inBuf := (s.conn j).inBuf.drop n }).countGet.conn j =
      { s.conn j with req := req, inBuf := (s.conn j).inBuf.drop n } :=
    Server.conn_setConn_self _ there
  have begins : ((s.setConn j { s.conn j with
      req := req, inBuf := (s.conn j).inBuf.drop n }).countGet.object address).popBegin =
      some (id, q) := begins
  refine .intro (.asked read type line) ?_ ?_ ?_ ?_ (by rw [conn]; exact found) begins
  · rw [conn]
    exact plain.1
  · rw [conn]
    exact plain.2.2
  · rw [conn]
    simp [plain.2.1]
  · rw [conn]
    simp [plain.2.1, closed]

theorem get_returns_body_two : ∃ t u v p,
    Completed (.empty 16 [47]) (ascii "q") 0 0 (ascii "0123456789abcdefgh") t ∧
    Runs (fun s event s' => Life s (.event event) s') t
      [.accept, .recv 1 (ascii "get q\r\n")] u ∧
    Pops 1 0 0 ⟨fun _ => true, 0, 0, 0⟩ u (.readDone 1 ⟨fun _ => true, 0, 0, 0⟩) ∧
    Life u (.event (.readDone 1 ⟨fun _ => true, 0, 0, 0⟩)) v ∧
    Runs (Sending 1) (v, { text := sent (v.conn 1) })
      [.writeDone 1 ⟨fun _ => true, 0, 0, 0⟩, .writeDone 1 ⟨fun _ => true, 0, 0, 0⟩] p ∧
    Replied 1 (ascii "q") (ascii "0123456789abcdefgh") 2 p.1 p.2 := by
  have facts : ((fitting (.empty 16 [47]) [.accept, .recv 0 (ascii "set q 0 0 18\r\n")]).bind
      fun s => (fitting s [.readDone 0 ⟨fun _ => true, 0, 0, 0⟩]).bind fun s' =>
        (watching 0 (s', { input := (s'.conn 0).inBuf }) bodyPieces).bind fun p =>
        (fitting p.1 [.accept, .recv 1 (ascii "get q\r\n")]).bind fun u =>
        (fitting u [.readDone 1 ⟨fun _ => true, 0, 0, 0⟩]).bind fun v =>
        (sending 1 (v, { text := sent (v.conn 1) })
          [.writeDone 1 ⟨fun _ => true, 0, 0, 0⟩, .writeDone 1 ⟨fun _ => true, 0, 0, 0⟩]).map
        fun q =>
          decide ((parsed s 0 (.readDone 0 ⟨fun _ => true, 0, 0, 0⟩)).map
            (fun req => (req.type, req.queue, req.numBytes)) = some (.set, ascii "q", 18)) &&
          decide (s'.queues.lookup (ascii "q") = some 0) &&
          decide ((p.1.conn 0).pending = .write (ascii "STORED\r\n") .readRequest) &&
          decide ((p.1.conn 0).pushStream.id = 0) && decide (p.1.chunkSize = 16) &&
          decide (p.2.input.take 18 = ascii "0123456789abcdefgh") &&
          decide ((parsed u 1 (.readDone 1 ⟨fun _ => true, 0, 0, 0⟩)).map (fun req =>
              (req.type, req.queue, req.getAbort, req.getClose, req.getPeek && req.getOpen)) =
            some (.get, ascii "q", false, false, false)) &&
          decide (Server.lineLength (u.conn 1).inBuf = some 7) &&
          decide ((u.conn 1).popStream.queue = none) &&
          decide (u.queues.lookup (ascii "q") = some 0) &&
          decide ((u.object 0).popBegin.map Prod.fst = some 0) &&
          decide ((q.1.conn 1).pending = .write (ascii "\r\nEND\r\n") .readRequest)) =
      some true := by decide
  simp only [Option.bind_eq_some_iff, Option.map_eq_some_iff, Bool.and_eq_true, decide_eq_true_iff]
    at facts
  obtain ⟨s, prelude, s', first, ⟨t, loop⟩, watched, u, later, v, pop, p, sent, facts⟩ := facts
  simp only [and_assoc, Prod.mk.injEq] at facts
  obtain ⟨⟨req, asked, set, queue, size⟩, found, answer, item, chunkSize, input, ⟨req', read, get,
    queue', abort, close, either⟩, line, closed, found', begins, ends⟩ := facts
  obtain ⟨⟨id, q⟩, begins, rfl⟩ := begins
  obtain ⟨_, life, same⟩ := fitting_cons first
  obtain rfl := Option.some.inj same
  obtain ⟨_, life', same⟩ := fitting_cons pop
  obtain rfl := Option.some.inj same
  have completed : Completed (.empty 16 [47]) (ascii "q") 0 0 (ascii "0123456789abcdefgh") t :=
    .intro (reachable_fitting .refl prelude) asked set life
      (runs_watching watched (by simp [bodyPieces, outcomes]) (by simp [bodyPieces])) answer queue
      found item (by rw [size]; exact input)
  have pops := pops_plain read get line ⟨abort, close, either⟩ closed (by rw [queue']; exact found')
    begins
  have runs := runs_sending sent (by simp [outcomes]) (by simp)
  refine ⟨t, u, _, p, completed, runs_fitting later, pops, life', runs, ?_⟩
  obtain ⟨writes, body, count, answers, -⟩ := get_returns_body (by decide) completed (by decide)
    (runs_fitting later) pops (fun _ => rfl) life' runs
  have two : max 1 ((ascii "0123456789abcdefgh").length ⌈/⌉ 16) = 2 := by decide
  rw [chunkSize, two] at count
  cases answers with
  | partway partway =>
    obtain ⟨text, middle⟩ := partway.middle
    cases middle.symm.trans ends
  | replied replied =>
    rw [body, count] at replied
    exact replied

/-! The buffer of the header. -/

/-- What `header_buf_` is resized to for the item's header. -/
def headerBufSize (name : Bytes) : ℕ := 21 + name.length

/-- What `sprintf` stores for a text: a terminator follows it. -/
def sprintfSize (text : Bytes) : ℕ := text.length + 1

theorem length_valueHeader (name : Bytes) (size : ℕ) :
    (Server.valueHeader name size).length = 11 + name.length + (Nat.toDigits 10 size).length := by
  have parts : (ascii "VALUE ").length = 6 ∧ (ascii " 0 ").length = 3 ∧
      (ascii "\r\n").length = 2 := by decide
  rw [Server.valueHeader, decimalText]
  simp only [List.length_append, List.length_map, parts]
  omega

/-- A size of nine digits leaves room for the terminator, one of ten does not. -/
theorem header_fits_buffer_iff (name : Bytes) (size : ℕ) :
    sprintfSize (Server.valueHeader name size) ≤ headerBufSize name ↔ size < 10 ^ 9 := by
  have digits : (Nat.toDigits 10 size).length ≤ 9 ↔ size < 10 ^ 9 :=
    Nat.length_toDigits_le_iff (by decide) (by decide)
  rw [← digits, sprintfSize, headerBufSize, length_valueHeader]
  omega

theorem header_overflows_buffer : ∃ get set : Request,
    Request.parse (ascii "get q\r\n") = some get ∧ get.type = .get ∧
    Request.parse (ascii "set q 0 0 1000000000\r\n") = some set ∧ set.type = .set ∧
    headerBufSize get.queue < sprintfSize (Server.valueHeader get.queue set.numBytes) := by
  have get : (Request.parse (ascii "get q\r\n")).map (fun req => (req.type, req.queue)) =
      some (.get, ascii "q") := by decide
  have set : (Request.parse (ascii "set q 0 0 1000000000\r\n")).map
      (fun req => (req.type, req.numBytes)) = some (.set, 1000000000) := by decide
  obtain ⟨req, parsed, same⟩ := Option.map_eq_some_iff.mp get
  obtain ⟨req', parsed', same'⟩ := Option.map_eq_some_iff.mp set
  obtain ⟨type, queue⟩ := Prod.mk.inj same
  obtain ⟨type', size⟩ := Prod.mk.inj same'
  refine ⟨req, req', parsed, type, parsed', type', ?_⟩
  rw [queue, size]
  decide

end Darner.GetReplies
