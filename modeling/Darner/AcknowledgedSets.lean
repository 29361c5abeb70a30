import Darner.SetProgress

/-! Acknowledged items. A `set` holds on to the queue object that it found when it
began. While nobody deletes that queue, the object is the one that the map has under
the name, and an item that is answered `STORED` can be popped there. A queue that is
deleted between two chunks of a `set` takes the item with it. -/

namespace Darner.AcknowledgedSets
open OrderedStore LabelledRuns ServerMoves ServerWaiters FetchDeeds FetchEvents ServerCalls
open SetProgress

variable {s s' t : Server} {i n address : ℕ}

def pushesTo (name : Bytes) (h : Handler) : Bool :=
  match h.pending with
  | .readChunk _ => h.req.queue = name
  | _ => false

/-- No queue is deleted while a `set` on it is unfinished. -/
def sparesSets : Server → ServerEvent → Bool := spares pushesTo

def Aimed (s : Server) : Prop :=
  ∀ j n a, (s.conn j).pending = .readChunk n → (s.conn j).pushStream.queue = some a →
    s.queues.lookup (s.conn j).req.queue = some a

structure Guards (i : ℕ) (deletes : Bytes → Prop) (s : Server) : Prop where
  sited : Sited s
  receives : AllReceiving s
  aimed : Aimed s
  spared : ∀ j n, j ≠ i → (s.conn j).pending = .readChunk n → ¬deletes (s.conn j).req.queue

theorem call_aimed_self {io : Io} {deletes : Bytes → Prop} (there : i < s.conns.length)
    (h : Guards i deletes s) (call : Call i io deletes s s') {n a : ℕ}
    (pending : (s'.conn i).pending = .readChunk n) (isOpen : (s'.conn i).pushStream.queue = some a) :
    s'.queues.lookup (s'.conn i).req.queue = some a := by
  have aimed := h.aimed i
  rcases Call.awaits there call pending with
    ⟨conn, kept⟩ | ⟨found, opened, rfl⟩ | @⟨data, rfl⟩ | ⟨reading, enough, rfl⟩
  · rw [conn] at pending isOpen ⊢
    exact kept _ a (aimed n a pending isOpen)
  · obtain ⟨closed, rfl⟩ := pushOpen_ok opened
    rw [conn_readNextChunk (lt_of_lt_of_eq there List.length_set.symm),
      Server.conn_setObject_setConn _ _ _ there] at isOpen ⊢
    simp only at isOpen
    rw [queue_oopen _ _ _ _ _ closed] at isOpen
    exact found.trans isOpen
  · rcases recv_cases s i data with same | ⟨-, ⟨reading, -, same⟩ | ⟨m, -, reading, same⟩⟩
    · rw [same] at pending isOpen ⊢
      exact aimed n a pending isOpen
    · rw [same, Server.conn_setConn_self _ there] at pending
      exact absurd (show (s.conn i).pending = .readChunk n from pending) (by simp [reading])
    · rw [same, Server.conn_setConn_self _ there] at isOpen
      have found := aimed m a reading isOpen
      rw [same, Server.conn_setConn_self _ there]
      exact found
  · rw [(keeps_setOnReadChunk there).queues]
    cases setOnReadChunk_took there (fun b isOpen => h.sited.held i b (.inr isOpen))
      (h.receives.reading i _ reading) enough with
    | failed conn =>
      rw [conn] at pending
      cases pending
    | more conn large same tell receiving =>
      rw [conn] at isOpen ⊢
      exact aimed _ a reading (same ▸ isOpen)
    | stored isOpen conn last ending tell stop published =>
      rw [conn] at pending
      cases pending

theorem call_guards {io : Io} {deletes : Bytes → Prop} (s s' : Server)
    (there : i < s.conns.length) (h : Guards i deletes s) (call : Call i io deletes s s') :
    Guards i deletes s' := by
  obtain ⟨sited, receives⟩ := call_receives s s' there ⟨h.sited, h.receives⟩ call
  refine ⟨sited, receives, fun j n a pending isOpen => ?_, fun j n ne pending => ?_⟩
  · by_cases same : j = i
    · subst same
      exact call_aimed_self there h call pending isOpen
    · rw [call.others there same] at pending isOpen ⊢
      exact call.lookup there (h.aimed j n a pending isOpen) (h.spared j n same pending)
  · rw [call.others there ne] at pending ⊢
    exact h.spared j n ne pending

theorem pushesTo_pending {h : Handler} (pending : h.pending = .readChunk n) :
    pushesTo h.req.queue h = true := by
  simp [pushesTo, pending]

theorem step_aimed {event : ServerEvent} (awake : Awake none s) (sited : Sited s)
    (receives : AllReceiving s) (aimed : Aimed s) (guard : sparesSets s event = true)
    (run : s.Step event s') : Aimed s' := by
  cases step_serves awake run with
  | nothing => exact aimed
  | accept =>
    intro j n a pending isOpen
    rcases conn_accept s _ j with same | new
    · rw [same] at pending isOpen ⊢
      exact aimed j n a pending isOpen
    · rw [new] at pending
      cases pending
  | expire a node => exact aimed
  | @calls i t u _ who there begins calls leaves =>
    have start : Guards i (Deletes s event) t := by
      have conns : ∀ j, t.conn j = s.conn j := fun j =>
        Server.conn_congr begins.conns j
      have queues : t.queues = s.queues := by
        cases begins with
        | ready => rfl
        | woken => rfl
      refine ⟨begins.sited sited, Begins.receives begins receives, fun j n a => ?_, fun j n _ => ?_⟩
      · rw [conns j, queues]
        exact aimed j n a
      · rw [conns j]
        intro pending
        exact spares_busy guard (Server.conn_there (by simp [pending])) (pushesTo_pending pending)
    obtain ⟨there', guards⟩ := calls.invariant call_guards (begins.conns ▸ there) start
    cases leaves with
    | done => exact guards.aimed
    | waits found closed empty =>
      intro j n a
      by_cases same : j = i
      · rw [conn_waits there', if_pos same]
        intro pending
        cases pending
      · rw [conn_waits there', if_neg same]
        exact guards.aimed j n a

theorem step_lookup {event : ServerEvent} {name : Bytes} (awake : Awake none s)
    (found : s.queues.lookup name = some address) (kept : ¬Deletes s event name)
    (run : s.Step event s') : s'.queues.lookup name = some address := by
  cases step_serves awake run with
  | nothing => exact found
  | accept => exact found
  | expire a node => exact found
  | @calls i t u _ who there begins calls leaves =>
    have start : t.queues.lookup name = some address := by
      cases begins with
      | ready => exact found
      | woken => exact found
    have still := (calls.invariant (P := fun t => t.queues.lookup name = some address)
      (fun t t' there found call => call.lookup there found kept)
      (begins.conns ▸ there) start).2
    cases leaves with
    | done => exact still
    | waits => exact still

theorem ordered_blank (image : Store Key Bytes) (path : Bytes) : Ordered (.blank image path) :=
  ⟨rfl, le_refl _⟩

theorem ordered_setObject {q : Queue} (ordered : ∀ a, Ordered (s.object a)) (here : Ordered q)
    (a : ℕ) : Ordered ((s.setObject address q).object a) := by
  rcases s.object_setObject_cases address q a with kept | ⟨-, set⟩
  · rw [kept]
    exact ordered a
  · rw [set]
    exact here

theorem call_ordered {io : Io} {deletes : Bytes → Prop} (s s' : Server)
    (there : i < s.conns.length) (ordered : ∀ a, Ordered (s.object a))
    (call : Call i io deletes s s') (a : ℕ) : Ordered (s'.object a) := by
  rcases call.cases there with ⟨name, -, -, rfl⟩ | ⟨name, b, -, -, rfl⟩ | keeps
  · by_cases new : a = s.objects.length
    · subst new
      rw [Server.object_withQueue_self]
      exact ordered_blank _ _
    · rw [Server.object_withQueue_ne s name new]
      exact ordered a
  · refine ordered_setObject ordered ?_ a
    have unseen := unseen_destroy (s.object b) s.paths
    rw [Ordered, unseen.head, unseen.tail]
    exact ordered b
  · exact (keeps.works a).ordered (ordered a)

theorem step_ordered {event : ServerEvent} (awake : Awake none s)
    (ordered : ∀ a, Ordered (s.object a)) (run : s.Step event s') (a : ℕ) :
    Ordered (s'.object a) := by
  cases step_serves awake run with
  | nothing => exact ordered a
  | accept => exact ordered a
  | expire b node =>
    exact ordered_setObject (q := (s.object b).expireTimer node) ordered (ordered b) a
  | @calls i t u _ who there begins calls leaves =>
    have start : ∀ a, Ordered (t.object a) := by
      cases begins with
      | ready => exact ordered
      | @woken b node w env same due cb => exact ordered_setObject ordered (ordered b)
    have still := (calls.invariant call_ordered (begins.conns ▸ there) start).2
    cases leaves with
    | done => exact still a
    | @waits b waitMs found closed empty =>
      exact ordered_setObject (q := (u.object b).wait waitMs i) still (still b) a

theorem ordered_started (started : s.Started) (a : ℕ) : Ordered (s.object a) := by
  refine Server.object_all (P := Ordered) (fun q mem => ?_) (ordered_blank _ _) a
  obtain ⟨image, path, new⟩ := started.opened q mem
  rcases QueueRecovery.new_cases new with rec | ⟨-, rfl⟩
  · refine ⟨rec.head_type, ?_⟩
    have range := rec.range _ rec.tail_mem
    omega
  · exact ordered_blank _ _

/-- What holds of a server whose steps are all sparesSets. -/
structure Tracked (s : Server) : Prop where
  awake : Awake none s
  sited : Sited s
  receives : AllReceiving s
  aimed : Aimed s
  ordered : ∀ a, Ordered (s.object a)

theorem run_tracked {start : Server} {events : List ServerEvent} (started : start.Started)
    (run : Runs (Guarded (sparesSets · · = true) Server.Step) start events s) : Tracked s := by
  have aimed : Aimed start := by
    intro j n a pending
    rw [started.closed j] at pending
    cases pending
  refine run.preserves (P := Tracked) ?_ (fun _ _ => trivial)
    ⟨awake_started started, sited_started started, receives_started started, aimed,
      ordered_started started⟩
  rintro t event t' - h ⟨guard, step⟩
  exact
    { awake := step_awake t event t' h.awake step
      sited := step_sited h.awake h.sited step
      receives := step_receives h.awake h.sited h.receives step
      aimed := step_aimed h.awake h.sited h.receives h.aimed guard step
      ordered := step_ordered h.awake h.ordered step }

theorem step_reading {event : ServerEvent} (awake : Awake none s)
    (reading : (s.conn i).pending = .readChunk n) (run : s.Step event s') :
    s'.conn i = s.conn i ∨ (∃ m, (s'.conn i).pending = .readChunk m) ∨
    (s'.conn i).pending = .closed ∨
    ∃ env, (n = 0 ∨ s.capacity ≤ (s.conn i).inBuf.length) ∧ s' = s.setOnReadChunk i env := by
  have there : i < s.conns.length := Server.conn_there (by simp [reading])
  by_cases mine : serving s event = some i
  case neg => exact .inl (step_others awake run there mine)
  cases step_reacts awake reading mine run with
  | nothing => exact .inl rfl
  | bytes => exact .inr (.inl ⟨_, by rw [Server.conn_setConn_self _ there]⟩)
  | chunk enough => exact .inr (.inr (.inr ⟨_, enough, rfl⟩))
  | failed => exact .inr (.inr (.inl (by rw [conn_drop there])))

/-- The value under which the item of a `set` is stored: the item, when it is one
chunk, or the header of its chunks. -/
def ItemValue (h h' : Handler) (value : Bytes) : Prop :=
  (∃ stray, value = escape (h.inBuf.take h.req.numBytes) stray) ∨
  (value = h'.pushStream.header.str ∧ h'.pushStream.header.size = h.req.numBytes)

/-- The item that connection `i` has just set can be popped from the queue at
`address`, which is registered under the name of the `set`. -/
structure Visible (s s' : Server) (i address : ℕ) : Prop where
  registered : s'.queues.lookup (s'.conn i).req.queue = some address
  available : (s'.object address).Available (s'.conn i).pushStream.id
  entry : ∃ value, ItemValue (s.conn i) (s'.conn i) value ∧
    (s'.object address).contents.lookup ⟨.queue, (s'.conn i).pushStream.id⟩ = some value

theorem visible_stored {env : Env} (tracked : Tracked s)
    (reading : (s.conn i).pending = .readChunk n)
    (enough : n = 0 ∨ s.capacity ≤ (s.conn i).inBuf.length)
    (answer : ((s.setOnReadChunk i env).conn i).pending =
      .write (ascii "STORED\r\n") .readRequest) :
    ∃ address, Visible s (s.setOnReadChunk i env) i address := by
  have there : i < s.conns.length := Server.conn_there (by simp [reading])
  have receiving := tracked.receives.reading i n reading
  have took : Took i env s (s.setOnReadChunk i env) := setOnReadChunk_took there
    (fun b isOpen => tracked.sited.held i b (.inr isOpen)) receiving enough
  have queues : (s.setOnReadChunk i env).queues = s.queues := (keeps_setOnReadChunk there).queues
  cases took with
  | failed conn =>
    rw [conn] at answer
    cases answer
  | more conn large same tell receiving =>
    rw [conn] at answer
    cases answer
  | @stored a stream isOpen conn last ending tell stop published =>
    obtain ⟨type, ordered⟩ := tracked.ordered a
    have key : (⟨.queue, stream.id⟩ : Key) = (s.object a).queueHead := by
      rw [published.id, ← type]
    refine ⟨a, ?_, .inr ⟨?_, ?_⟩, ?_⟩
    · rw [queues, conn]
      exact tracked.aimed i n a reading isOpen
    · rw [conn, published.tail]
      simp only [published.id]
      exact ordered
    · rw [conn, published.head]
      simp only [published.id]
      exact Nat.lt_succ_self _
    · rw [conn]
      simp only
      rw [key, published.entry]
      refine ⟨_, ?_, rfl⟩
      split
      case isTrue single =>
        -- an item of one chunk is taken from the buffer as a whole
        have filling := receiving.filling
        have start := filling.start
        have last := filling.stop
        have none : (s.conn i).pushStream.tell = 0 := by
          rw [filling.told, show (s.conn i).pushStream.chunkPos -
            (s.conn i).pushStream.header.beg = 0 by omega, Nat.zero_mul]
        exact .inl ⟨env.stray, by rw [none, Nat.sub_zero]⟩
      case isFalse => exact .inr ⟨rfl, tell⟩

/-- In every run in which no queue is deleted while a `set` on it is unfinished, an
item that is answered `STORED` is at that moment available in the queue that is
registered under its name, and that queue stays registered until a later request
deletes it. -/
theorem stored_item_visible {start : Server} {events : List ServerEvent} {event : ServerEvent}
    (started : start.Started)
    (run : Runs (Guarded (sparesSets · · = true) Server.Step) start events s)
    (step : s.Step event s') (reading : (s.conn i).pending = .readChunk n)
    (answer : (s'.conn i).pending = .write (ascii "STORED\r\n") .readRequest) :
    ∃ address, Visible s s' i address ∧ ∀ later t,
      Runs (Guarded (fun u e => ¬Deletes u e (s'.conn i).req.queue) Server.Step) s' later t →
        t.queues.lookup (s'.conn i).req.queue = some address := by
  have tracked := run_tracked started run
  have awake' := step_awake s event s' tracked.awake step
  obtain ⟨env, enough, rfl⟩ : ∃ env, (n = 0 ∨ s.capacity ≤ (s.conn i).inBuf.length) ∧
      s' = s.setOnReadChunk i env := by
    rcases step_reading tracked.awake reading step with same | ⟨m, same⟩ | same | chunk
    · rw [same, reading] at answer
      cases answer
    · rw [same] at answer
      cases answer
    · rw [same] at answer
      cases answer
    · exact chunk
  obtain ⟨a, visible⟩ := visible_stored tracked reading enough answer
  refine ⟨a, visible, fun later t runs => ?_⟩
  have still := runs.preserves (P := fun u => Awake none u ∧
      u.queues.lookup ((s.setOnReadChunk i env).conn i).req.queue = some a)
    (fun u e u' _ h guarded => ⟨step_awake u e u' h.1 guarded.2,
      step_lookup h.1 h.2 guarded.1 guarded.2⟩) (fun _ _ => trivial)
    ⟨awake', visible.registered⟩
  exact still.2

def setBeside : List ServerEvent :=
  let env : Env := ⟨fun _ => true, 0, 0, 0⟩
  [.accept, .recv 0 (ascii "set q 0 0 1\r\n"), .readDone 0 env,
    .accept, .recv 1 (ascii "set r 0 0 1\r\n"), .readDone 1 env, .recv 1 (ascii "x\r\n"),
    .readDone 1 env, .writeDone 1 env, .recv 1 (ascii "flush r\r\n"), .readDone 1 env,
    .recv 0 (ascii "x\r\n")]

theorem stored_item_visible_beside : ∃ s s' address,
    Runs (Guarded (sparesSets · · = true) Server.Step) (.empty 64 [47]) setBeside s ∧
    s.Step (.readDone 0 ⟨fun _ => true, 0, 0, 0⟩) s' ∧ (s'.conn 0).req.queue = ascii "q" ∧
    Visible s s' 0 address := by
  have facts : ((Server.empty 64 [47]).runIf sparesSets setBeside).map (fun s =>
      ((s.conn 0).pending, ((s.setOnReadChunk 0 ⟨fun _ => true, 0, 0, 0⟩).conn 0).pending,
        ((s.setOnReadChunk 0 ⟨fun _ => true, 0, 0, 0⟩).conn 0).req.queue)) =
      some (.readChunk 0, .write (ascii "STORED\r\n") .readRequest, ascii "q") := by decide
  obtain ⟨s, run, facts⟩ := Option.map_eq_some_iff.mp facts
  simp only [Prod.mk.injEq] at facts
  obtain ⟨reading, answer, name⟩ := facts
  have runs := Server.runs_of_runIf run
  have step : s.Step (.readDone 0 ⟨fun _ => true, 0, 0, 0⟩)
      (s.setOnReadChunk 0 ⟨fun _ => true, 0, 0, 0⟩) := by
    simp [Server.Step, Server.step, Server.readDone, reading]
  have started := Server.started_empty 64 [47] (by decide)
  obtain ⟨a, visible, -⟩ := stored_item_visible started runs step reading answer
  exact ⟨s, _, a, runs, step, name, visible⟩

def flushBetween : List ServerEvent :=
  let env : Env := ⟨fun _ => true, 0, 0, 0⟩
  [.accept, .recv 0 (ascii "set q 0 0 1\r\n"), .readDone 0 env,
    .accept, .recv 1 (ascii "flush q\r\n"), .readDone 1 env, .recv 0 (ascii "x\r\n")]

theorem count_available {q : Queue} {id : ℕ} (available : q.Available id) : 0 < q.count := by
  rw [Queue.count]
  rcases available with returned | ⟨low, high⟩
  · have some : 0 < q.returned.card := Finset.card_pos.mpr ⟨id, returned⟩
    omega
  · omega

/-- The client is answered `STORED`, and no item can be popped from the queue that is
registered under its name. -/
theorem stored_item_vanishes : ∃ s s',
    Runs Server.Step (.empty 64 [47]) flushBetween s ∧
    s.Step (.readDone 0 ⟨fun _ => true, 0, 0, 0⟩) s' ∧ (s.conn 0).pending = .readChunk 0 ∧
    (s'.conn 0).pending = .write (ascii "STORED\r\n") .readRequest ∧
    ∀ address, ¬Visible s s' 0 address := by
  have facts : ((Server.empty 64 [47]).run flushBetween).toOption.map (fun s =>
      ((s.conn 0).pending, ((s.setOnReadChunk 0 ⟨fun _ => true, 0, 0, 0⟩).conn 0).pending,
        (s.setOnReadChunk 0 ⟨fun _ => true, 0, 0, 0⟩).queues.lookup
          ((s.setOnReadChunk 0 ⟨fun _ => true, 0, 0, 0⟩).conn 0).req.queue,
        ((s.setOnReadChunk 0 ⟨fun _ => true, 0, 0, 0⟩).object 1).count)) =
      some (.readChunk 0, .write (ascii "STORED\r\n") .readRequest, some 1, 0) := by decide
  cases run : (Server.empty 64 [47]).run flushBetween with
  | error fault => simp [run, Except.toOption] at facts
  | ok s =>
    simp only [run, Except.toOption, Option.map_some, Option.some.injEq, Prod.mk.injEq] at facts
    obtain ⟨reading, answer, found, count⟩ := facts
    have step : s.Step (.readDone 0 ⟨fun _ => true, 0, 0, 0⟩)
        (s.setOnReadChunk 0 ⟨fun _ => true, 0, 0, 0⟩) := by
      simp [Server.Step, Server.step, Server.readDone, reading]
    refine ⟨s, _, Server.runs_of_run run, step, reading, answer, fun a visible => ?_⟩
    have some := count_available visible.available
    obtain rfl := Option.some.inj (found.symm.trans visible.registered)
    omega

end Darner.AcknowledgedSets
