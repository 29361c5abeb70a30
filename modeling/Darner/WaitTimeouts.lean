import Darner.ServerCalls

/-! Gets that end empty-handed. A waiter stays in the line of the queue object that
it found when it began to wait. While nobody deletes that queue, the object is the
one that the map has under the name, and a waiter that times out has seen it empty.
A waiter whose queue was deleted is forgotten in the line of the old object, and
the items of the new one pass it by. -/

namespace Darner.WaitTimeouts
open OrderedStore LabelledRuns ServerMoves ServerWaiters ServerCalls

variable {s s' t : Server} {i address : ℕ}

def waitsFor (name : Bytes) (h : Handler) : Bool :=
  match h.pending with
  | .wait _ _ => h.req.queue = name
  | _ => false

/-- No queue is deleted while a connection waits for its items. -/
def patient : Server → ServerEvent → Bool := spares waitsFor

def TimesOut (s : Server) (address node : ℕ) (w : Waiter) : Prop :=
  s.dueWaiter address node = some w ∧ ((s.object address).waiterWakeup node).2 = false

/-- Every waiter is in the line of the queue that is registered under the name it
waits for. -/
def Parked (s : Server) : Prop :=
  ∀ address, ∀ w ∈ (s.object address).waiters,
    s.queues.lookup (s.conn w.cb).req.queue = some address

/-- While connection `i` works: it is in no line, and deletes no queue that has one. -/
structure Attended (i : ℕ) (deletes : Bytes → Prop) (s : Server) : Prop where
  parked : Parked s
  away : ∀ address, ∀ w ∈ (s.object address).waiters, w.cb ≠ i
  spared : ∀ address, ∀ w ∈ (s.object address).waiters, ¬deletes (s.conn w.cb).req.queue

theorem Attended.keeps {deletes : Bytes → Prop} (h : Attended i deletes s)
    (others : ∀ j ≠ i, s'.conn j = s.conn j)
    (waiters : ∀ a, ∀ w' ∈ (s'.object a).waiters, ∃ w ∈ (s.object a).waiters,
      w.node = w'.node ∧ w.cb = w'.cb)
    (lookup : ∀ name a, ¬deletes name → s.queues.lookup name = some a →
      s'.queues.lookup name = some a) : Attended i deletes s' := by
  have old : ∀ a, ∀ w' ∈ (s'.object a).waiters, w'.cb ≠ i ∧
      ¬deletes (s'.conn w'.cb).req.queue ∧
      s'.queues.lookup (s'.conn w'.cb).req.queue = some a := by
    intro a w' mem
    obtain ⟨w, mem, -, cb⟩ := waiters a w' mem
    have away := h.away a w mem
    rw [← cb, others w.cb away]
    exact ⟨away, h.spared a w mem, lookup _ a (h.spared a w mem) (h.parked a w mem)⟩
  exact ⟨fun a w mem => (old a w mem).2.2, fun a w mem => (old a w mem).1,
    fun a w mem => (old a w mem).2.1⟩

theorem call_attended {io : Io} {deletes : Bytes → Prop} (s s' : Server)
    (there : i < s.conns.length) (h : Attended i deletes s) (call : Call i io deletes s s') :
    Attended i deletes s' := by
  refine h.keeps (fun j ne => call.others there ne) (fun b w mem => ?_)
    fun other b kept found => call.lookup there found kept
  rcases call.cases there with ⟨name, free, -, rfl⟩ | ⟨name, a, asked, -, rfl⟩ | keeps
  · by_cases new : b = s.objects.length
    · subst new
      rw [Server.object_withQueue_self] at mem
      cases mem
    · rw [Server.object_withQueue_ne s name new] at mem
      exact ⟨w, mem, rfl, rfl⟩
  · by_cases same : b = a
    · subst same
      have made := Server.waiter_there mem
      have made : b < s.objects.length := lt_of_lt_of_eq made List.length_set
      have self : (s.withoutQueue name b).object b = (s.object b).destroy s.paths :=
        Server.object_setObject_self _ made
      rw [self] at mem
      exact (nudges_destroy _ _).waiters w mem
    · have same : (s.withoutQueue name a).object b = s.object b :=
        Server.object_setObject_ne s _ same
      rw [same] at mem
      exact ⟨w, mem, rfl, rfl⟩
  · exact (keeps.works b).nudges.waiters w mem

theorem waitsFor_pending {h : Handler} {node : ℕ} (pending : h.pending = .wait address node) :
    waitsFor h.req.queue h = true := by
  simp [waitsFor, pending]

theorem patient_spared {event : ServerEvent} {j node : ℕ} (patient : patient s event = true)
    (pending : (s.conn j).pending = .wait address node) :
    ¬Deletes s event (s.conn j).req.queue :=
  spares_busy patient (Server.conn_there (by simp [pending])) (waitsFor_pending pending)

theorem begins_attended {event : ServerEvent} (awake : Awake none s) (parked : Parked s)
    (patient : patient s event = true) (begins : Begins i event s t) :
    Attended i (Deletes s event) t := by
  have pending : ∀ a, ∀ w ∈ (s.object a).waiters, (s.conn w.cb).pending = .wait a w.node :=
    fun a w mem => (awake.waits a w mem).2.pending
  cases begins with
  | ready away =>
    refine ⟨parked, fun a w mem => ?_, fun a w mem => ?_⟩
    · rintro rfl
      exact away _ _ (pending a w mem)
    · exact patient_spared patient (pending a w mem)
  | @woken a node w env same due cb =>
    obtain ⟨mem, isNode⟩ := dueWaiter_mem due
    have made := Server.waiter_there mem
    -- the others are in line as before, and none of them is the one that left
    have old : ∀ b, ∀ w' ∈ ((s.setObject a ((s.object a).waiterWakeup node).1).object b).waiters,
        w' ∈ (s.object b).waiters ∧ w'.cb ≠ i := by
      intro b w' mem'
      have was : w' ∈ (s.object b).waiters ∧ (b = a → w'.node ≠ node) := by
        by_cases here : b = a
        · subst here
          rw [Server.object_setObject_self _ made] at mem'
          obtain ⟨old, ne⟩ := waiters_waiterWakeup _ _ w' mem'
          exact ⟨old, fun _ => ne⟩
        · rw [Server.object_setObject_ne s _ here] at mem'
          exact ⟨mem', fun wrong => absurd wrong here⟩
      refine ⟨was.1, fun same => ?_⟩
      have one := pending a w mem
      have two := pending b w' was.1
      rw [cb] at one
      rw [same, one] at two
      obtain ⟨rfl, node'⟩ := Pending.wait.inj two
      exact was.2 rfl (node'.symm.trans isNode)
    refine ⟨fun b w' mem' => parked b w' (old b w' mem').1, fun b w' mem' => (old b w' mem').2,
      fun b w' mem' => ?_⟩
    exact patient_spared patient (pending b w' (old b w' mem').1)

theorem leaves_parked {deletes : Bytes → Prop} (there : i < s.conns.length) (named : Named s)
    (h : Attended i deletes s) (leaves : Leaves i s s') : Parked s' := by
  cases leaves with
  | done => exact h.parked
  | @waits a waitMs found closed empty =>
    have made := named _ a found
    intro b w mem
    have conn : ∀ j ≠ i, ((s.setObject a ((s.object a).wait waitMs i)).setPending i
        (.wait a (s.object a).nextNode)).conn j = s.conn j :=
      fun j ne => Server.conn_setConn_ne _ _ ne
    have old : ∀ {w : Waiter}, w ∈ (s.object b).waiters → s.queues.lookup
        (((s.setObject a ((s.object a).wait waitMs i)).setPending i
          (.wait a (s.object a).nextNode)).conn w.cb).req.queue = some b := by
      intro w mem
      rw [conn w.cb (h.away b w mem)]
      exact h.parked b w mem
    by_cases here : b = a
    · subst here
      have self := Server.object_setObject_self ((s.object b).wait waitMs i) made
      have mem : w ∈ ((s.object b).wait waitMs i).waiters := self ▸ mem
      rcases List.mem_append.mp mem with before | new
      · exact old before
      · obtain rfl := List.mem_singleton.mp new
        have self := Server.conn_setObject_setConn b ((s.object b).wait waitMs i)
          { s.conn i with pending := .wait b (s.object b).nextNode } there
        exact (congrArg (fun h : Handler => s.queues.lookup h.req.queue) self).trans found
    · have kept := Server.object_setObject_ne s ((s.object a).wait waitMs i) here
      exact old (kept ▸ mem)

theorem step_parked {event : ServerEvent} (awake : Awake none s) (parked : Parked s)
    (patient : patient s event = true) (step : s.Step event s') : Parked s' := by
  rcases step_serves awake step with - | - | ⟨a, node⟩ | ⟨-, there, begins, calls, leaves⟩
  · exact parked
  · intro a w mem
    have pending := (awake.waits a w mem).2.pending
    have connected : w.cb < s.conns.length := Server.conn_there (by simp [pending])
    have row : (s.conns ++ [({} : Handler)])[w.cb]? = s.conns[w.cb]? :=
      List.getElem?_append_left connected
    have same := congrArg (·.getD { pending := .closed }) row
    exact (congrArg (fun h : Handler => s.queues.lookup h.req.queue) same).trans (parked a w mem)
  · intro b w mem
    rcases s.object_setObject_cases a ((s.object a).expireTimer node) b with kept | ⟨rfl, set⟩
    · rw [kept] at mem
      exact parked b w mem
    · rw [set] at mem
      obtain ⟨w', mem', -, cb⟩ := (nudges_expireTimer _ node).waiters w mem
      rw [← cb]
      exact parked b w' mem'
  · have start := begins_attended awake parked patient begins
    have there' := begins.conns ▸ there
    obtain ⟨there'', attended⟩ := calls.invariant call_attended there' start
    have named := (calls.invariant call_named there' (begins.named awake.made)).2
    exact leaves_parked there'' named attended leaves

theorem run_parked {start : Server} {events : List ServerEvent} (started : start.Started)
    (run : Runs (Guarded (patient · · = true) Server.Step) start events s) :
    Awake none s ∧ Parked s := by
  have empty : Parked start := by
    intro a w mem
    have waits := ((awake_started started).waits a w mem).2
    have connected := Server.conn_there (by simp [waits.pending] : (start.conn w.cb).pending ≠ .closed)
    rw [started.conns] at connected
    exact absurd connected (Nat.not_lt_zero _)
  refine run.preserves (P := fun s => Awake none s ∧ Parked s) ?_ (fun _ _ => trivial)
    ⟨awake_started started, empty⟩
  rintro t event t' - ⟨awake, parked⟩ ⟨guard, step⟩
  exact ⟨step_awake t event t' awake step, step_parked awake parked guard step⟩

/-- The get that timed out is answered `END`, and the queue that is registered under
its name, if there is one, has nothing for it. -/
structure EmptyHanded (s s' : Server) (w : Waiter) : Prop where
  answer : (s'.conn w.cb).pending = .write (ascii "END\r\n") .readRequest
  empty : ∀ a, s'.queues.lookup (s.conn w.cb).req.queue = some a → (s'.object a).count = 0

theorem callback_timesOut {node : ℕ} {w : Waiter} {env : Env} (awake : Awake none s)
    (timesOut : TimesOut s address node w) (step : s.Step (.callback address node env) s') :
    (s'.conn w.cb).pending = .write (ascii "END\r\n") .readRequest ∧ s'.queues = s.queues ∧
      ∀ a, (s'.object a).count = (s.object a).count := by
  obtain ⟨due, told⟩ := timesOut
  obtain ⟨mem, -⟩ := dueWaiter_mem due
  have pending := (awake.waits address w mem).2.pending
  have there : w.cb < s.conns.length := Server.conn_there (by simp [pending])
  have there' : w.cb <
    (s.setObject address ((s.object address).waiterWakeup node).1).conns.length := there
  have same : s' = (s.setObject address ((s.object address).waiterWakeup node).1).end_ w.cb
      "END\r\n" := by
    have run : s.callback address node env = .ok s' := step
    simp only [Server.callback, due, told, Bool.false_eq_true, if_false] at run
    exact (Except.ok.inj run).symm
  rw [same]
  refine ⟨?_, rfl, fun a => ?_⟩
  · rw [Server.end_, FetchDeeds.conn_reply there']
  · change ((s.setObject address ((s.object address).waiterWakeup node).1).object a).count = _
    by_cases here : a = address
    · subst here
      rw [Server.object_setObject_self _ (Server.waiter_there mem)]
      rfl
    · rw [Server.object_setObject_ne s _ here]

/-- In every run in which no queue is deleted while a get waits for it, a get that
times out leaves with empty hands only. -/
theorem timeout_finds_empty {start : Server} {events : List ServerEvent} {node : ℕ} {w : Waiter}
    {env : Env} (started : start.Started)
    (run : Runs (Guarded (patient · · = true) Server.Step) start events s)
    (timesOut : TimesOut s address node w) (step : s.Step (.callback address node env) s') :
    EmptyHanded s s' w := by
  obtain ⟨awake, parked⟩ := run_parked started run
  obtain ⟨answer, queues, counts⟩ := callback_timesOut awake timesOut step
  obtain ⟨mem, -⟩ := dueWaiter_mem timesOut.1
  refine ⟨answer, fun a found => ?_⟩
  -- the line that the waiter leaves is the line of the registered queue
  rw [queues, parked address w mem] at found
  obtain rfl := Option.some.inj found
  have none : ¬0 < ((s.object address).waiterWakeup node).1.count := by
    rw [← Queue.hasItem_iff]
    exact Bool.not_eq_true _ ▸ timesOut.2
  rw [counts]
  exact Nat.eq_zero_of_not_pos none

theorem step_timesOut {node : ℕ} {w : Waiter} (timesOut : TimesOut s address node w) (env : Env) :
    ∃ s', s.Step (.callback address node env) s' := by
  refine ⟨(s.setObject address ((s.object address).waiterWakeup node).1).end_ w.cb "END\r\n", ?_⟩
  simp [Server.Step, Server.step, Server.callback, timesOut.1, timesOut.2]

def waitOut : List ServerEvent :=
  let env : Env := ⟨fun _ => true, 0, 0, 0⟩
  [.accept, .recv 0 (ascii "get q/t=9\r\n"), .readDone 0 env,
    .accept, .recv 1 (ascii "set r 0 0 1\r\n"), .readDone 1 env, .recv 1 (ascii "x\r\n"),
    .readDone 1 env, .writeDone 1 env, .recv 1 (ascii "flush r\r\n"), .readDone 1 env,
    .expire 0 0]

theorem timeout_finds_empty_beside : ∃ s s' w,
    Runs (Guarded (patient · · = true) Server.Step) (.empty 64 [47]) waitOut s ∧
    TimesOut s 0 0 w ∧ s.Step (.callback 0 0 ⟨fun _ => true, 0, 0, 0⟩) s' ∧ EmptyHanded s s' w := by
  have facts : ((Server.empty 64 [47]).runIf patient waitOut).map (fun s =>
      ((s.dueWaiter 0 0).isSome, ((s.object 0).waiterWakeup 0).2)) = some (true, false) := by decide
  obtain ⟨s, run, facts⟩ := Option.map_eq_some_iff.mp facts
  obtain ⟨due, told⟩ := Prod.mk.inj facts
  obtain ⟨w, due⟩ := Option.isSome_iff_exists.mp due
  have timesOut : TimesOut s 0 0 w := ⟨due, told⟩
  have runs := Server.runs_of_runIf run
  obtain ⟨s', step⟩ := step_timesOut timesOut ⟨fun _ => true, 0, 0, 0⟩
  have started := Server.started_empty 64 [47] (by decide)
  exact ⟨s, s', w, runs, timesOut, step, timeout_finds_empty started runs timesOut step⟩

def flushMeanwhile : List ServerEvent :=
  let env : Env := ⟨fun _ => true, 0, 0, 0⟩
  [.accept, .recv 0 (ascii "get q/t=9\r\n"), .readDone 0 env,
    .accept, .recv 1 (ascii "flush q\r\n"), .readDone 1 env, .writeDone 1 env,
    .recv 1 (ascii "set q 0 0 1\r\n"), .readDone 1 env, .recv 1 (ascii "x\r\n"), .readDone 1 env,
    .expire 0 0]

/-- The get that waits on the flushed queue is answered `END` while the queue that is
registered under its name has an item. -/
theorem timeout_misses_item : ∃ s s' w,
    Runs Server.Step (.empty 64 [47]) flushMeanwhile s ∧ TimesOut s 0 0 w ∧
    s.Step (.callback 0 0 ⟨fun _ => true, 0, 0, 0⟩) s' ∧
    (s.conn w.cb).req.queue = ascii "q" ∧ ¬EmptyHanded s s' w := by
  have facts : ((Server.empty 64 [47]).run flushMeanwhile).toOption.map (fun s =>
      ((s.dueWaiter 0 0).map Waiter.cb, ((s.object 0).waiterWakeup 0).2, (s.conn 0).req.queue,
        s.queues.lookup (ascii "q"), (s.object 1).count)) =
        some (some 0, false, ascii "q", some 1, 1) := by decide
  cases run : (Server.empty 64 [47]).run flushMeanwhile with
  | error fault => simp [run, Except.toOption] at facts
  | ok s =>
    simp only [run, Except.toOption, Option.map_some, Option.some.injEq, Prod.mk.injEq] at facts
    obtain ⟨due, told, name, found, count⟩ := facts
    obtain ⟨w, due, cb⟩ := Option.map_eq_some_iff.mp due
    have timesOut : TimesOut s 0 0 w := ⟨due, told⟩
    have runs := Server.runs_of_run run
    have started := Server.started_empty 64 [47] (by decide)
    have reach : Reachable Server.Step (.empty 64 [47]) s := ⟨_, runs⟩
    have awake := reach.invariant (awake_started started) step_awake
    obtain ⟨s', step⟩ := step_timesOut timesOut ⟨fun _ => true, 0, 0, 0⟩
    obtain ⟨-, queues, counts⟩ := callback_timesOut awake timesOut step
    refine ⟨s, s', w, runs, timesOut, step, by rw [cb, name], fun empty => ?_⟩
    have none := empty.empty 1 (by rw [cb, name, queues, found])
    rw [counts, count] at none
    cases none

end Darner.WaitTimeouts
