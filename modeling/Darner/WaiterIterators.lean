import Darner.Library.ListIterators
import Darner.QueueWaiters

/-! The iterators of the waiter list. `wake_up_it_` is a cursor into a list that grows at
its end and loses nodes anywhere; `waiter_wakeup` holds an iterator that was bound when
the wait began, and is called by the io_service once, when the timer has completed. Here
every use of an iterator is checked, and what the io_service holds is part of the state. -/

namespace Darner.WaiterIterators
open OrderedStore LabelledRuns ListIterators QueueFifo

def wakeUp (q : Queue) : Option (Queue × List ℕ) :=
  if q.wakeUpIt = none then some (q, [])
  else do
    let waiter ← deref Waiter.node q.waiters q.wakeUpIt
    let next ← advance Waiter.node q.waiters q.wakeUpIt
    pure ({ q with waiters := q.waiters.map (Queue.cancelTimer waiter.node), wakeUpIt := next },
      [waiter.node])

/-- `if (waiter_it == wake_up_it_) ++wake_up_it_`. -/
def cursorPast (q : Queue) (it : ℕ) : Option (Option ℕ) :=
  if some it = q.wakeUpIt then advance Waiter.node q.waiters q.wakeUpIt else some q.wakeUpIt

def waiterWakeup (q : Queue) (it : ℕ) : Option (Queue × Waiter) := do
  let next ← cursorPast q it
  let waiter ← deref Waiter.node q.waiters (some it)
  pure ({ q with wakeUpIt := next, waiters := q.waiters.filter (·.node ≠ it) }, waiter)

def pushValue (q : Queue) (value : Bytes) (sync ok : Bool) :
    Option (Except Error (ℕ × Queue) × List ℕ) :=
  match q.put q.queueHead value sync ok with
  | .error e => some (.error e, [])
  | .ok q => do
    let id := q.queueHead.id
    let woken ← wakeUp { q with queueHead := { q.queueHead with id := id + 1 } }
    pure (.ok (id, woken.1), woken.2)

def popEnd (q : Queue) (erase : Bool) (id : ℕ) (header : Header) (ok : Bool) :
    Option (Except Error Queue × List ℕ) :=
  if erase then some (q.popEnd true id header ok, [])
  else do
    let woken ← wakeUp { q with returned := insert id q.returned }
    pure (.ok { woken.1 with itemsOpen := woken.1.itemsOpen - 1 }, woken.2)

def exec (s : Session) : Call → Option ((Session × Reply) × List ℕ)
  | .push item stray sync ok => do
    let pushed ← pushValue s.queue (escape item stray) sync ok
    pure (s.ofPush pushed.1, pushed.2)
  | .pushHeader header sync ok => do
    let pushed ← pushValue s.queue header.str sync ok
    pure (s.ofPush pushed.1, pushed.2)
  | .popEnd erase id header ok =>
    if id ∈ s.held then do
      let ended ← popEnd s.queue erase id header ok
      match ended.1 with
      | .ok q => pure ((⟨q, s.held.erase id⟩, .ended), ended.2)
      | .error e => pure ((s, .threw e), ended.2)
    else some ((s, .ended), [])
  | call => some (s.exec call, [])

/-- A queue and the io_service that runs its timers. -/
structure Service where
  session : Session
  /-- The iterators bound to the handlers of `async_wait` that did not run yet. -/
  pending : List ℕ := []
  /-- The waiter that `waiter_wakeup` has released, while its callback runs. -/
  running : Option Waiter := none
  waited : List ℕ := []
  signalled : List ℕ := []
  invoked : List ℕ := []

namespace Service

abbrev queue (s : Service) : Queue := s.session.queue

inductive Event where
  | call (call : Call)
  | wait (waitMs cb : ℕ)
  | expire (node : ℕ)
  | wakeup (node : ℕ)
  | done

/-- A handler runs when no other does, and not before the timer of its waiter has
completed. -/
def Enabled (s : Service) : Event → Prop
  | .call _ => True
  | .wait _ _ => True
  | .expire node => ∃ w ∈ s.queue.waiters, w.node = node
  | .wakeup node => s.running = none ∧ node ∈ s.pending ∧
      ∀ w ∈ s.queue.waiters, w.node = node → w.due = true
  | .done => s.running.isSome

/-- What an event does; there is no result when an iterator is used that must not be. -/
def next (s : Service) : Event → Option Service
  | .call call => do
    let called ← exec s.session call
    pure { s with session := called.1.1, signalled := s.signalled ++ called.2 }
  | .wait waitMs cb =>
    some { s with
      session := { s.session with queue := s.queue.wait waitMs cb }
      pending := s.pending ++ [s.queue.nextNode]
      waited := s.waited ++ [s.queue.nextNode] }
  | .expire node => some { s with session := { s.session with queue := s.queue.expireTimer node } }
  | .wakeup node => do
    let woken ← waiterWakeup s.queue node
    pure { s with
      session := { s.session with queue := woken.1 }
      pending := s.pending.erase node
      running := some woken.2
      invoked := s.invoked ++ [woken.2.node] }
  | .done => some { s with running := none }

def Step (s : Service) (event : Event) (t : Service) : Prop :=
  s.Enabled event ∧ s.next event = some t

instance (s : Service) : (event : Event) → Decidable (s.Enabled event)
  | .call _ => inferInstanceAs (Decidable True)
  | .wait _ _ => inferInstanceAs (Decidable True)
  | .expire node => inferInstanceAs (Decidable (∃ w ∈ s.queue.waiters, w.node = node))
  | .wakeup node => inferInstanceAs (Decidable (s.running = none ∧ node ∈ s.pending ∧
      ∀ w ∈ s.queue.waiters, w.node = node → w.due = true))
  | .done => inferInstanceAs (Decidable (s.running.isSome = true))

def run (s : Service) : List Event → Option Service
  | [] => some s
  | event :: events => if s.Enabled event then (s.next event).bind fun t => t.run events else none

theorem reachable_run {start s t : Service} {events : List Event}
    (reach : Reachable Step start s) (run : s.run events = some t) : Reachable Step start t := by
  induction events generalizing s with
  | nil => exact Option.some.inj run ▸ reach
  | cons event events ih =>
    rw [Service.run] at run
    split at run
    case isTrue enabled =>
      obtain ⟨u, next, rest⟩ := Option.bind_eq_some_iff.mp run
      exact ih (reach.next ⟨enabled, next⟩) rest
    case isFalse => cases run

end Service

/-! No iterator is used that must not be: the checked methods give what the methods of
the queue give. -/

variable {q q' : Queue} {front back : List Waiter}

theorem wakeUp_eq (line : q.Line front back) : wakeUp q = some (q.wakeUp, q.wakeUpIt.toList) := by
  have it := line.it
  cases back with
  | nil =>
    have none : q.wakeUpIt = none := it
    rw [wakeUp, if_pos none, Queue.wakeUp, none]
    rfl
  | cons w rest =>
    have here : q.wakeUpIt = some w.node := it
    have away := line.next.1
    have found : deref Waiter.node q.waiters (some w.node) = some w := by
      rw [line.split, deref_split away]
    have next : advance Waiter.node q.waiters (some w.node) = some (rest.head?.map Waiter.node) := by
      rw [line.split, advance_split away]
    have after : Queue.after q.waiters w.node = rest.head?.map Waiter.node := by
      rw [line.split, Queue.after_split _ _ _ away]
    simp [wakeUp, Queue.wakeUp, here, found, next, after]

theorem cursorPast_eq (line : q.Line front back) (it : ℕ) :
    cursorPast q it =
      some (if q.wakeUpIt = some it then Queue.after q.waiters it else q.wakeUpIt) := by
  unfold cursorPast
  by_cases cursor : q.wakeUpIt = some it
  · rw [if_pos cursor.symm, if_pos cursor]
    have here := line.it.symm.trans cursor
    cases back with
    | nil => cases here
    | cons w rest =>
      obtain rfl : w.node = it := Option.some.inj here
      have away := line.next.1
      rw [cursor, line.split, advance_split away, Queue.after_split _ _ _ away]
  · rw [if_neg fun same => cursor same.symm, if_neg cursor]

theorem waiterWakeup_eq (line : q.Line front back) {it : ℕ}
    (mem : it ∈ q.waiters.map Waiter.node) :
    ∃ w ∈ q.waiters, w.node = it ∧ waiterWakeup q it = some ((q.waiterWakeup it).1, w) := by
  obtain ⟨w, there, same, found⟩ := deref_mem mem
  refine ⟨w, there, same, ?_⟩
  rw [waiterWakeup, cursorPast_eq line, found]
  rfl

structure LineMoves (q q' : Queue) (told : List ℕ) : Prop where
  nextNode : q'.nextNode = q.nextNode
  line : ∀ {front back}, q.Line front back → ∃ front' back', q'.Line front' back' ∧
    front'.map Waiter.node = front.map Waiter.node ++ told ∧
    back.map Waiter.node = told ++ back'.map Waiter.node

theorem moves_quiet (waiters : q'.waiters = q.waiters) (it : q'.wakeUpIt = q.wakeUpIt)
    (node : q'.nextNode = q.nextNode) : LineMoves q q' [] where
  nextNode := node
  line line := ⟨_, _, line.congr waiters it node, by rw [List.append_nil], rfl⟩

theorem moves_wakeUp (q : Queue) : LineMoves q q.wakeUp q.wakeUpIt.toList where
  nextNode := by
    obtain ⟨waiters, it, same⟩ := q.wakeUp_eq
    rw [same]
  line {front back} line := by
    have it := line.it
    rcases line.wakeUp with ⟨rfl, still⟩ | ⟨w, rest, rfl, moved⟩
    · rw [still, it]
      exact ⟨_, _, line, by simp, by simp⟩
    · rw [it]
      exact ⟨_, _, moved, by simp, by simp⟩

theorem LineMoves.trans {p : Queue} {told told' : List ℕ} (first : LineMoves q p told)
    (second : LineMoves p q' told') : LineMoves q q' (told ++ told') where
  nextNode := second.nextNode.trans first.nextNode
  line line := by
    obtain ⟨front, back, line', front_eq, back_eq⟩ := first.line line
    obtain ⟨front', back', line'', front_eq', back_eq'⟩ := second.line line'
    refine ⟨front', back', line'', ?_, ?_⟩
    · rw [front_eq', front_eq, List.append_assoc]
    · rw [back_eq, back_eq', List.append_assoc]

theorem pushValue_eq {s : Session} (line : s.queue.Line front back) (value : Bytes)
    (sync ok : Bool) :
    ∃ told, pushValue s.queue value sync ok = some (s.queue.pushValue value sync ok, told) ∧
      LineMoves s.queue (s.ofPush (s.queue.pushValue value sync ok)).1.queue told := by
  cases ok with
  | false => exact ⟨[], rfl, moves_quiet rfl rfl rfl⟩
  | true =>
    have quiet : LineMoves s.queue (s.queue.pushed value sync) [] := moves_quiet rfl rfl rfl
    have line' : (s.queue.pushed value sync).Line front back := line.congr rfl rfl rfl
    refine ⟨(s.queue.pushed value sync).wakeUpIt.toList, ?_, quiet.trans (moves_wakeUp _)⟩
    change (wakeUp (s.queue.pushed value sync)).bind _ = _
    rw [wakeUp_eq line']
    rfl

theorem popEnd_eq (line : q.Line front back) (erase : Bool) (id : ℕ) (header : Header) (ok : Bool) :
    ∃ told, popEnd q erase id header ok = some (q.popEnd erase id header ok, told) ∧
      (∀ e, q.popEnd erase id header ok = .error e → told = []) ∧
      ∀ q', q.popEnd erase id header ok = .ok q' → LineMoves q q' told := by
  cases erase with
  | true =>
    refine ⟨[], rfl, fun _ _ => rfl, fun q' pop => ?_⟩
    obtain ⟨bytes, ranges, rfl⟩ := Queue.popEnd_erase pop
    exact moves_quiet rfl rfl rfl
  | false =>
    have line' : ({ q with returned := insert id q.returned } : Queue).Line front back :=
      line.congr rfl rfl rfl
    refine ⟨q.wakeUpIt.toList, ?_, fun e failed => ?_, fun q' pop => ?_⟩
    · rw [popEnd, if_neg Bool.false_ne_true, wakeUp_eq line']
      rfl
    · cases failed
    · have quiet : LineMoves q (q.putBack id) [] := moves_quiet rfl rfl rfl
      rw [Queue.popEnd_return] at pop
      rw [← Except.ok.inj pop]
      exact quiet.trans (moves_wakeUp _)

theorem exec_eq {s : Session} (line : s.queue.Line front back) (call : Call) :
    ∃ told, exec s call = some (s.exec call, told) ∧ LineMoves s.queue (s.exec call).1.queue told := by
  have still : LineMoves s.queue s.queue [] := moves_quiet rfl rfl rfl
  cases call with
  | push item stray sync ok =>
    obtain ⟨told, checked, moves⟩ := pushValue_eq line (escape item stray) sync ok
    exact ⟨told, by rw [exec, checked]; rfl, moves⟩
  | pushHeader header sync ok =>
    obtain ⟨told, checked, moves⟩ := pushValue_eq line header.str sync ok
    exact ⟨told, by rw [exec, checked]; rfl, moves⟩
  | popBegin =>
    refine ⟨[], rfl, ?_⟩
    simp only [Session.exec]
    split
    case h_1 id q pop =>
      rcases Queue.popBegin_some pop with ⟨-, -, rfl⟩ | ⟨-, -, -, rfl⟩ <;>
        exact moves_quiet rfl rfl rfl
    case h_2 => exact still
  | popEnd erase id header ok =>
    simp only [exec, Session.exec]
    split
    case isTrue mem =>
      obtain ⟨told, checked, quiet, moves⟩ := popEnd_eq line erase id header ok
      rw [checked]
      cases ended : s.queue.popEnd erase id header ok with
      | error e =>
        obtain rfl := quiet e ended
        exact ⟨[], rfl, still⟩
      | ok q => exact ⟨told, rfl, moves q ended⟩
    case isFalse => exact ⟨[], rfl, still⟩
  | count => exact ⟨[], rfl, still⟩
  | reserveChunks count => exact ⟨[], rfl, moves_quiet rfl rfl rfl⟩
  | writeChunk chunk chunkKey ok =>
    refine ⟨[], rfl, ?_⟩
    simp only [Session.exec, Session.ofChunk]
    split
    case h_1 q put =>
      obtain rfl := Queue.put_ok put
      exact moves_quiet rfl rfl rfl
    case h_2 => exact still
  | eraseChunks header ok =>
    refine ⟨[], rfl, ?_⟩
    simp only [Session.exec, Session.ofChunk]
    split
    case h_1 q write =>
      obtain rfl := Queue.write_ok write
      exact moves_quiet rfl rfl rfl
    case h_2 => exact still

/-- The line of the waiters, with what the io_service holds and has done. -/
structure Orderly (s : Service) (front back : List Waiter) : Prop where
  line : s.queue.Line front back
  pending : s.pending = s.queue.waiters.map Waiter.node
  waited : s.waited = List.range s.queue.nextNode
  inOrder : (s.signalled ++ back.map Waiter.node).Pairwise (· < ·)
  told : front.map Waiter.node ⊆ s.signalled
  made : ∀ node ∈ s.signalled ++ s.invoked, node < s.queue.nextNode
  once : s.invoked.Nodup
  gone : ∀ node ∈ s.invoked, node ∉ s.queue.waiters.map Waiter.node

namespace Orderly

variable {s t : Service}

theorem nodes (h : Orderly s front back) :
    s.queue.waiters.map Waiter.node = front.map Waiter.node ++ back.map Waiter.node := by
  rw [h.line.split, List.map_append]

theorem node_lt (h : Orderly s front back) {node : ℕ}
    (mem : node ∈ s.queue.waiters.map Waiter.node) : node < s.queue.nextNode := by
  obtain ⟨w, there, rfl⟩ := List.mem_map.mp mem
  exact h.line.fresh w there

theorem call (h : Orderly s front back) (call : Call) :
    ∃ t front' back', s.next (.call call) = some t ∧ Orderly t front' back' := by
  obtain ⟨told, checked, moves⟩ := exec_eq h.line call
  obtain ⟨front', back', line, front_eq, back_eq⟩ := moves.line h.line
  -- the same waiters are in the list, and those told are now on its front
  have nodes : (s.session.exec call).1.queue.waiters.map Waiter.node =
      s.queue.waiters.map Waiter.node := by
    rw [line.split, List.map_append, front_eq, List.append_assoc, ← back_eq, ← h.nodes]
  refine ⟨_, front', back', by rw [Service.next, checked]; rfl, ?_⟩
  refine
    { line := line
      pending := h.pending.trans nodes.symm
      waited := by rw [h.waited, moves.nextNode]
      inOrder := ?_, told := ?_, made := ?_
      once := h.once
      gone := fun node mem => by rw [nodes]; exact h.gone node mem }
  · have inOrder := h.inOrder
    rwa [back_eq, ← List.append_assoc] at inOrder
  · rw [front_eq]
    exact List.append_subset.mpr ⟨fun node mem => List.mem_append_left _ (h.told mem),
      List.subset_append_right _ _⟩
  · intro node mem
    rw [moves.nextNode]
    rcases List.mem_append.mp mem with signalled | invoked
    · rcases List.mem_append.mp signalled with old | new
      · exact h.made node (List.mem_append_left _ old)
      · refine h.node_lt ?_
        rw [h.nodes, back_eq]
        exact List.mem_append_right _ (List.mem_append_left _ new)
    · exact h.made node (List.mem_append_right _ invoked)

theorem wait (h : Orderly s front back) (waitMs cb : ℕ) :
    ∃ t front' back', s.next (.wait waitMs cb) = some t ∧ Orderly t front' back' := by
  refine ⟨_, front, back ++ [⟨s.queue.nextNode, cb, waitMs, false, false⟩], rfl, ?_⟩
  refine
    { line := h.line.wait waitMs cb
      pending := ?_, waited := ?_, inOrder := ?_
      told := h.told
      made := fun node mem => Nat.lt_succ_of_lt (h.made node mem)
      once := h.once
      gone := ?_ }
  · simp [h.pending, Queue.wait]
  · simp [h.waited, Queue.wait, List.range_succ]
  · rw [List.map_append, ← List.append_assoc, List.pairwise_append]
    refine ⟨h.inOrder, List.pairwise_singleton _ _, ?_⟩
    intro node mem last same
    rw [List.map_singleton, List.mem_singleton] at same
    rw [same]
    rcases List.mem_append.mp mem with old | old
    · exact h.made node (List.mem_append_left _ old)
    · refine h.node_lt ?_
      rw [h.nodes]
      exact List.mem_append_right _ old
  · intro node mem there
    rw [Service.queue, Queue.wait, List.map_append, List.map_singleton, List.mem_append,
      List.mem_singleton] at there
    rcases there with old | rfl
    · exact h.gone node mem old
    · exact absurd (h.made _ (List.mem_append_right _ mem)) (lt_irrefl _)

theorem expire (h : Orderly s front back) (node : ℕ) :
    ∃ t front' back', s.next (.expire node) = some t ∧ Orderly t front' back' := by
  have nodes : (s.queue.expireTimer node).waiters.map Waiter.node =
      s.queue.waiters.map Waiter.node := Queue.map_node_expired node _
  refine ⟨_, Queue.expired node front, Queue.expired node back, rfl, ?_⟩
  exact
    { line := h.line.expireTimer node
      pending := h.pending.trans nodes.symm
      waited := h.waited
      inOrder := by rw [Queue.map_node_expired]; exact h.inOrder
      told := by rw [Queue.map_node_expired]; exact h.told
      made := h.made
      once := h.once
      gone := fun other mem => by rw [nodes]; exact h.gone other mem }

theorem wakeup (h : Orderly s front back) {node : ℕ} (mem : node ∈ s.pending) :
    ∃ t front' back', s.next (.wakeup node) = some t ∧ Orderly t front' back' := by
  rw [h.pending] at mem
  obtain ⟨w, there, same, checked⟩ := waiterWakeup_eq h.line mem
  have fewer : ∀ ws : List Waiter, (ws.filter (·.node ≠ node)).map Waiter.node =
      (ws.map Waiter.node).filter (· ≠ node) := by
    intro ws
    rw [List.filter_map]
    rfl
  refine ⟨_, front.filter (·.node ≠ node), back.filter (·.node ≠ node),
    by rw [Service.next, checked]; rfl, ?_⟩
  refine
    { line := h.line.waiterWakeup node
      pending := ?_
      waited := h.waited
      inOrder := h.inOrder.sublist ((List.filter_sublist.map _).append_left _)
      told := fun other other_mem => h.told ((List.filter_sublist.map _).subset other_mem)
      made := ?_, once := ?_, gone := ?_ }
  · change s.pending.erase node = (s.queue.waiters.filter (·.node ≠ node)).map Waiter.node
    rw [fewer, h.pending, h.line.nodup.erase_eq_filter]
    exact List.filter_congr fun other _ => by simp [bne, BEq.beq]
  · intro other other_mem
    rw [← List.append_assoc, List.mem_append, List.mem_singleton, same] at other_mem
    rcases other_mem with old | rfl
    · exact h.made other old
    · exact h.node_lt mem
  · rw [same, List.nodup_append]
    refine ⟨h.once, List.nodup_singleton _, ?_⟩
    intro other other_mem last last_mem
    rw [List.mem_singleton] at last_mem
    rw [last_mem]
    rintro rfl
    exact h.gone other other_mem mem
  · intro other other_mem
    rw [same, List.mem_append, List.mem_singleton] at other_mem
    change other ∉ (s.queue.waiters.filter (·.node ≠ node)).map Waiter.node
    rw [fewer, List.mem_filter]
    rintro ⟨still, differs⟩
    rcases other_mem with old | rfl
    · exact h.gone other old still
    · simp at differs

theorem next (h : Orderly s front back) {event : Service.Event} (enabled : s.Enabled event) :
    ∃ t front' back', s.next event = some t ∧ Orderly t front' back' := by
  cases event with
  | call call => exact h.call call
  | wait waitMs cb => exact h.wait waitMs cb
  | expire node => exact h.expire node
  | wakeup node => exact h.wakeup enabled.2.1
  | done =>
    exact ⟨_, front, back, rfl, h.line, h.pending, h.waited, h.inOrder, h.told, h.made, h.once,
      h.gone⟩

theorem session (h : Orderly s front back) {event : Service.Event} (step : Service.Step s event t) :
    t.session = s.session ∨ ∃ turn, QueueWaiters.SessionStep s.session turn t.session := by
  obtain ⟨enabled, next⟩ := step
  cases event with
  | call call =>
    obtain ⟨told, checked, -⟩ := exec_eq h.line call
    rw [Service.next, checked] at next
    rw [← Option.some.inj next]
    exact .inr ⟨_, .call _ call⟩
  | wait waitMs cb =>
    rw [← Option.some.inj next]
    exact .inr ⟨_, .wait _ waitMs cb⟩
  | expire node =>
    obtain ⟨w, there, rfl⟩ := enabled
    rw [← Option.some.inj next]
    exact .inr ⟨_, .expire _ there⟩
  | wakeup node =>
    obtain ⟨-, mem, due⟩ := enabled
    rw [h.pending] at mem
    obtain ⟨w, there, rfl, checked⟩ := waiterWakeup_eq h.line mem
    rw [Service.next, checked] at next
    rw [← Option.some.inj next]
    exact .inr ⟨_, .callback _ there (due w there rfl)⟩
  | done =>
    rw [← Option.some.inj next]
    exact .inl rfl

end Orderly

theorem step_orderly (s : Service) (event : Service.Event) (t : Service)
    (h : ∃ front back, Orderly s front back) (step : Service.Step s event t) :
    ∃ front back, Orderly t front back := by
  obtain ⟨front, back, h⟩ := h
  obtain ⟨u, front', back', next, orderly⟩ := h.next step.1
  obtain rfl := Option.some.inj (next.symm.trans step.2)
  exact ⟨front', back', orderly⟩

theorem orderly_new {image : QueueRecovery.Image} {path : Bytes} {q : Queue}
    (opened : Queue.new image path = some q) : Orderly { session := ⟨q, []⟩ } [] [] := by
  obtain ⟨head, tail, chunks, rfl⟩ := QueueRecovery.new_blank opened
  exact
    { line := Queue.line_nil rfl rfl
      pending := rfl
      waited := rfl
      inOrder := .nil
      told := List.nil_subset _
      made := fun _ mem => absurd mem List.not_mem_nil
      once := .nil
      gone := fun _ mem => absurd mem List.not_mem_nil }

theorem sublist_range {xs : List ℕ} {n : ℕ} (ordered : xs.Pairwise (· < ·))
    (small : ∀ x ∈ xs, x < n) : xs.Sublist (List.range n) := by
  have subset : xs ⊆ List.range n := fun x mem => List.mem_range.mpr (small x mem)
  exact List.sublist_of_subperm_of_pairwise (ordered.nodup.subperm subset) ordered
    List.pairwise_lt_range

/-- In every run, with any calls from the callbacks: the cursor is at the end or at a
waiter of the list, the waiters before it are those that were signalled, the order of the
signals is that of the waits, a callback is called once and when its waiter has left, and
no iterator is used at the end of the list or at a node that was released. -/
theorem waiters_in_line {image : QueueRecovery.Image} {path : Bytes} {q : Queue}
    (opened : Queue.new image path = some q) {s : Service}
    (reach : Reachable Service.Step { session := ⟨q, []⟩ } s) :
    (s.queue.wakeUpIt = none ∨ ∃ w ∈ s.queue.waiters, s.queue.wakeUpIt = some w.node) ∧
    (s.queue.waiters.map Waiter.node).Nodup ∧
    (∃ front back, s.queue.waiters = front ++ back ∧
      s.queue.wakeUpIt = back.head?.map Waiter.node ∧
      (∀ w ∈ front, w.cancelled = true ∧ w.node ∈ s.signalled) ∧
      ∀ w ∈ back, w.cancelled = false ∧ w.node ∉ s.signalled) ∧
    s.signalled.Sublist s.waited ∧ s.waited.Nodup ∧
    s.invoked.Nodup ∧
    (∀ node ∈ s.invoked, node ∈ s.waited ∧ node ∉ s.queue.waiters.map Waiter.node) ∧
    ∀ event, s.Enabled event → ∃ t, s.next event = some t := by
  obtain ⟨front, back, h⟩ := reach.invariant ⟨[], [], orderly_new opened⟩ step_orderly
  have waited : ∀ node ∈ s.signalled ++ s.invoked, node ∈ s.waited := by
    intro node mem
    rw [h.waited, List.mem_range]
    exact h.made node mem
  refine ⟨?_, h.line.nodup, ⟨front, back, h.line.split, h.line.it, ?_, ?_⟩, ?_, ?_, h.once, ?_, ?_⟩
  · rw [h.line.it, h.line.split]
    cases back with
    | nil => exact .inl rfl
    | cons w rest => exact .inr ⟨w, List.mem_append_right _ List.mem_cons_self, rfl⟩
  · intro w mem
    exact ⟨h.line.told w mem, h.told (List.mem_map_of_mem mem)⟩
  · intro w mem
    refine ⟨h.line.untold w mem, fun signalled => ?_⟩
    have before := (List.pairwise_append.mp h.inOrder).2.2 _ signalled _ (List.mem_map_of_mem mem)
    exact lt_irrefl _ before
  · rw [h.waited]
    exact sublist_range (List.pairwise_append.mp h.inOrder).1
      fun node mem => h.made node (List.mem_append_left _ mem)
  · rw [h.waited]
    exact List.nodup_range
  · intro node mem
    exact ⟨waited node (List.mem_append_right _ mem), h.gone node mem⟩
  · intro event enabled
    obtain ⟨t, -, -, next, -⟩ := h.next enabled
    exact ⟨t, next⟩

/-- Two waiters, of which the first is signalled and the second, now next in line, times
out before the handler of the first has run; its callback waits again. -/
def timeoutNext : List Service.Event :=
  [.wait 100 7, .wait 50 8, .call (.push [97] 0 false true), .expire 1, .wakeup 1, .wait 50 8]

theorem waiters_in_line_timeoutNext : ∃ s : Service,
    Service.run { session := ⟨.blank ∅ [113], []⟩ } timeoutNext = some s ∧
    s.waited = [0, 1, 2] ∧ s.signalled = [0] ∧ s.invoked = [1] ∧
    s.signalled.Sublist s.waited ∧ ∀ event, s.Enabled event → ∃ t, s.next event = some t := by
  have facts : ((Service.run { session := ⟨.blank ∅ [113], []⟩ } timeoutNext).map fun s =>
      decide (s.waited = [0, 1, 2] ∧ s.signalled = [0] ∧ s.invoked = [1])) = some true := by decide
  obtain ⟨s, run, logs⟩ := Option.map_eq_some_iff.mp facts
  obtain ⟨waited, signalled, invoked⟩ := of_decide_eq_true logs
  have reach : Reachable Service.Step { session := ⟨.blank ∅ [113], []⟩ } s :=
    Service.reachable_run .refl run
  have opened : Queue.new ∅ [113] = some (Queue.blank ∅ [113]) := rfl
  obtain ⟨-, -, -, inOrder, -, -, -, safe⟩ := waiters_in_line opened reach
  exact ⟨s, run, waited, signalled, invoked, inOrder, safe⟩

end Darner.WaiterIterators
