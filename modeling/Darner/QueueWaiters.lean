import Darner.QueueFifo
import Darner.QueueRecovery

/-! The line of waiters. `wake_up` signals the waiters in the order in which they
came, one for each item that is pushed or put back; `waiter_wakeup` runs later and
tells the waiter what it finds then. A waiter that was signalled can find that its
item is gone, and is then told of a time-out that did not happen. -/

namespace Darner
open OrderedStore LabelledRuns

namespace Queue

def signalled (q : Queue) : List Waiter := q.waiters.filter (·.cancelled)

/-- `front` was signalled, `back` was not, and `wake_up_it_` stands between them. -/
structure Line (q : Queue) (front back : List Waiter) : Prop where
  split : q.waiters = front ++ back
  nodup : (q.waiters.map Waiter.node).Nodup
  fresh : ∀ w ∈ q.waiters, w.node < q.nextNode
  told : ∀ w ∈ front, w.cancelled = true
  untold : ∀ w ∈ back, w.cancelled = false
  it : q.wakeUpIt = back.head?.map Waiter.node

variable {q q' : Queue} {front back : List Waiter}

theorem Line.congr (line : q.Line front back) (waiters : q'.waiters = q.waiters)
    (it : q'.wakeUpIt = q.wakeUpIt) (node : q'.nextNode = q.nextNode) : q'.Line front back where
  split := by rw [waiters]; exact line.split
  nodup := by rw [waiters]; exact line.nodup
  fresh := by rw [waiters, node]; exact line.fresh
  told := line.told
  untold := line.untold
  it := by rw [it]; exact line.it

theorem Line.signalled_eq (line : q.Line front back) : q.signalled = front := by
  rw [signalled, line.split, List.filter_append, List.filter_eq_self.mpr line.told,
    List.filter_eq_nil_iff.mpr (by simpa using line.untold), List.append_nil]

theorem line_nil (none : q.waiters = []) (it : q.wakeUpIt = .none) : q.Line [] [] where
  split := none
  nodup := by simp [none]
  fresh := by simp [none]
  told := by simp
  untold := by simp
  it := it

theorem after_split (ws : List Waiter) (w : Waiter) (rest : List Waiter)
    (h : w.node ∉ ws.map Waiter.node) :
    after (ws ++ w :: rest) w.node = rest.head?.map Waiter.node := by
  induction ws with
  | nil => simp [after]
  | cons x ws ih =>
    rw [List.map_cons, List.mem_cons, not_or] at h
    rw [List.cons_append, after, if_neg (Ne.symm h.1), ih h.2]

theorem map_cancelTimer (ws : List Waiter) (it : ℕ) (h : it ∉ ws.map Waiter.node) :
    ws.map (cancelTimer it) = ws := by
  induction ws with
  | nil => rfl
  | cons x ws ih =>
    rw [List.map_cons, List.mem_cons, not_or] at h
    rw [List.map_cons, ih h.2, cancelTimer, if_neg (Ne.symm h.1)]

theorem node_cancelTimer (it : ℕ) (w : Waiter) : (cancelTimer it w).node = w.node := by
  unfold cancelTimer
  split <;> rfl

theorem Line.next {w : Waiter} {rest : List Waiter} (line : q.Line front (w :: rest)) :
    w.node ∉ front.map Waiter.node ∧ w.node ∉ rest.map Waiter.node := by
  have nodup := line.nodup
  rw [line.split, List.map_append, List.map_cons] at nodup
  constructor
  · intro mem
    exact (List.nodup_append.mp nodup).2.2 _ mem _ List.mem_cons_self rfl
  · exact (List.nodup_cons.mp (List.nodup_append.mp nodup).2.1).1

theorem Line.wakeUp (line : q.Line front back) :
    (back = [] ∧ q.wakeUp = q) ∨
    ∃ w rest, back = w :: rest ∧
      q.wakeUp.Line (front ++ [{ w with cancelled := true }]) rest := by
  cases back with
  | nil =>
    have none : q.wakeUpIt = none := line.it
    exact .inl ⟨rfl, by rw [Queue.wakeUp, none]⟩
  | cons w rest =>
    right
    refine ⟨w, rest, rfl, ?_⟩
    have here : q.wakeUpIt = some w.node := line.it
    obtain ⟨inFront, inRest⟩ := line.next
    have nodup := line.nodup
    rw [line.split] at nodup
    have waiters : q.wakeUp.waiters = front ++ { w with cancelled := true } :: rest := by
      simp only [Queue.wakeUp, here, line.split]
      rw [List.map_append, List.map_cons, map_cancelTimer _ _ inFront, map_cancelTimer _ _ inRest,
        cancelTimer, if_pos rfl]
    refine
      { split := by rw [waiters, List.append_assoc]; rfl
        nodup := by rw [waiters]; simpa using nodup
        fresh := ?_, told := ?_
        untold := fun x mem => line.untold x (List.mem_cons_of_mem _ mem)
        it := ?_ }
    · intro x mem
      simp only [Queue.wakeUp, here, List.mem_map] at mem ⊢
      obtain ⟨y, hy, rfl⟩ := mem
      rw [node_cancelTimer]
      exact line.fresh y hy
    · intro x mem
      rcases List.mem_append.mp mem with old | new
      · exact line.told x old
      · rw [List.mem_singleton.mp new]
    · simp only [Queue.wakeUp, here]
      rw [line.split, after_split _ _ _ inFront]

theorem Line.wait (line : q.Line front back) (waitMs cb : ℕ) :
    (q.wait waitMs cb).Line front (back ++ [⟨q.nextNode, cb, waitMs, false, false⟩]) where
  split := by rw [← List.append_assoc, ← line.split]; rfl
  nodup := by
    have new : q.nextNode ∉ q.waiters.map Waiter.node := by
      intro mem
      obtain ⟨w, hw, same⟩ := List.mem_map.mp mem
      have := line.fresh w hw
      omega
    rw [Queue.wait, List.map_append, List.nodup_append]
    refine ⟨line.nodup, by simp, ?_⟩
    intro a ha b hb
    rw [List.map_singleton, List.mem_singleton] at hb
    rw [hb]
    rintro rfl
    exact new ha
  fresh w mem := by
    simp only [Queue.wait, List.mem_append, List.mem_singleton] at mem ⊢
    rcases mem with old | rfl
    · have := line.fresh w old
      omega
    · exact Nat.lt_succ_self _
  told := line.told
  untold w mem := by
    rcases List.mem_append.mp mem with old | new
    · exact line.untold w old
    · rw [List.mem_singleton.mp new]
  it := by
    have it := line.it
    cases back with
    | nil => simp [Queue.wait, it]
    | cons w rest => simp [Queue.wait, it]

def expired (it : ℕ) (ws : List Waiter) : List Waiter :=
  ws.map fun w => if w.node = it then { w with expired := true } else w

theorem map_node_expired (it : ℕ) (ws : List Waiter) :
    (expired it ws).map Waiter.node = ws.map Waiter.node := by
  rw [expired, List.map_map]
  apply List.map_congr_left
  intro w _
  simp only [Function.comp_apply]
  split <;> rfl

theorem mem_expired {it : ℕ} {ws : List Waiter} {w : Waiter} (h : w ∈ expired it ws) :
    ∃ v ∈ ws, w.node = v.node ∧ w.cancelled = v.cancelled := by
  obtain ⟨v, hv, rfl⟩ := List.mem_map.mp h
  refine ⟨v, hv, ?_⟩
  split <;> exact ⟨rfl, rfl⟩

theorem Line.expireTimer (line : q.Line front back) (it : ℕ) :
    (q.expireTimer it).Line (expired it front) (expired it back) where
  split := by
    change expired it q.waiters = _
    rw [line.split, expired, List.map_append]
    rfl
  nodup := by
    change ((expired it q.waiters).map Waiter.node).Nodup
    rw [map_node_expired]
    exact line.nodup
  fresh w mem := by
    obtain ⟨v, hv, node, -⟩ := mem_expired mem
    rw [node]
    exact line.fresh v hv
  told w mem := by
    obtain ⟨v, hv, -, same⟩ := mem_expired mem
    rw [same]
    exact line.told v hv
  untold w mem := by
    obtain ⟨v, hv, -, same⟩ := mem_expired mem
    rw [same]
    exact line.untold v hv
  it := by
    have nodes := map_node_expired it back
    rw [← List.head?_map, nodes, List.head?_map]
    exact line.it

theorem filter_node {it : ℕ} {ws : List Waiter} (h : it ∉ ws.map Waiter.node) :
    ws.filter (·.node ≠ it) = ws := by
  apply List.filter_eq_self.mpr
  intro w mem
  simp only [ne_eq, decide_eq_true_eq]
  rintro rfl
  exact h (List.mem_map_of_mem mem)

theorem Line.waiterWakeup (line : q.Line front back) (it : ℕ) :
    (q.waiterWakeup it).1.Line (front.filter (·.node ≠ it)) (back.filter (·.node ≠ it)) where
  split := by
    simp only [Queue.waiterWakeup, line.split, List.filter_append]
  nodup := line.nodup.sublist (List.filter_sublist.map _)
  fresh w mem := line.fresh w (List.mem_filter.mp mem).1
  told w mem := line.told w (List.mem_filter.mp mem).1
  untold w mem := line.untold w (List.mem_filter.mp mem).1
  it := by
    have here := line.it
    cases back with
    | nil =>
      simp only [List.head?_nil, Option.map_none] at here
      simp [Queue.waiterWakeup, here]
    | cons w rest =>
      simp only [List.head?_cons, Option.map_some] at here
      by_cases same : w.node = it
      · -- the next waiter in line timed out
        obtain ⟨inFront, inRest⟩ := line.next
        have next := after_split front w rest inFront
        rw [List.filter_cons_of_neg (by simp [same]), filter_node (same ▸ inRest)]
        simp only [Queue.waiterWakeup, here, same, if_true]
        rw [line.split, ← same, next]
      · rw [List.filter_cons_of_pos (by simp [same])]
        simp [Queue.waiterWakeup, here, same]

theorem length_filter_node (it : ℕ) {ws : List Waiter} (nodup : (ws.map Waiter.node).Nodup) :
    ws.length ≤ (ws.filter (·.node ≠ it)).length + 1 := by
  induction ws with
  | nil => simp
  | cons w ws ih =>
    have rest := ih (List.nodup_cons.mp nodup).2
    by_cases same : w.node = it
    · have alone := (List.nodup_cons.mp nodup).1
      rw [List.filter_cons_of_neg (by simp [same]), filter_node (same ▸ alone), List.length_cons]
    · rw [List.filter_cons_of_pos (by simp [same]), List.length_cons, List.length_cons]
      omega

theorem SameItems.count (same : SameItems q q') : q'.count = q.count := by
  simp only [Queue.count, same.head, same.tail, same.returned]

theorem count_pushed (value : Bytes) (sync : Bool) (le : q.queueTail.id ≤ q.queueHead.id) :
    (q.pushed value sync).wakeUp.count = q.count + 1 := by
  rw [(sameItems_wakeUp _).count]
  simp only [count, pushed]
  omega

theorem count_pushValue {value : Bytes} {sync ok : Bool} {id : ℕ}
    (push : q.pushValue value sync ok = .ok (id, q')) (le : q.queueTail.id ≤ q.queueHead.id) :
    q'.count = q.count + 1 := by
  obtain ⟨-, rfl⟩ := pushValue_ok push
  exact count_pushed value sync le

theorem count_popBegin {id : ℕ} (pop : q.popBegin = some (id, q'))
    (le : q.queueTail.id ≤ q.queueHead.id) : q'.count + 1 = q.count := by
  rcases popBegin_some pop with ⟨mem, -, rfl⟩ | ⟨empty, ne, -, rfl⟩
  · have card := Finset.card_erase_add_one mem
    simp only [count, poppedReturned]
    omega
  · simp only [count, poppedTail, empty, Finset.card_empty]
    omega

theorem count_popEnd {erase ok : Bool} {id : ℕ} {header : Header}
    (pop : q.popEnd erase id header ok = .ok q') (away : id ∉ q.returned) :
    q'.count = if erase then q.count else q.count + 1 := by
  cases erase with
  | true =>
    obtain ⟨bytes, ranges, rfl⟩ := popEnd_erase pop
    rfl
  | false =>
    rw [popEnd_return] at pop
    obtain rfl := Except.ok.inj pop
    rw [(sameItems_wakeUp _).count]
    simp only [count, putBack, Finset.card_insert_of_notMem away, Bool.false_eq_true, if_false]
    omega

theorem hasItem_iff (q : Queue) : q.hasItem = true ↔ 0 < q.count := by
  simp only [hasItem, Bool.or_eq_true, decide_eq_true_eq, count]
  rw [← Finset.card_pos]
  omega

theorem Line.pushValue {value : Bytes} {sync ok : Bool} {id : ℕ} (line : q.Line front back)
    (push : q.pushValue value sync ok = .ok (id, q')) :
    (back = [] ∧ q'.Line front []) ∨ ∃ w rest, back = w :: rest ∧
      q'.Line (front ++ [{ w with cancelled := true }]) rest := by
  obtain ⟨-, rfl⟩ := pushValue_ok push
  have same : (q.pushed value sync).Line front back := line.congr rfl rfl rfl
  rcases same.wakeUp with ⟨rfl, still⟩ | moved
  · exact .inl ⟨rfl, by rw [still]; exact same⟩
  · exact .inr moved

theorem Line.popBegin {id : ℕ} (line : q.Line front back) (pop : q.popBegin = some (id, q')) :
    q'.Line front back := by
  rcases popBegin_some pop with ⟨-, -, rfl⟩ | ⟨-, -, -, rfl⟩ <;> exact line.congr rfl rfl rfl

theorem Line.popErase {ok : Bool} {id : ℕ} {header : Header} (line : q.Line front back)
    (pop : q.popEnd true id header ok = .ok q') : q'.Line front back := by
  obtain ⟨bytes, ranges, rfl⟩ := popEnd_erase pop
  exact line.congr rfl rfl rfl

theorem Line.popReturn {ok : Bool} {id : ℕ} {header : Header} (line : q.Line front back)
    (pop : q.popEnd false id header ok = .ok q') :
    (back = [] ∧ q'.Line front []) ∨ ∃ w rest, back = w :: rest ∧
      q'.Line (front ++ [{ w with cancelled := true }]) rest := by
  rw [popEnd_return] at pop
  obtain rfl := Except.ok.inj pop
  have same : (q.putBack id).Line front back := line.congr rfl rfl rfl
  rcases same.wakeUp with ⟨rfl, still⟩ | moved
  · exact .inl ⟨rfl, by rw [still]; exact same⟩
  · exact .inr moved

end Queue

namespace QueueWaiters
open QueueFifo

/-- One call of a queue method, a deadline that passes, or a callback, with what
the callback is told. -/
inductive SessionEvent where
  | call (call : Call)
  | wait (waitMs cb : ℕ)
  | expire (node : ℕ)
  | callback (node : ℕ) (success : Bool)

inductive SessionStep : Session → SessionEvent → Session → Prop where
  | call (s : Session) (call : Call) : SessionStep s (.call call) (s.exec call).1
  | wait (s : Session) (waitMs cb : ℕ) :
      SessionStep s (.wait waitMs cb) { s with queue := s.queue.wait waitMs cb }
  | expire (s : Session) {w : Waiter} (mem : w ∈ s.queue.waiters) :
      SessionStep s (.expire w.node) { s with queue := s.queue.expireTimer w.node }
  | callback (s : Session) {w : Waiter} (mem : w ∈ s.queue.waiters) (due : w.due) :
      SessionStep s (.callback w.node (s.queue.waiterWakeup w.node).2)
        { s with queue := (s.queue.waiterWakeup w.node).1 }

/-- A `pop_begin` that leaves an item for every waiter that was signalled. -/
def SparesSignalled (s : Session) : Prop :=
  s.queue.count = 0 ∨ s.queue.signalled.length < s.queue.count

def SparingStep (s : Session) (turn : SessionEvent) (t : Session) : Prop :=
  SessionStep s turn t ∧ (turn = .call .popBegin → SparesSignalled s)

structure Promised (s : Session) : Prop where
  own : s.queue.Ownership s.held
  line : ∃ front back, s.queue.Line front back ∧ front.length ≤ s.queue.count

theorem Promised.same {s : Session} {q : Queue} (h : Promised s)
    (same : Queue.SameItems s.queue q) (waiters : q.waiters = s.queue.waiters)
    (it : q.wakeUpIt = s.queue.wakeUpIt) (node : q.nextNode = s.queue.nextNode) :
    Promised { s with queue := q } := by
  obtain ⟨front, back, line, le⟩ := h.line
  exact ⟨same.ownership h.own, front, back, line.congr waiters it node, by rw [same.count]; exact le⟩

theorem Promised.pushValue {s : Session} {q : Queue} {value : Bytes} {sync ok : Bool} {id : ℕ}
    (h : Promised s) (push : s.queue.pushValue value sync ok = .ok (id, q)) :
    Promised { s with queue := q } := by
  obtain ⟨front, back, line, le⟩ := h.line
  have count := Queue.count_pushValue push h.own.tail_le_head
  refine ⟨h.own.pushValue push, ?_⟩
  rcases line.pushValue push with ⟨-, still⟩ | ⟨w, rest, -, moved⟩
  · exact ⟨_, _, still, by simp only; omega⟩
  · exact ⟨_, _, moved, by simp only [List.length_append, List.length_singleton]; omega⟩

theorem Promised.popBegin {s : Session} {q : Queue} {id : ℕ} (h : Promised s)
    (pop : s.queue.popBegin = some (id, q)) (spares : SparesSignalled s) :
    Promised ⟨q, id :: s.held⟩ := by
  obtain ⟨front, back, line, le⟩ := h.line
  have count := Queue.count_popBegin pop h.own.tail_le_head
  refine ⟨h.own.popBegin pop, front, back, line.popBegin pop, ?_⟩
  rw [SparesSignalled, line.signalled_eq] at spares
  simp only
  omega

theorem Promised.popEnd {s : Session} {q : Queue} {id : ℕ} {erase ok : Bool} {header : Header}
    (h : Promised s) (mem : id ∈ s.held) (pop : s.queue.popEnd erase id header ok = .ok q) :
    Promised ⟨q, s.held.erase id⟩ := by
  obtain ⟨front, back, line, le⟩ := h.line
  have own := h.own.perm (List.perm_cons_erase mem)
  have count := Queue.count_popEnd pop (h.own.held_not_returned id mem)
  refine ⟨own.popEnd pop, ?_⟩
  cases erase with
  | true => exact ⟨front, back, line.popErase pop, by rw [count]; exact le⟩
  | false =>
    rcases line.popReturn pop with ⟨-, still⟩ | ⟨w, rest, -, moved⟩
    · exact ⟨_, _, still, by rw [count]; exact Nat.le_succ_of_le le⟩
    · refine ⟨_, _, moved, ?_⟩
      rw [count, List.length_append]
      exact Nat.succ_le_succ le

theorem exec_promised (s : Session) (call : Call) (h : Promised s)
    (spares : call = .popBegin → SparesSignalled s) : Promised (s.exec call).1 := by
  cases call with
  | push item stray sync ok | pushHeader header sync ok =>
    simp only [Session.exec, Session.ofPush]
    split
    case h_1 id q push => exact h.pushValue push
    case h_2 => exact h
  | popBegin =>
    simp only [Session.exec]
    split
    case h_1 id q pop => exact h.popBegin pop (spares rfl)
    case h_2 => exact h
  | popEnd erase id header ok =>
    simp only [Session.exec]
    split
    case isTrue mem =>
      split
      case h_1 q pop => exact h.popEnd mem pop
      case h_2 => exact h
    case isFalse => exact h
  | count => exact h
  | reserveChunks count => exact h.same (Queue.sameItems_reserveChunks _ _) rfl rfl rfl
  | writeChunk chunk key ok =>
    simp only [Session.exec, Session.ofChunk]
    split
    case h_1 q put =>
      have same := Queue.sameItems_writeChunk put
      obtain rfl := Queue.put_ok put
      exact h.same same rfl rfl rfl
    case h_2 => exact h
  | eraseChunks header ok =>
    simp only [Session.exec, Session.ofChunk]
    split
    case h_1 q write =>
      have same := Queue.sameItems_eraseChunks write
      obtain rfl := Queue.write_ok write
      exact h.same same rfl rfl rfl
    case h_2 => exact h

theorem step_promised (s : Session) (turn : SessionEvent) (t : Session) (h : Promised s)
    (step : SparingStep s turn t) : Promised t := by
  obtain ⟨step, spares⟩ := step
  obtain ⟨front, back, line, le⟩ := h.line
  cases step with
  | call call => exact exec_promised s call h fun e => spares (by rw [e])
  | wait waitMs cb =>
    exact ⟨(Queue.sameItems_waiters _ _ _ _).ownership h.own, _, _, line.wait waitMs cb, le⟩
  | @expire w mem =>
    refine ⟨(Queue.sameItems_waiters _ _ _ _).ownership h.own, _, _, line.expireTimer w.node, ?_⟩
    rw [Queue.expired, List.length_map]
    exact le
  | @callback w mem due =>
    refine ⟨(Queue.sameItems_waiters _ _ _ _).ownership h.own, _, _, line.waiterWakeup w.node, ?_⟩
    exact (List.length_filter_le _ _).trans le

theorem promised_new {image : QueueRecovery.Image} {path : Bytes} {q : Queue}
    (opened : Queue.new image path = some q) : Promised ⟨q, []⟩ := by
  have own := QueueRecovery.ownership_new opened
  obtain ⟨head, tail, chunks, rfl⟩ := QueueRecovery.new_blank opened
  exact ⟨own, [], [], Queue.line_nil rfl rfl, Nat.zero_le _⟩

/-- In every run whose pops leave an item for each waiter that was signalled, a
waiter is told of a time-out only after its own deadline. -/
theorem timeout_only_after_deadline {image : QueueRecovery.Image} {path : Bytes} {q : Queue}
    (opened : Queue.new image path = some q) {s t : Session}
    (reach : Reachable SparingStep ⟨q, []⟩ s) {node : ℕ}
    (told : SessionStep s (.callback node false) t) :
    ∃ w ∈ s.queue.waiters, w.node = node ∧ w.expired = true := by
  have promised := reach.invariant (promised_new opened) step_promised
  obtain ⟨front, back, line, le⟩ := promised.line
  generalize hr : (false : Bool) = report at told
  cases told with
  | @callback w mem due =>
    refine ⟨w, mem, rfl, ?_⟩
    -- nothing is there, so no waiter is signalled and only the deadline makes this one due
    have nothing : s.queue.hasItem = false := hr.symm
    have zero : s.queue.count = 0 := by
      have := (Queue.hasItem_iff s.queue).not
      rw [nothing] at this
      simpa using this
    have none : front = [] := by
      apply List.length_eq_zero_iff.mp
      omega
    rw [line.split, none, List.nil_append] at mem
    have untold := line.untold w mem
    simpa [Waiter.due, untold] using due

theorem timeout_after_deadline_second : ∃ s t : Session,
    Reachable SparingStep ⟨.blank ∅ [113], []⟩ s ∧ SessionStep s (.callback 1 false) t ∧
      ∃ w ∈ s.queue.waiters, w.node = 1 ∧ w.expired = true := by
  let one : Session := { queue := (Queue.blank ∅ [113]).wait 100 0, held := [] }
  let two : Session := { one with queue := one.queue.wait 200 1 }
  let pushed : Session := (two.exec (.push [97] 0 false true)).1
  let called : Session := { pushed with queue := (pushed.queue.waiterWakeup 0).1 }
  let popped : Session := (called.exec .popBegin).1
  let late : Session := { popped with queue := popped.queue.expireTimer 1 }
  have first : SparingStep ⟨.blank ∅ [113], []⟩ (.wait 100 0) one := ⟨.wait _ 100 0, by simp⟩
  have second : SparingStep one (.wait 200 1) two := ⟨.wait _ 200 1, by simp⟩
  have push : SparingStep two (.call (.push [97] 0 false true)) pushed := ⟨.call _ _, by simp⟩
  have call : SparingStep pushed (.callback 0 true) called :=
    ⟨.callback pushed (w := ⟨0, 0, 100, false, true⟩) (by decide) rfl, by simp⟩
  -- the first waiter has gone, so the pop takes the item of no waiter
  have pop : SparingStep called (.call .popBegin) popped := ⟨.call _ _, fun _ => .inr (by decide)⟩
  have expire : SparingStep popped (.expire 1) late :=
    ⟨.expire popped (w := ⟨1, 1, 200, false, false⟩) (by decide), by simp⟩
  have reach :=
    (((((Reachable.refl.next first).next second).next push).next call).next pop).next expire
  have told : SessionStep late (.callback 1 false)
      { late with queue := (late.queue.waiterWakeup 1).1 } :=
    .callback late (w := ⟨1, 1, 200, true, false⟩) (by decide) rfl
  have opened : Queue.new ∅ [113] = some (Queue.blank ∅ [113]) := rfl
  exact ⟨late, _, reach, told, timeout_only_after_deadline opened reach told⟩

/-- A waiter is signalled by a push, another client pops the item first, and the
waiter is told of a time-out long before its deadline. -/
theorem wait_cut_short :
    ¬∀ (s t : Session) (node : ℕ), Reachable SessionStep ⟨.blank ∅ [113], []⟩ s →
      SessionStep s (.callback node false) t → ∃ w ∈ s.queue.waiters, w.node = node ∧ w.expired = true := by
  intro claim
  let waiting : Session := { queue := (Queue.blank ∅ [113]).wait 100 0, held := [] }
  let pushed : Session := (waiting.exec (.push [97] 0 false true)).1
  let stolen : Session := (pushed.exec .popBegin).1
  have reach : Reachable SessionStep ⟨.blank ∅ [113], []⟩ stolen :=
    ((Reachable.refl.next (.wait _ 100 0)).next (.call waiting _)).next (.call pushed _)
  have told : SessionStep stolen (.callback 0 false)
      { stolen with queue := (stolen.queue.waiterWakeup 0).1 } :=
    .callback stolen (w := ⟨0, 0, 100, false, true⟩) (by decide) rfl
  obtain ⟨w, mem, -, late⟩ := claim stolen _ 0 reach told
  have early : ∀ w ∈ stolen.queue.waiters, w.expired = false := by decide
  rw [early w mem] at late
  cases late

end QueueWaiters

end Darner
