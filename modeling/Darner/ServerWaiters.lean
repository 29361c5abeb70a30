import Darner.QueueWaiters
import Darner.Server
import Darner.StreamMoves

/-! No wake-up is lost. A connection gets into the line of a queue only when it has
found the queue empty, every item that is pushed or put back signals one waiter
while there is one, and a waiter that is told of an item pops it at once. So while
some waiter of a registered queue is not signalled, there are no more items than
signals on the way. -/

namespace Darner.ServerWaiters
open OrderedStore LabelledRuns StreamMoves

/-- A change that keeps a line and does not add more items than signals. -/
structure Nudges (q q' : Queue) : Prop where
  line : ∀ {front back : List Waiter}, q.Line front back → ∃ front' back',
    q'.Line front' back' ∧ ((back ≠ [] → q.count ≤ front.length) →
      back' ≠ [] → q'.count ≤ front'.length)
  waiters : ∀ w' ∈ q'.waiters, ∃ w ∈ q.waiters, w.node = w'.node ∧ w.cb = w'.cb

variable {q q' q'' : Queue}

theorem Nudges.refl (q : Queue) : Nudges q q where
  line line := ⟨_, _, line, id⟩
  waiters w mem := ⟨w, mem, rfl, rfl⟩

theorem Nudges.trans (first : Nudges q q') (second : Nudges q' q'') : Nudges q q'' where
  line line := by
    obtain ⟨front, back, mid, le⟩ := first.line line
    obtain ⟨front', back', last, le'⟩ := second.line mid
    exact ⟨front', back', last, fun h => le' (le h)⟩
  waiters w mem := by
    obtain ⟨v, hv, node, cb⟩ := second.waiters w mem
    obtain ⟨u, hu, node', cb'⟩ := first.waiters v hv
    exact ⟨u, hu, node'.trans node, cb'.trans cb⟩

theorem nudges_quiet (waiters : q'.waiters = q.waiters) (it : q'.wakeUpIt = q.wakeUpIt)
    (node : q'.nextNode = q.nextNode) (count : q'.count ≤ q.count) : Nudges q q' where
  line line := ⟨_, _, line.congr waiters it node, fun h some => count.trans (h some)⟩
  waiters w mem := ⟨w, waiters ▸ mem, rfl, rfl⟩

theorem waiters_wakeUp (q : Queue) :
    ∀ w' ∈ q.wakeUp.waiters, ∃ w ∈ q.waiters, w.node = w'.node ∧ w.cb = w'.cb := by
  intro w' mem
  cases it : q.wakeUpIt with
  | none =>
    rw [Queue.wakeUp, it] at mem
    exact ⟨w', mem, rfl, rfl⟩
  | some node =>
    simp only [Queue.wakeUp, it, List.mem_map] at mem
    obtain ⟨w, hw, rfl⟩ := mem
    refine ⟨w, hw, ?_⟩
    unfold Queue.cancelTimer
    split <;> exact ⟨rfl, rfl⟩

theorem nudges_wakes (waiters : q'.waiters = q.waiters) (it : q'.wakeUpIt = q.wakeUpIt)
    (node : q'.nextNode = q.nextNode) (count : q'.count ≤ q.count + 1) : Nudges q q'.wakeUp where
  line line := by
    have same := line.congr waiters it node
    have items : q'.wakeUp.count = q'.count := (Queue.sameItems_wakeUp q').count
    rcases same.wakeUp with ⟨rfl, still⟩ | ⟨w, rest, rfl, moved⟩
    · rw [still]
      exact ⟨_, _, same, fun _ none => absurd rfl none⟩
    · refine ⟨_, _, moved, fun h _ => ?_⟩
      have := h (List.cons_ne_nil _ _)
      rw [items, List.length_append, List.length_singleton]
      omega
  waiters w mem := by
    obtain ⟨v, hv, same⟩ := waiters_wakeUp q' w mem
    exact ⟨v, waiters ▸ hv, same⟩

theorem nudges_pushValue {value : Bytes} {sync ok : Bool} {id : ℕ}
    (push : q.pushValue value sync ok = .ok (id, q')) : Nudges q q' := by
  obtain ⟨-, rfl⟩ := Queue.pushValue_ok push
  refine nudges_wakes (?_ : (q.pushed value sync).waiters = q.waiters) rfl rfl ?_
  · rfl
  · simp only [Queue.count, Queue.pushed]
    omega

theorem count_popBegin_le {id : ℕ} (pop : q.popBegin = some (id, q')) : q'.count ≤ q.count - 1 := by
  rcases Queue.popBegin_some pop with ⟨mem, -, rfl⟩ | ⟨empty, ne, -, rfl⟩
  · have card := Finset.card_erase_add_one mem
    simp only [Queue.count, Queue.poppedReturned]
    omega
  · simp only [Queue.count, Queue.poppedTail, empty, Finset.card_empty]
    omega

theorem nudges_popBegin {id : ℕ} (pop : q.popBegin = some (id, q')) : Nudges q q' := by
  have count := count_popBegin_le pop
  rcases Queue.popBegin_some pop with ⟨-, -, rfl⟩ | ⟨-, -, -, rfl⟩
  · exact nudges_quiet rfl rfl rfl (by omega)
  · exact nudges_quiet rfl rfl rfl (by omega)

theorem nudges_popEnd {erase ok : Bool} {id : ℕ} {header : Header}
    (pop : q.popEnd erase id header ok = .ok q') : Nudges q q' := by
  cases erase with
  | true =>
    obtain ⟨bytes, ranges, rfl⟩ := Queue.popEnd_erase pop
    exact nudges_quiet rfl rfl rfl (le_refl _)
  | false =>
    rw [Queue.popEnd_return] at pop
    obtain rfl := Except.ok.inj pop
    refine nudges_wakes (?_ : (q.putBack id).waiters = q.waiters) rfl rfl ?_
    · rfl
    · have card := Finset.card_insert_le id q.returned
      simp only [Queue.count, Queue.putBack]
      omega

theorem nudges_destroy (q : Queue) (taken : List Bytes) : Nudges q (q.destroy taken) := by
  unfold Queue.destroy
  split
  · exact .refl q
  · exact nudges_quiet rfl rfl rfl (le_refl _)

theorem move_nudges {bounded : ℕ → Prop} {solid : Bytes → Prop} {c c' : Config}
    (move : Move bounded solid c c') :
    Nudges c.queue c'.queue := by
  cases move with
  | perm left right => exact .refl _
  | popBegin address h => exact nudges_popBegin h
  | read isOpen io => exact .refl _
  | popEnd h => exact nudges_popEnd h
  | openSingle header pos => exact .refl _
  | openMulti several fits header pos => exact nudges_quiet rfl rfl rfl (le_refl _)
  | pushItem single h => exact nudges_pushValue h
  | writeChunk multi unfinished full h =>
    obtain rfl := Queue.put_ok h
    exact nudges_quiet rfl rfl rfl (le_refl _)
  | publish multi finished fits h => exact nudges_pushValue h
  | cancel multi h =>
    obtain rfl := Queue.write_ok h
    exact nudges_quiet rfl rfl rfl (le_refl _)
  | drop => exact .refl _
  | destroy taken => exact nudges_destroy _ taken

theorem moves_nudges {c c' : Config} (moves : Moves (fun _ => True) (fun _ => True) c c') :
    Nudges c.queue c'.queue := by
  induction moves with
  | refl => exact .refl _
  | tail _ last ih => exact ih.trans (move_nudges last)

theorem nudges_expireTimer (q : Queue) (node : ℕ) : Nudges q (q.expireTimer node) where
  line {front back} line := by
    refine ⟨_, _, line.expireTimer node, fun h some => ?_⟩
    have some' : back ≠ [] := by
      rintro rfl
      exact some rfl
    have le := h some'
    rw [Queue.expired, List.length_map]
    exact le
  waiters w mem := by
    obtain ⟨v, hv, rfl⟩ := List.mem_map.mp mem
    refine ⟨v, hv, ?_⟩
    split <;> exact ⟨rfl, rfl⟩

theorem waiters_waiterWakeup (q : Queue) (node : ℕ) (w : Waiter)
    (mem : w ∈ (q.waiterWakeup node).1.waiters) : w ∈ q.waiters ∧ w.node ≠ node := by
  simpa [Queue.waiterWakeup] using mem

theorem nudges_wakeup_pop {node id : ℕ}
    (pop : (q.waiterWakeup node).1.popBegin = some (id, q')) : Nudges q q' where
  line {front back} line := by
    have woken := line.waiterWakeup node
    have count := count_popBegin_le pop
    refine ⟨_, _, woken.popBegin pop, fun h some => ?_⟩
    have some' : back ≠ [] := by
      rintro rfl
      exact some rfl
    have le := h some'
    have nodup : (front.map Waiter.node).Nodup := by
      have all := line.nodup
      rw [line.split, List.map_append] at all
      exact (List.nodup_append.mp all).1
    have shorter := Queue.length_filter_node node nodup
    have same : (q.waiterWakeup node).1.count = q.count := rfl
    omega
  waiters w mem := by
    have same : q'.waiters = (q.waiterWakeup node).1.waiters := by
      rcases Queue.popBegin_some pop with ⟨-, -, rfl⟩ | ⟨-, -, -, rfl⟩ <;> rfl
    rw [same] at mem
    exact ⟨w, (waiters_waiterWakeup _ _ w mem).1, rfl, rfl⟩

def Registered (s : Server) (address : ℕ) : Prop := ∃ name, s.queues.lookup name = some address

/-- A connection in the line of a queue: it will get nothing but a pop there when
it is told of an item. -/
structure Waits (s : Server) (i address node : ℕ) : Prop where
  pending : (s.conn i).pending = .wait address node
  closed : (s.conn i).popStream.queue = none
  abort : (s.conn i).req.getAbort = false
  peek : ((s.conn i).req.getPeek && (s.conn i).req.getOpen) = false
  reopens : ((s.conn i).req.getClose && !(s.conn i).req.getOpen) = false
  name : ∀ name, s.queues.lookup name = some address → name = (s.conn i).req.queue

/-- `busy` is the connection whose callback runs. -/
structure Awake (busy : Option ℕ) (s : Server) : Prop where
  made : ∀ name address, s.queues.lookup name = some address → address < s.objects.length
  distinct : ∀ name name' address, s.queues.lookup name = some address →
    s.queues.lookup name' = some address → name = name'
  line : ∀ address, ∃ front back, (s.object address).Line front back ∧
    (Registered s address → back ≠ [] → (s.object address).count ≤ front.length)
  waits : ∀ address, ∀ w ∈ (s.object address).waiters,
    some w.cb ≠ busy ∧ Waits s w.cb address w.node

variable {s s' : Server} {i address : ℕ} {busy : Option ℕ}

theorem Awake.idle (h : Awake busy s) : Awake none s :=
  { h with waits := fun a w mem => ⟨by simp, (h.waits a w mem).2⟩ }

theorem Awake.starts (h : Awake none s) (away : ∀ a node, (s.conn i).pending ≠ .wait a node) :
    Awake (some i) s :=
  { h with
    waits := by
      intro a w mem
      have waits := (h.waits a w mem).2
      refine ⟨?_, waits⟩
      rintro same
      obtain rfl := Option.some.inj same
      exact away a w.node waits.pending }

theorem Awake.stats (h : Awake busy s) (stats : Stats) : Awake busy { s with stats := stats } :=
  ⟨h.made, h.distinct, h.line, fun a w mem =>
    ⟨(h.waits a w mem).1, { (h.waits a w mem).2 with }⟩⟩

theorem Awake.setConn (h : Awake (some i) s) (handler : Handler) :
    Awake (some i) (s.setConn i handler) where
  made := h.made
  distinct := h.distinct
  line := h.line
  waits := by
    intro a w mem
    obtain ⟨ne, waits⟩ := h.waits a w mem
    have same : (s.setConn i handler).conn w.cb = s.conn w.cb :=
      Server.conn_setConn_ne s handler fun e => ne (by rw [e])
    refine ⟨ne, ?_⟩
    constructor <;> rw [same]
    exacts [waits.pending, waits.closed, waits.abort, waits.peek, waits.reopens, waits.name]

theorem Awake.setObject_line {q : Queue} (h : Awake busy s)
    (line : ∃ front back, q.Line front back ∧
      (Registered s address → back ≠ [] → q.count ≤ front.length))
    (waiters : ∀ w' ∈ q.waiters, ∃ w ∈ (s.object address).waiters,
      w.node = w'.node ∧ w.cb = w'.cb) : Awake busy (s.setObject address q) := by
  by_cases there : address < s.objects.length
  · have self := Server.object_setObject_self q there
    have length : (s.setObject address q).objects.length = s.objects.length := List.length_set
    refine ⟨?_, h.distinct, ?_, ?_⟩
    · intro name a found
      rw [length]
      exact h.made name a found
    · intro a
      by_cases same : a = address
      · subst same
        rw [self]
        exact line
      · rw [Server.object_setObject_ne s q same]
        exact h.line a
    · intro a w mem
      by_cases same : a = address
      · subst same
        rw [self] at mem
        obtain ⟨v, hv, node, cb⟩ := waiters w mem
        obtain ⟨ne, waits⟩ := h.waits a v hv
        rw [← node, ← cb]
        exact ⟨ne, { waits with }⟩
      · rw [Server.object_setObject_ne s q same] at mem
        obtain ⟨ne, waits⟩ := h.waits a w mem
        exact ⟨ne, { waits with }⟩
  · rw [Server.setObject_beyond q (by omega)]
    exact h

theorem Awake.setObject {q : Queue} (h : Awake busy s) (nudges : Nudges (s.object address) q) :
    Awake busy (s.setObject address q) := by
  obtain ⟨front, back, line, le⟩ := h.line address
  obtain ⟨front', back', line', le'⟩ := nudges.line line
  exact h.setObject_line ⟨front', back', line', fun reg => le' (le reg)⟩ nudges.waiters

theorem Awake.popOpen (h : Awake (some i) s) : Awake (some i) (s.popOpen i address).2 :=
  (h.setObject (moves_nudges (moves_iopen (s.conn i).popStream address [] []))).setConn _

theorem Awake.popRead (h : Awake (some i) s) (io : Io) : Awake (some i) (s.popRead i io).2 :=
  h.setConn _

theorem Awake.popClose {erase ok : Bool} (h : Awake (some i) s)
    (close : s.popClose i erase ok = .ok s') : Awake (some i) s' := by
  rcases Server.popClose_ok close with ⟨-, rfl⟩ | ⟨a, q, -, pop, rfl⟩
  · exact h
  · exact (h.setObject (nudges_popEnd pop)).setConn _

theorem Awake.pushOpen {count : ℕ} {sync : Bool} (h : Awake (some i) s)
    (opened : s.pushOpen i address count sync = .ok s') : Awake (some i) s' := by
  have nudges := moves_nudges
    (moves_oopen (q := s.object address) (s.conn i).pushStream address count sync trivial [] [])
  unfold Server.pushOpen at opened
  split at opened
  · cases opened
  case h_2 result =>
    rw [result] at nudges
    rw [← Except.ok.inj opened]
    exact (h.setObject nudges).setConn _

theorem Awake.pushWrite {chunk : Bytes} {stray : UInt8} {io : Io} (h : Awake (some i) s) :
    Awake (some i) (s.pushWrite i chunk stray io).2 := by
  unfold Server.pushWrite
  split
  · exact h
  · exact (h.setObject (moves_nudges (moves_owrite _ chunk stray io trivial (fun _ => trivial) [] []))).setConn _

theorem Awake.dropPush {ok : Bool} (h : Awake (some i) s) : Awake (some i) (s.dropPush i ok) := by
  unfold Server.dropPush
  split
  · exact h
  · exact (h.setObject (moves_nudges (moves_odestruct _ ok [] []))).setConn _

theorem Awake.dropPop (h : Awake (some i) s) : Awake (some i) (s.dropPop i) := by
  unfold Server.dropPop
  split
  · exact h
  · exact (h.setObject (moves_nudges (moves_idestruct _ [] []))).setConn _

theorem Awake.drop {ok : Bool} (h : Awake (some i) s) : Awake (some i) (s.drop i ok) :=
  (h.dropPush.dropPop.setConn _).stats _

theorem Awake.reply (h : Awake (some i) s) (text : Bytes) (next : Next) :
    Awake (some i) (s.reply i text next) :=
  h.setConn _

theorem Awake.withQueue {name : Bytes} (h : Awake busy s) : Awake busy (s.withQueue name) := by
  have length : (s.withQueue name).objects.length = s.objects.length + 1 := List.length_append
  have beyond : ∀ other, s.queues.lookup other ≠ some s.objects.length := fun other found =>
    absurd (h.made other _ found) (Nat.lt_irrefl _)
  refine ⟨?_, ?_, ?_, ?_⟩
  · intro other a found
    rw [Server.lookup_withQueue] at found
    rw [length]
    split at found
    · rw [← Option.some.inj found]
      exact Nat.lt_succ_self _
    · exact Nat.lt_succ_of_lt (h.made other a found)
  · intro one two a found found'
    rw [Server.lookup_withQueue] at found found'
    split at found <;> split at found'
    case isTrue.isTrue first second => rw [first, second]
    case isTrue.isFalse =>
      rw [← Option.some.inj found] at found'
      exact absurd found' (beyond two)
    case isFalse.isTrue =>
      rw [← Option.some.inj found'] at found
      exact absurd found (beyond one)
    case isFalse.isFalse => exact h.distinct one two a found found'
  · intro a
    by_cases new : a = s.objects.length
    · subst new
      rw [Server.object_withQueue_self]
      exact ⟨[], [], Queue.line_nil rfl rfl, fun _ none => absurd rfl none⟩
    · rw [Server.object_withQueue_ne s name new]
      obtain ⟨front, back, line, le⟩ := h.line a
      refine ⟨front, back, line, fun ⟨other, found⟩ => le ?_⟩
      rw [Server.lookup_withQueue] at found
      split at found
      · exact absurd (Option.some.inj found).symm new
      · exact ⟨other, found⟩
  · intro a w mem
    by_cases new : a = s.objects.length
    · subst new
      rw [Server.object_withQueue_self] at mem
      cases mem
    · rw [Server.object_withQueue_ne s name new] at mem
      obtain ⟨ne, waits⟩ := h.waits a w mem
      refine ⟨ne, { waits with name := ?_ }⟩
      intro other found
      rw [Server.lookup_withQueue] at found
      split at found
      · exact absurd (Option.some.inj found).symm new
      · exact waits.name other found

theorem Awake.queueAt {name : Bytes} (h : Awake busy s)
    (found : s.queueAt name = .ok (address, s')) :
    Awake busy s' ∧ s'.queues.lookup name = some address := by
  rcases Server.queueAt_ok found with ⟨found, rfl⟩ | ⟨-, rfl, rfl⟩
  · exact ⟨h, found⟩
  · exact ⟨h.withQueue, by rw [Server.lookup_withQueue, if_pos rfl]⟩

theorem Awake.unregister (h : Awake busy s) (name : Bytes) :
    Awake busy { s with queues := s.queues.erase name } where
  made other a found := h.made other a (Server.lookup_erase found)
  distinct one two a found found' :=
    h.distinct one two a (Server.lookup_erase found) (Server.lookup_erase found')
  line a := by
    obtain ⟨front, back, line, le⟩ := h.line a
    exact ⟨front, back, line, fun ⟨other, found⟩ => le ⟨other, Server.lookup_erase found⟩⟩
  waits a w mem := by
    obtain ⟨ne, waits⟩ := h.waits a w mem
    exact ⟨ne, { waits with name := fun other found => waits.name other (Server.lookup_erase found) }⟩

theorem Awake.eraseQueue {name : Bytes} {recreate : Bool} (h : Awake busy s)
    (erase : s.eraseQueue name recreate = .ok s') : Awake busy s' := by
  have gone : ∀ a, Awake busy (s.withoutQueue name a) := fun a =>
    (h.setObject (nudges_destroy (s.object a) s.paths)).unregister name
  rcases Server.eraseQueue_ok erase with rfl | ⟨a, -, rfl | rfl⟩
  · exact h
  · exact gone a
  · exact (gone a).withQueue

theorem Awake.set (h : Awake (some i) s) (run : s.set i = .ok s') : Awake (some i) s' := by
  obtain ⟨a, t, u, found, opened, rfl⟩ := Server.set_ok run
  exact ((h.queueAt found).1.pushOpen opened).setConn _

theorem Awake.storeChunk {chunk : Bytes} {env : Env} (h : Awake (some i) s) :
    Awake (some i) (s.storeChunk i chunk env) := by
  have written : Awake (some i) (s.pushWrite i chunk env.stray env.io).2 := h.pushWrite
  unfold Server.storeChunk
  split
  case h_1 e s₁ result =>
    rw [result] at written
    exact written.reply _ _
  case h_2 s₁ result =>
    rw [result] at written
    split
    · exact (written.stats _).reply _ _
    · exact written.setConn _

theorem Awake.setOnReadChunk {env : Env} (h : Awake (some i) s) :
    Awake (some i) (s.setOnReadChunk i env) := by
  unfold Server.setOnReadChunk
  dsimp only
  split
  · split
    · exact h.reply _ _
    · exact (h.setConn _).storeChunk
  · exact (h.setConn _).storeChunk

theorem Awake.getFinish {text : Bytes} {closeOk dropOk : Bool} (h : Awake (some i) s) :
    Awake (some i) (s.getFinish i text closeOk dropOk) := by
  unfold Server.getFinish
  split
  · exact (h.stats _).reply _ _
  · split
    · exact h.drop
    case h_2 closed => exact ((h.popClose closed).stats _).reply _ _

theorem Awake.getRead {env : Env} (h : Awake (some i) s) : Awake (some i) (s.getRead i env) := by
  have read : Awake (some i) (s.popRead i fun n => env.io (n + 1)).2 := h.popRead _
  unfold Server.getRead
  split
  case h_1 e s₁ result =>
    rw [result] at read
    exact read.reply _ _
  case h_2 buf s₁ result =>
    rw [result] at read
    dsimp only
    split
    · exact read.getFinish
    · exact read.reply _ _

theorem Awake.getOnWriteChunk {env : Env} (h : Awake (some i) s) :
    Awake (some i) (s.getOnWriteChunk i env) := by
  have read : Awake (some i) (s.popRead i fun n => env.io (n + 1)).2 := h.popRead _
  unfold Server.getOnWriteChunk
  dsimp only
  split
  · exact h.getFinish
  · split
    case h_1 e s₁ result =>
      rw [result] at read
      exact read.drop
    case h_2 buf s₁ result =>
      rw [result] at read
      exact read.reply _ _

theorem Awake.wait {name : Bytes} {waitMs : ℕ} (h : Awake (some i) s)
    (found : s.queues.lookup name = some address) (name_eq : name = (s.conn i).req.queue)
    (there : i < s.conns.length) (empty : (s.object address).count = 0)
    (closed : (s.conn i).popStream.queue = none) (abort : (s.conn i).req.getAbort = false)
    (peek : ((s.conn i).req.getPeek && (s.conn i).req.getOpen) = false)
    (reopens : ((s.conn i).req.getClose && !(s.conn i).req.getOpen) = false) :
    Awake none ((s.setObject address ((s.object address).wait waitMs i)).setPending i
      (.wait address (s.object address).nextNode)) := by
  have here := h.made name address found
  have self := Server.object_setObject_self ((s.object address).wait waitMs i) here
  have length : (s.setObject address ((s.object address).wait waitMs i)).objects.length =
    s.objects.length := List.length_set
  -- every other waiter keeps its connection
  have other : ∀ a, ∀ w ∈ (s.object a).waiters, Waits
      ((s.setObject address ((s.object address).wait waitMs i)).setPending i
        (.wait address (s.object address).nextNode)) w.cb a w.node := by
    intro a w mem
    obtain ⟨ne, waits⟩ := h.waits a w mem
    have same := Server.conn_setConn_ne (s.setObject address ((s.object address).wait waitMs i))
      { s.conn i with pending := .wait address (s.object address).nextNode }
      (show w.cb ≠ i from fun e => ne (by rw [e]))
    constructor <;> rw [Server.setPending, show (s.setObject address _).conn i = s.conn i from rfl,
      same]
    exacts [waits.pending, waits.closed, waits.abort, waits.peek, waits.reopens, waits.name]
  refine ⟨?_, h.distinct, ?_, ?_⟩
  · intro other a found
    exact length.symm ▸ h.made other a found
  · intro a
    by_cases same : a = address
    · subst same
      obtain ⟨front, back, line, -⟩ := h.line a
      refine ⟨front, _, self.symm ▸ line.wait waitMs i, fun _ _ => ?_⟩
      have zero : ((s.object a).wait waitMs i).count = 0 := empty
      exact (congrArg Queue.count self).trans zero ▸ Nat.zero_le _
    · obtain ⟨front, back, line, le⟩ := h.line a
      have kept := Server.object_setObject_ne s ((s.object address).wait waitMs i) same
      exact ⟨front, back, kept.symm ▸ line, kept.symm ▸ le⟩
  · intro a w mem
    refine ⟨by simp, ?_⟩
    by_cases same : a = address
    · subst same
      have mem : w ∈ ((s.object a).wait waitMs i).waiters := self ▸ mem
      rcases List.mem_append.mp mem with old | new
      · exact other a w old
      · obtain rfl := List.mem_singleton.mp new
        have conn := Server.conn_setObject_setConn a ((s.object a).wait waitMs i)
          { s.conn i with pending := .wait a (s.object a).nextNode } there
        constructor <;> rw [Server.setPending,
          show (s.setObject a _).conn i = s.conn i from rfl, conn]
        exacts [closed, abort, peek, reopens, fun other found' =>
          (h.distinct other name a found' found).trans name_eq]
    · have kept := Server.object_setObject_ne s ((s.object address).wait waitMs i) same
      exact other a w (kept ▸ mem)

theorem Awake.getPop {env : Env} (h : Awake (some i) s) (there : i < s.conns.length)
    (peek : ((s.conn i).req.getPeek && (s.conn i).req.getOpen) = false)
    (run : s.getPop i env = .ok s') : Awake none s' := by
  rcases Server.getPop_ok run with ⟨msg, rfl⟩ | ⟨⟨reopens, abort⟩, a, t, found, next⟩
  · exact (h.reply _ _).idle
  obtain ⟨at_, registered⟩ := h.queueAt found
  have conns : t.conns = s.conns := by
    rcases Server.queueAt_ok found with ⟨-, rfl⟩ | ⟨-, -, rfl⟩ <;> rfl
  have conn : t.conn i = s.conn i := Server.conn_congr conns i
  have opened : Awake (some i) (t.popOpen i a).2 := at_.popOpen
  rcases next with ⟨-, rfl⟩ | ⟨nothing, ⟨msg, rfl⟩ | ⟨waitMs, rfl⟩⟩
  · exact opened.getRead.idle
  · exact (opened.reply _ _).idle
  · rcases t.popOpen_cases i a with ⟨-, result⟩ | ⟨closed, none, result⟩ | ⟨-, id, q, -, result⟩
    · rw [result] at nothing
      cases nothing
    · rw [result]
      obtain ⟨empty, same⟩ := Queue.popBegin_none.mp none
      refine at_.wait registered (by rw [conn]) (by rw [conns]; exact there) ?_ closed
        (by rw [conn]; exact abort) (by rw [conn]; exact peek) (by rw [conn]; exact reopens)
      simp [Queue.count, empty, same]
    · rw [result] at nothing
      cases nothing

theorem Awake.get {env : Env} (h : Awake (some i) s) (there : i < s.conns.length)
    (run : s.get i env = .ok s') : Awake none s' := by
  unfold Server.get at run
  dsimp only at run
  split at run
  · rw [← Except.ok.inj run]
    exact (h.reply _ _).idle
  split at run
  · rw [← Except.ok.inj run]
    exact (h.reply _ _).idle
  case isFalse peek =>
    rw [Bool.not_eq_true] at peek
    split at run
    · split at run
      · rw [← Except.ok.inj run]
        exact (h.reply _ _).idle
      case h_2 s₁ close =>
        have closed := h.popClose close
        have same : s₁.conns.length = s.conns.length ∧ (s₁.conn i).req = (s.conn i).req := by
          rcases Server.popClose_ok close with ⟨-, rfl⟩ | ⟨a, q, -, pop, rfl⟩
          · exact ⟨rfl, rfl⟩
          · exact ⟨List.length_set, by rw [Server.conn_setObject_setConn a q _ there]⟩
        exact closed.getPop (by rw [same.1]; exact there) (by rw [same.2]; exact peek) run
    · split at run
      · rw [← Except.ok.inj run]
        exact (h.reply _ _).idle
      · exact h.getPop there peek run

theorem Awake.dispatch {env : Env} (h : Awake (some i) s) (there : i < s.conns.length)
    (run : s.dispatch i env = .ok s') : Awake none s' := by
  unfold Server.dispatch at run
  split at run
  · rw [← Except.ok.inj run]
    exact h.drop.idle
  · rw [← Except.ok.inj run]
    exact (h.reply _ _).idle
  · rw [← Except.ok.inj run]
    exact (h.reply _ _).idle
  · obtain ⟨t, erased, rfl⟩ := Server.destroy_ok run
    exact ((h.eraseQueue erased).reply _ _).idle
  · obtain ⟨t, erased, rfl⟩ := Server.flush_ok run
    exact ((h.eraseQueue erased).reply _ _).idle
  · unfold Server.flushAll at run
    split at run
    · rw [← Except.ok.inj run]
      exact (h.reply _ _).idle
    · cases run
  · exact ((h.stats _).set run).idle
  · have counted : Awake (some i) s.countGet := h.stats _
    exact counted.get there run

theorem Awake.parseRequest {n : ℕ} {env : Env} (h : Awake (some i) s) (there : i < s.conns.length)
    (run : s.parseRequest i n env = .ok s') : Awake none s' := by
  unfold Server.parseRequest at run
  dsimp only at run
  split at run
  · rw [← Except.ok.inj run]
    exact (h.reply _ _).idle
  · refine (h.setConn _).dispatch ?_ run
    rw [Server.setConn, List.length_set]
    exact there

theorem Awake.recv {data : Bytes} (h : Awake none s) : Awake none (s.recv i data) := by
  unfold Server.recv
  dsimp only
  split
  · split
    case h_1 reading =>
      split
      · exact ((h.starts (i := i) (by simp [reading])).setConn _).idle
      · exact h
    case h_2 n reading =>
      split
      · exact ((h.starts (i := i) (by simp [reading])).setConn _).idle
      · exact h
    case h_3 => exact h
  · exact h

theorem Awake.readDone {env : Env} (h : Awake none s) (run : s.readDone i env = .ok s') :
    Awake none s' := by
  unfold Server.readDone at run
  dsimp only at run
  split at run
  case h_1 reading =>
    have starts : Awake (some i) s := h.starts (by simp [reading])
    split at run
    · exact starts.parseRequest (Server.conn_there (by simp [reading])) run
    · rw [← Except.ok.inj run]
      split
      · exact starts.drop.idle
      · exact h
  case h_2 n reading =>
    have starts : Awake (some i) s := h.starts (by simp [reading])
    rw [← Except.ok.inj run]
    split
    · exact starts.setOnReadChunk.idle
    · exact h
  case h_3 =>
    rw [← Except.ok.inj run]
    exact h

theorem Awake.readFailed {env : Env} (h : Awake none s) : Awake none (s.readFailed i env) := by
  unfold Server.readFailed
  dsimp only
  split
  case h_1 reading =>
    split
    · exact (h.starts (i := i) (by simp [reading])).drop.idle
    · exact h
  case h_2 n reading =>
    split
    · exact (h.starts (i := i) (by simp [reading])).drop.idle
    · exact h
  case h_3 => exact h

theorem Awake.writeDone {env : Env} (h : Awake none s) : Awake none (s.writeDone i env) := by
  unfold Server.writeDone
  split
  case h_1 writing => exact ((h.starts (i := i) (by simp [writing])).setConn _).idle
  case h_2 writing => exact (h.starts (i := i) (by simp [writing])).getOnWriteChunk.idle
  case h_3 writing => exact (h.starts (i := i) (by simp [writing])).drop.idle
  case h_4 => exact h

theorem Awake.writeFailed {env : Env} (h : Awake none s) : Awake none (s.writeFailed i env) := by
  unfold Server.writeFailed
  split
  case h_1 writing => exact (h.starts (i := i) (by simp [writing])).drop.idle
  case h_2 => exact h

theorem dueWaiter_mem {node : ℕ} {w : Waiter} (due : s.dueWaiter address node = some w) :
    w ∈ (s.object address).waiters ∧ w.node = node := by
  refine ⟨List.mem_of_find?_eq_some due, ?_⟩
  have found := List.find?_some due
  simp only [Bool.and_eq_true, decide_eq_true_eq] at found
  exact found.1

theorem Awake.leaves {q : Queue} {w : Waiter} (h : Awake none s)
    (mem : w ∈ (s.object address).waiters)
    (line : ∃ front back, q.Line front back ∧
      (Registered s address → back ≠ [] → q.count ≤ front.length))
    (waiters : ∀ w' ∈ q.waiters, w' ∈ (s.object address).waiters ∧ w'.node ≠ w.node) :
    Awake (some w.cb) (s.setObject address q) := by
  have gone := h.setObject_line line fun w' mem' => ⟨w', (waiters w' mem').1, rfl, rfl⟩
  have pending := (h.waits address w mem).2.pending
  have there := Server.waiter_there mem
  refine { gone with waits := fun a w' mem' => ?_ }
  have waits := (gone.waits a w' mem').2
  refine ⟨fun same => ?_, waits⟩
  -- a connection waits in one place only
  have pending' : (s.conn w'.cb).pending = .wait a w'.node := waits.pending
  rw [Option.some.inj same, pending] at pending'
  obtain ⟨rfl, node⟩ := Pending.wait.inj pending'
  rw [Server.object_setObject_self q there] at mem'
  exact (waiters w' mem').2 node.symm

theorem get_waiting {node : ℕ} {env : Env} (waits : Waits s i address node) :
    s.get i env = s.getPop i env := by
  have close : ∀ erase ok, s.popClose i erase ok = .ok s := by
    intro erase ok
    rw [Server.popClose, waits.closed]
  simp [Server.get, waits.abort, waits.peek, waits.closed, close]

theorem getPop_waiting {node : ℕ} {env : Env} (waits : Waits s i address node)
    (registered : Registered s address) {id : ℕ} {q : Queue}
    (pop : (s.object address).popBegin = some (id, q)) :
    s.getPop i env = .ok (((s.setObject address q).setConn i
      { s.conn i with popStream := { queue := some address, id := id } }).getRead i env) := by
  obtain ⟨name, found⟩ := registered
  have at_ : s.queueAt (s.conn i).req.queue = .ok (address, s) := by
    rw [Server.queueAt, ← waits.name name found, found]
  have opened : s.popOpen i address = (.ok true, (s.setObject address q).setConn i
      { s.conn i with popStream := { queue := some address, id := id } }) := by
    rcases s.popOpen_cases i address with ⟨isOpen, -⟩ | ⟨-, none, -⟩ | ⟨-, id', q', pop', result⟩
    · rw [waits.closed] at isOpen
      cases isOpen
    · rw [none] at pop
      cases pop
    · rw [pop] at pop'
      obtain ⟨rfl, rfl⟩ := Prod.mk.inj (Option.some.inj pop')
      exact result
  simp only [Server.getPop, waits.abort, waits.reopens, Bool.or_self, Bool.false_eq_true, if_false,
    at_, bind, Except.bind, opened]

theorem popBegin_hasItem {q : Queue} (h : q.hasItem = true) : ∃ id q', q.popBegin = some (id, q') := by
  cases pop : q.popBegin with
  | some pair => exact ⟨pair.1, pair.2, rfl⟩
  | none =>
    obtain ⟨empty, same⟩ := Queue.popBegin_none.mp pop
    simp [Queue.hasItem, empty, same] at h

theorem Awake.callback {node : ℕ} {env : Env} (h : Awake none s)
    (run : s.callback address node env = .ok s') : Awake none s' := by
  unfold Server.callback at run
  split at run
  · rw [← Except.ok.inj run]
    exact h
  case h_2 w due =>
    obtain ⟨mem, rfl⟩ := dueWaiter_mem due
    obtain ⟨front, back, line, le⟩ := h.line address
    have woken := line.waiterWakeup w.node
    have waiters := fun w' => waiters_waiterWakeup (s.object address) w.node w'
    obtain ⟨-, waits⟩ := h.waits address w mem
    have connected : w.cb < s.conns.length := Server.conn_there (by simp [waits.pending])
    dsimp only at run
    split at run
    case isTrue success =>
      by_cases registered : Registered s address
      · obtain ⟨id, q, pop⟩ : ∃ id q, ((s.object address).waiterWakeup w.node).1.popBegin =
          some (id, q) := popBegin_hasItem success
        have self := Server.object_setObject_self ((s.object address).waiterWakeup w.node).1
          (Server.waiter_there mem)
        have still : Waits (s.setObject address ((s.object address).waiterWakeup w.node).1)
          w.cb address w.node := { waits with }
        rw [get_waiting still, getPop_waiting still registered (self.symm ▸ pop),
          Server.setObject_setObject] at run
        -- the callback takes an item for the waiter that it takes out of the line
        obtain ⟨front', back', line', le'⟩ := (nudges_wakeup_pop pop).line line
        have same : q.waiters = ((s.object address).waiterWakeup w.node).1.waiters := by
          rcases Queue.popBegin_some pop with ⟨-, -, rfl⟩ | ⟨-, -, -, rfl⟩ <;> rfl
        have gone := h.leaves mem ⟨front', back', line', fun reg => le' (le reg)⟩
          fun w' mem' => waiters w' (same ▸ mem')
        rw [← Except.ok.inj run]
        exact (gone.setConn _).getRead.idle
      · have gone := h.leaves mem ⟨_, _, woken, fun reg => absurd reg registered⟩ waiters
        exact gone.get connected run
    case isFalse failure =>
      have none : (s.object address).count = 0 := by
        have := (Queue.hasItem_iff ((s.object address).waiterWakeup w.node).1).not
        have zero := this.mp failure
        exact Nat.eq_zero_of_not_pos zero
      have gone := h.leaves mem ⟨_, _, woken, fun _ _ => none ▸ Nat.zero_le _⟩ waiters
      rw [← Except.ok.inj run]
      exact (gone.reply _ _).idle

theorem Awake.accept (h : Awake none s) :
    Awake none { s with conns := s.conns ++ [{}]
                        stats := { s.stats with connsOpened := s.stats.connsOpened + 1 } } := by
  refine ⟨h.made, h.distinct, h.line, fun a w mem => ?_⟩
  obtain ⟨-, waits⟩ := h.waits a w mem
  have connected : w.cb < s.conns.length := Server.conn_there (by simp [waits.pending])
  have row : (s.conns ++ [({} : Handler)])[w.cb]? = s.conns[w.cb]? :=
    List.getElem?_append_left connected
  have same := congrArg (·.getD { pending := .closed }) row
  refine ⟨by simp, ?_⟩
  constructor <;> simp only [Server.conn] at same ⊢ <;> rw [same]
  exacts [waits.pending, waits.closed, waits.abort, waits.peek, waits.reopens, waits.name]

theorem step_awake (s : Server) (event : ServerEvent) (s' : Server) (h : Awake none s)
    (run : s.Step event s') : Awake none s' := by
  cases event with
  | accept =>
    rw [← Except.ok.inj run]
    exact h.accept
  | recv i data =>
    rw [← Except.ok.inj run]
    exact h.recv
  | readDone i env => exact h.readDone run
  | readFailed i env =>
    rw [← Except.ok.inj run]
    exact h.readFailed
  | writeDone i env =>
    rw [← Except.ok.inj run]
    exact h.writeDone
  | writeFailed i env =>
    rw [← Except.ok.inj run]
    exact h.writeFailed
  | expire address node =>
    rw [← Except.ok.inj run]
    exact h.setObject (nudges_expireTimer _ node)
  | callback address node env => exact h.callback run

theorem awake_started (started : s.Started) : Awake none s := by
  have blank : ∀ a, (s.object a).waiters = [] ∧ (s.object a).wakeUpIt = none := by
    refine Server.object_all (P := fun q => q.waiters = [] ∧ q.wakeUpIt = none)
      (fun q mem => ?_) ⟨rfl, rfl⟩
    obtain ⟨image, path, opened⟩ := started.opened q mem
    obtain ⟨head, tail, chunks, rfl⟩ := QueueRecovery.new_blank opened
    exact ⟨rfl, rfl⟩
  refine ⟨started.registered, started.distinct, fun a => ?_, fun a w mem => ?_⟩
  · exact ⟨[], [], Queue.line_nil (blank a).1 (blank a).2, fun _ none => absurd rfl none⟩
  · rw [(blank a).1] at mem
    cases mem

/-- In every state of every run, while a waiter of a registered queue is not
signalled the queue has at most one item for each callback that is on its way. -/
theorem no_wakeup_lost {start : Server} (started : start.Started)
    (reach : Reachable Server.Step start s) {name : Bytes}
    (registered : s.queues.lookup name = some address) :
    ∃ front back, (s.object address).waiters = front ++ back ∧
      (∀ w ∈ front, w.cancelled = true) ∧ (∀ w ∈ back, w.cancelled = false) ∧
      (s.object address).wakeUpIt = back.head?.map Waiter.node ∧
      (back ≠ [] → (s.object address).count ≤ front.length) ∧
      (front = [] → (s.object address).count = 0 ∨ (s.object address).waiters = []) := by
  have awake := reach.invariant (awake_started started) step_awake
  obtain ⟨front, back, line, le⟩ := awake.line address
  refine ⟨front, back, line.split, line.told, line.untold, line.it, le ⟨name, registered⟩, ?_⟩
  rintro rfl
  cases back with
  | nil => exact .inr line.split
  | cons w rest =>
    have none := le ⟨name, registered⟩ (List.cons_ne_nil _ _)
    exact .inl (Nat.le_zero.mp none)

def twoWaiters : List ServerEvent :=
  let env : Env := ⟨fun _ => true, 0, 0, 0⟩
  [.accept, .accept, .accept,
    .recv 0 (ascii "get q/t=9\r\n"), .readDone 0 env,
    .recv 1 (ascii "get q/t=9\r\n"), .readDone 1 env,
    .recv 2 (ascii "set q 0 0 1\r\n"), .readDone 2 env, .recv 2 (ascii "x\r\n"), .readDone 2 env]

theorem no_wakeup_lost_two_waiters : ∃ s, Reachable Server.Step (.empty 64 [47]) s ∧
    s.queues.lookup (ascii "q") = some 0 ∧ (s.object 0).waiters.length = 2 ∧
    (s.object 0).count = 1 ∧
    ∃ front back, (s.object 0).waiters = front ++ back ∧
      (∀ w ∈ front, w.cancelled = true) ∧ (∀ w ∈ back, w.cancelled = false) ∧
      (s.object 0).wakeUpIt = back.head?.map Waiter.node ∧
      (back ≠ [] → (s.object 0).count ≤ front.length) ∧
      (front = [] → (s.object 0).count = 0 ∨ (s.object 0).waiters = []) := by
  have facts : ((Server.empty 64 [47]).run twoWaiters).toOption.map (fun s =>
      (s.queues.lookup (ascii "q"), (s.object 0).waiters.length, (s.object 0).count)) =
        some (some 0, 2, 1) := by decide
  cases run : (Server.empty 64 [47]).run twoWaiters with
  | error fault => simp [run, Except.toOption] at facts
  | ok s =>
    simp only [run, Except.toOption, Option.map_some, Option.some.injEq, Prod.mk.injEq] at facts
    obtain ⟨found, waiters, count⟩ := facts
    have reach : Reachable Server.Step (.empty 64 [47]) s := ⟨_, Server.runs_of_run run⟩
    have started := Server.started_empty 64 [47] (by decide)
    exact ⟨s, reach, found, waiters, count, no_wakeup_lost started reach found⟩

end Darner.ServerWaiters
