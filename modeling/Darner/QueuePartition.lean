import Darner.StreamMoves

/-! In the lifetime of a queue that was created empty, the entries of the journal
are divided between the returned ids, the ids held by open iqstreams and the
range from tail to head, whatever the streams do and in whatever order. -/

namespace Darner.QueuePartition
open StreamMoves LabelledRuns

def heldIds (c : Config) : List ℕ := c.readers.map IQStream.id

/-- A statement about a queue and its held ids that every item method keeps. -/
structure ItemInvariant (P : Queue → List ℕ → Prop) : Prop where
  perm {q : Queue} {held held' : List ℕ} (order : held.Perm held') (h : P q held) : P q held'
  same {q q' : Queue} {held : List ℕ} (same : Queue.SameItems q q') (h : P q held) : P q' held
  pushValue {q q' : Queue} {held : List ℕ} {value : Bytes} {sync ok : Bool} {id : ℕ}
    (h : P q held) (push : q.pushValue value sync ok = .ok (id, q')) : P q' held
  popBegin {q q' : Queue} {held : List ℕ} {id : ℕ} (h : P q held)
    (pop : q.popBegin = some (id, q')) : P q' (id :: held)
  popEnd {q q' : Queue} {held : List ℕ} {id : ℕ} {header : Header} {erase ok : Bool}
    (h : P q (id :: held)) (pop : q.popEnd erase id header ok = .ok q') : P q' held

theorem ItemInvariant.move {P : Queue → List ℕ → Prop} (inv : ItemInvariant P)
    {bounded : ℕ → Prop} {solid : Bytes → Prop} (c c' : Config) (h : P c.queue (heldIds c))
    (move : Move bounded solid c c') :
    P c'.queue (heldIds c') := by
  cases move with
  | perm left right => exact inv.perm (left.map _) h
  | popBegin address pop => exact inv.popBegin h pop
  | read isOpen io => simpa only [heldIds, List.map_cons, IQStream.id_read] using h
  | popEnd pop => exact inv.popEnd h pop
  | openSingle header pos => exact h
  | openMulti several fits header pos => exact inv.same (Queue.sameItems_reserveChunks _ _) h
  | pushItem single push => exact inv.pushValue h push
  | writeChunk multi unfinished full put => exact inv.same (Queue.sameItems_writeChunk put) h
  | publish multi finished fits push => exact inv.pushValue h push
  | cancel multi erase => exact inv.same (Queue.sameItems_eraseChunks erase) h
  | drop => exact h
  | destroy taken => exact inv.same (Queue.sameItems_destroy _ taken) h

theorem itemInvariant_partition : ItemInvariant Queue.Partition where
  perm order part := part.perm order
  same same part := same.partition part
  pushValue part push := part.pushValue push
  popBegin part pop := part.popBegin pop
  popEnd part pop := part.popEnd pop

theorem itemInvariant_ownership : ItemInvariant Queue.Ownership where
  perm order own := own.perm order
  same same own := same.ownership own
  pushValue own push := own.pushValue push
  popBegin own pop := own.popBegin pop
  popEnd own pop := own.popEnd pop

theorem filterMap_reader (table : List IQStream) :
    table.filterMap reader = table.filter (·.queue.isSome) := by
  induction table with
  | nil => rfl
  | cons s table ih =>
    by_cases isOpen : s.queue.isSome
    · simp [reader, isOpen, ih]
    · simp [reader, isOpen, ih]

theorem heldIds_config (p : Process) : heldIds (config p) = p.held := by
  simp only [heldIds, config, Process.held, filterMap_reader]

theorem ItemInvariant.exec {P : Queue → List ℕ → Prop} (inv : ItemInvariant P) (p : Process)
    (act : Act) (h : P p.queue p.held) : P (p.exec act).1.queue (p.exec act).1.held := by
  have moves : Moves (fun _ => True) (fun _ => True) (config p) (config (p.exec act).1) :=
    exec_moves p act ⟨trivial, fun _ _ => trivial⟩
  rw [← heldIds_config] at h ⊢
  exact moves.invariant inv.move h

theorem ItemInvariant.runs {P : Queue → List ℕ → Prop} (inv : ItemInvariant P) {p p' : Process}
    {es : List Process.Event} (run : Runs Process.Step p es p') (acts : ∀ e ∈ es, e.isAct)
    (h : P p.queue p.held) : P p'.queue p'.held := by
  refine run.preserves (P := fun p => P p.queue p.held) ?_ acts h
  intro p e p' act before step
  cases step with
  | crash reopen fresh => cases act
  | @act _ call outcome exec fits =>
    have next : p' = (p.exec call).1 := by rw [exec]
    rw [next]
    exact inv.exec p call before

theorem run_partition (path : Bytes) (acts : List Act) :
    ((Process.created path).run acts).queue.Partition ((Process.created path).run acts).held := by
  have start : (Process.created path).queue.Partition (Process.created path).held :=
    Queue.partition_blank path
  generalize Process.created path = p at start ⊢
  induction acts generalizing p with
  | nil => exact start
  | cons act acts ih => exact ih _ (itemInvariant_partition.exec p act start)

/-- The partition invariant, over all runs of any number of streams on one queue
that was created empty. -/
theorem queue_partitioned (path : Bytes) (acts : List Act) :
    let p := (Process.created path).run acts
    let q := p.queue
    q.queueTail.id ≤ q.queueHead.id ∧
    (∀ id ∈ q.returned, id < q.queueTail.id) ∧
    p.held.Nodup ∧
    (∀ id ∈ p.held, id < q.queueTail.id ∧ id ∉ q.returned) ∧
    q.itemsOpen = (p.iqs.filter (·.queue.isSome)).length ∧
    Queue.queueIds q.contents =
      q.returned ∪ p.held.toFinset ∪ Finset.Ico q.queueTail.id q.queueHead.id ∧
    Disjoint q.returned p.held.toFinset ∧
    Disjoint (q.returned ∪ p.held.toFinset) (Finset.Ico q.queueTail.id q.queueHead.id) ∧
    (Queue.queueIds q.contents).card = q.count + q.itemsOpen ∧
    q.count = (Queue.queueIds q.contents).card - q.itemsOpen := by
  intro p q
  have part : q.Partition p.held := run_partition path acts
  have count := part.count_eq
  refine ⟨part.tail_le_head, part.returned_lt, part.held_nodup,
    fun id h => ⟨part.held_lt id h, part.held_not_returned id h⟩, ?_, ?_, ?_, ?_, ?_, ?_⟩
  · rw [part.items_open, Process.held, List.length_map]
  · rw [part.queueIds_eq, Finset.union_right_comm]
  · rw [Finset.disjoint_right]
    exact fun id h => part.held_not_returned id (List.mem_toFinset.mp h)
  · rw [Finset.disjoint_left]
    intro id below range
    have tail := (Finset.mem_Ico.mp range).1
    rcases Finset.mem_union.mp below with returned | held
    · exact absurd (part.returned_lt id returned) (by omega)
    · exact absurd (part.held_lt id (List.mem_toFinset.mp held)) (by omega)
  · exact count.symm
  · omega

end Darner.QueuePartition
