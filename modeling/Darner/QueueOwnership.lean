import Darner.Queue

/-! Who owns a queue id. An entry of the journal is available, because it was
returned or because it lies between tail and head, or it is held by one open
stream; `held` lists the ids of the open streams. `Ownership` is what survives a
restart on any journal; `Partition` adds that every owned id has its entry, as
in the lifetime of a queue that was created empty. -/

namespace Darner.Queue
open OrderedStore

/-- The ids that `pop_begin` can hand out. -/
def Available (q : Queue) (id : ℕ) : Prop :=
  id ∈ q.returned ∨ q.queueTail.id ≤ id ∧ id < q.queueHead.id

def Stored (q : Queue) (id : ℕ) : Prop := (⟨.queue, id⟩ : Key) ∈ q.contents

structure Ownership (q : Queue) (held : List ℕ) : Prop where
  head_type : q.queueHead.type = .queue
  tail_type : q.queueTail.type = .queue
  tail_le_head : q.queueTail.id ≤ q.queueHead.id
  returned_lt : ∀ id ∈ q.returned, id < q.queueTail.id
  held_nodup : held.Nodup
  held_lt : ∀ id ∈ held, id < q.queueTail.id
  held_not_returned : ∀ id ∈ held, id ∉ q.returned
  items_open : q.itemsOpen = held.length
  covered : ∀ id, q.Stored id → q.Available id ∨ id ∈ held

structure Partition (q : Queue) (held : List ℕ) : Prop extends Ownership q held where
  present : ∀ id, q.Available id ∨ id ∈ held → q.Stored id

structure SameItems (q q' : Queue) : Prop where
  head : q'.queueHead = q.queueHead
  tail : q'.queueTail = q.queueTail
  returned : q'.returned = q.returned
  itemsOpen : q'.itemsOpen = q.itemsOpen
  entries : ∀ id, q'.contents.lookup ⟨.queue, id⟩ = q.contents.lookup ⟨.queue, id⟩

namespace SameItems

variable {q q' q'' : Queue}

theorem refl (q : Queue) : SameItems q q := ⟨rfl, rfl, rfl, rfl, fun _ => rfl⟩

theorem available (h : SameItems q q') (id : ℕ) : q'.Available id ↔ q.Available id := by
  simp only [Available, h.head, h.tail, h.returned]

theorem stored (h : SameItems q q') (id : ℕ) : q'.Stored id ↔ q.Stored id := by
  simp only [Stored, mem_iff_lookup, h.entries]

theorem ownership (h : SameItems q q') {held : List ℕ} (own : q.Ownership held) :
    q'.Ownership held where
  head_type := by rw [h.head]; exact own.head_type
  tail_type := by rw [h.tail]; exact own.tail_type
  tail_le_head := by rw [h.head, h.tail]; exact own.tail_le_head
  returned_lt := by rw [h.returned, h.tail]; exact own.returned_lt
  held_nodup := own.held_nodup
  held_lt := by rw [h.tail]; exact own.held_lt
  held_not_returned := by rw [h.returned]; exact own.held_not_returned
  items_open := by rw [h.itemsOpen]; exact own.items_open
  covered id := by rw [h.stored, h.available]; exact own.covered id

theorem partition (h : SameItems q q') {held : List ℕ} (part : q.Partition held) :
    q'.Partition held where
  toOwnership := h.ownership part.toOwnership
  present id := by rw [h.stored, h.available]; exact part.present id

end SameItems

theorem sameItems_waiters (q : Queue) (ws : List Waiter) (it : Option ℕ) (node : ℕ) :
    SameItems q { q with waiters := ws, wakeUpIt := it, nextNode := node } :=
  ⟨rfl, rfl, rfl, rfl, fun _ => rfl⟩

theorem sameItems_wakeUp (q : Queue) : SameItems q q.wakeUp := by
  obtain ⟨ws, it, h⟩ := q.wakeUp_eq
  rw [h]
  exact sameItems_waiters q ws it q.nextNode

theorem sameItems_writeChunk {q q' : Queue} {chunk : Bytes} {n : ℕ} {ok : Bool}
    (h : q.writeChunk chunk n ok = .ok q') : SameItems q q' := by
  obtain rfl := put_ok h
  refine ⟨rfl, rfl, rfl, rfl, fun id => ?_⟩
  simp [contents, Finmap.lookup_insert_of_ne]

theorem sameItems_eraseChunks {q q' : Queue} {header : Header} {ok : Bool}
    (h : q.eraseChunks header ok = .ok q') : SameItems q q' := by
  obtain rfl := write_ok h
  refine ⟨rfl, rfl, rfl, rfl, fun id => ?_⟩
  simp [contents, lookup_apply_deletes]

theorem sameItems_reserveChunks (q : Queue) (count : ℕ) :
    SameItems q (q.reserveChunks count).2 :=
  ⟨rfl, rfl, rfl, rfl, fun _ => rfl⟩

theorem sameItems_destroy (q : Queue) (taken : List Bytes) : SameItems q (q.destroy taken) := by
  unfold destroy
  split
  · exact .refl q
  · exact ⟨rfl, rfl, rfl, rfl, fun _ => rfl⟩

theorem lookup_pushed (q : Queue) (value : Bytes) (sync : Bool) (key : Key) :
    (q.pushed value sync).contents.lookup key =
      if key = q.queueHead then some value else q.contents.lookup key := by
  simp [contents, pushed, lookup_insert_eq]

theorem lookup_erased (q : Queue) (id : ℕ) (header : Header) (key : Key) :
    (q.erased id header).contents.lookup key =
      if key ∈ itemKeys id header then none else q.contents.lookup key := by
  simp only [contents, erased, Journal.contents_write]
  exact lookup_apply_deletes _ _ _ _

theorem lookup_eraseChunks {q q' : Queue} {header : Header} {ok : Bool}
    (h : q.eraseChunks header ok = .ok q') (key : Key) :
    q'.contents.lookup key = if key ∈ header.chunkKeys then none else q.contents.lookup key := by
  rw [write_ok h]
  simp only [contents, Journal.contents_write]
  exact lookup_apply_deletes _ _ _ key

theorem queue_mem_itemKeys (id n : ℕ) (header : Header) :
    (⟨.queue, n⟩ : Key) ∈ itemKeys id header ↔ n = id := by
  unfold itemKeys
  split <;> simp

theorem chunk_mem_itemKeys (id n : ℕ) (header : Header) :
    (⟨.chunk, n⟩ : Key) ∈ itemKeys id header ↔ header.end_ > 1 ∧ n ∈ header.chunkIds := by
  unfold itemKeys
  split <;> simp_all

variable {q q' : Queue} {held : List ℕ}

theorem stored_pushed (own : q.Ownership held) (value : Bytes) (sync : Bool) (id : ℕ) :
    (q.pushed value sync).Stored id ↔ id = q.queueHead.id ∨ q.Stored id := by
  have key : (⟨.queue, id⟩ : Key) = q.queueHead ↔ id = q.queueHead.id := by
    cases hh : q.queueHead with
    | mk type n =>
      have := own.head_type
      simp_all
  simp only [Stored, mem_iff_lookup, lookup_pushed, key]
  by_cases h : id = q.queueHead.id <;> simp [h]

theorem stored_erased (id n : ℕ) (header : Header) :
    (q.erased id header).Stored n ↔ n ≠ id ∧ q.Stored n := by
  simp only [Stored, mem_iff_lookup, lookup_erased, queue_mem_itemKeys]
  by_cases h : n = id <;> simp [h]

theorem available_pushed (own : q.Ownership held) (value : Bytes) (sync : Bool) (id : ℕ) :
    (q.pushed value sync).Available id ↔ id = q.queueHead.id ∨ q.Available id := by
  have := own.tail_le_head
  simp only [Available, pushed]
  by_cases h : id ∈ q.returned
  · simp [h]
  · simp only [h, false_or]
    omega

theorem available_poppedReturned {id : ℕ} (own : q.Ownership held) (hid : id ∈ q.returned)
    (n : ℕ) : (q.poppedReturned id).Available n ↔ n ≠ id ∧ q.Available n := by
  have := own.returned_lt id hid
  simp only [Available, poppedReturned, Finset.mem_erase]
  by_cases h : n = id
  · subst h
    simp only [ne_eq, not_true_eq_false, false_and, false_or, iff_false, not_and, not_lt]
    omega
  · simp [h]

theorem available_poppedTail (own : q.Ownership held) (empty : q.returned = ∅)
    (n : ℕ) : q.poppedTail.Available n ↔ n ≠ q.queueTail.id ∧ q.Available n := by
  have := own.tail_le_head
  simp only [Available, poppedTail, empty, Finset.notMem_empty, false_or]
  omega

theorem available_putBack (id n : ℕ) : (q.putBack id).Available n ↔ n = id ∨ q.Available n := by
  simp only [Available, putBack, Finset.mem_insert, or_assoc]

theorem Ownership.held_not_available (own : q.Ownership held) {id : ℕ} (h : id ∈ held) :
    ¬q.Available id := by
  rintro (hr | ⟨ht, -⟩)
  · exact own.held_not_returned id h hr
  · exact absurd (own.held_lt id h) (by omega)

theorem Ownership.perm {held' : List ℕ} (p : held.Perm held') (own : q.Ownership held) :
    q.Ownership held' where
  head_type := own.head_type
  tail_type := own.tail_type
  tail_le_head := own.tail_le_head
  returned_lt := own.returned_lt
  held_nodup := p.nodup_iff.mp own.held_nodup
  held_lt id h := own.held_lt id (p.mem_iff.mpr h)
  held_not_returned id h := own.held_not_returned id (p.mem_iff.mpr h)
  items_open := own.items_open.trans p.length_eq
  covered id h := (own.covered id h).imp_right p.mem_iff.mp

theorem Partition.perm {held' : List ℕ} (p : held.Perm held') (part : q.Partition held) :
    q.Partition held' where
  toOwnership := part.toOwnership.perm p
  present id h := part.present id (h.imp_right p.mem_iff.mpr)

theorem Ownership.pushed (own : q.Ownership held) (value : Bytes) (sync : Bool) :
    (q.pushed value sync).Ownership held where
  head_type := own.head_type
  tail_type := own.tail_type
  tail_le_head := Nat.le_succ_of_le own.tail_le_head
  returned_lt := own.returned_lt
  held_nodup := own.held_nodup
  held_lt := own.held_lt
  held_not_returned := own.held_not_returned
  items_open := own.items_open
  covered id h := by
    rw [available_pushed own]
    rcases (stored_pushed own value sync id).mp h with rfl | old
    · exact .inl (.inl rfl)
    · exact (own.covered id old).imp_left .inr

theorem Ownership.pushValue {value : Bytes} {sync ok : Bool} {id : ℕ} (own : q.Ownership held)
    (h : q.pushValue value sync ok = .ok (id, q')) : q'.Ownership held := by
  obtain ⟨-, rfl⟩ := pushValue_ok h
  exact (sameItems_wakeUp _).ownership (own.pushed value sync)

theorem Ownership.popBegin {id : ℕ} (own : q.Ownership held)
    (h : q.popBegin = some (id, q')) : q'.Ownership (id :: held) := by
  have le := own.tail_le_head
  rcases popBegin_some h with ⟨hid, -, rfl⟩ | ⟨empty, ne, rfl, rfl⟩
  · refine
      { head_type := own.head_type, tail_type := own.tail_type, tail_le_head := le
        returned_lt := fun m hm => own.returned_lt m (Finset.mem_of_mem_erase hm)
        held_nodup := List.nodup_cons.mpr ⟨fun hh => own.held_not_returned _ hh hid, own.held_nodup⟩
        held_lt := List.forall_mem_cons.mpr ⟨own.returned_lt _ hid, own.held_lt⟩
        held_not_returned := List.forall_mem_cons.mpr
          ⟨Finset.notMem_erase _ _, fun m hm hr =>
            own.held_not_returned m hm (Finset.mem_of_mem_erase hr)⟩
        items_open := congrArg (· + 1) own.items_open
        covered := fun m hm => ?_ }
    rw [available_poppedReturned own hid, List.mem_cons]
    have old := own.covered m hm
    tauto
  · refine
      { head_type := own.head_type, tail_type := own.tail_type
        tail_le_head := Nat.succ_le_of_lt (Nat.lt_of_le_of_ne le ne)
        returned_lt := fun m hm => Nat.lt_succ_of_lt (own.returned_lt m hm)
        held_nodup := List.nodup_cons.mpr
          ⟨fun hh => absurd (own.held_lt _ hh) (lt_irrefl _), own.held_nodup⟩
        held_lt := List.forall_mem_cons.mpr
          ⟨Nat.lt_succ_self _, fun m hm => Nat.lt_succ_of_lt (own.held_lt m hm)⟩
        held_not_returned := fun m _ hr => by simp [poppedTail, empty] at hr
        items_open := congrArg (· + 1) own.items_open
        covered := fun m hm => ?_ }
    rw [available_poppedTail own empty, List.mem_cons]
    have old := own.covered m hm
    tauto

theorem Ownership.erased {id : ℕ} {header : Header} (own : q.Ownership (id :: held)) :
    (q.erased id header).Ownership held where
  head_type := own.head_type
  tail_type := own.tail_type
  tail_le_head := own.tail_le_head
  returned_lt := own.returned_lt
  held_nodup := (List.nodup_cons.mp own.held_nodup).2
  held_lt m hm := own.held_lt m (List.mem_cons_of_mem _ hm)
  held_not_returned m hm := own.held_not_returned m (List.mem_cons_of_mem _ hm)
  items_open := by simp [Queue.erased, own.items_open]
  covered m hm := by
    obtain ⟨ne, old⟩ := (stored_erased id m header).mp hm
    rcases own.covered m old with avail | mem
    · exact .inl avail
    · exact .inr ((List.mem_cons.mp mem).resolve_left ne)

theorem Ownership.putBack {id : ℕ} (own : q.Ownership (id :: held)) :
    (q.putBack id).Ownership held where
  head_type := own.head_type
  tail_type := own.tail_type
  tail_le_head := own.tail_le_head
  returned_lt := by
    intro m hm
    rcases Finset.mem_insert.mp hm with rfl | old
    · exact own.held_lt m List.mem_cons_self
    · exact own.returned_lt m old
  held_nodup := (List.nodup_cons.mp own.held_nodup).2
  held_lt m hm := own.held_lt m (List.mem_cons_of_mem _ hm)
  held_not_returned := by
    intro m hm hr
    rcases Finset.mem_insert.mp hr with rfl | old
    · exact (List.nodup_cons.mp own.held_nodup).1 hm
    · exact own.held_not_returned m (List.mem_cons_of_mem _ hm) old
  items_open := by simp [Queue.putBack, own.items_open]
  covered m hm := by
    rw [available_putBack]
    rcases own.covered m hm with avail | mem
    · exact .inl (.inr avail)
    · exact (List.mem_cons.mp mem).imp_left .inl

theorem Ownership.popEnd {erase ok : Bool} {id : ℕ} {header : Header}
    (own : q.Ownership (id :: held)) (h : q.popEnd erase id header ok = .ok q') :
    q'.Ownership held := by
  cases erase with
  | true =>
    obtain ⟨n, ranges, rfl⟩ := popEnd_erase h
    have same : SameItems (q.erased id header)
        { q.erased id header with bytesEvicted := n, compacted := ranges } :=
      ⟨rfl, rfl, rfl, rfl, fun _ => rfl⟩
    exact same.ownership own.erased
  | false =>
    rw [popEnd_return] at h
    obtain rfl := Except.ok.inj h
    exact (sameItems_wakeUp _).ownership own.putBack

theorem Partition.pushed (part : q.Partition held) (value : Bytes) (sync : Bool) :
    (q.pushed value sync).Partition held where
  toOwnership := part.toOwnership.pushed value sync
  present id h := by
    rw [stored_pushed part.toOwnership]
    rw [available_pushed part.toOwnership] at h
    have old := part.present id
    tauto

theorem Partition.pushValue {value : Bytes} {sync ok : Bool} {id : ℕ} (part : q.Partition held)
    (h : q.pushValue value sync ok = .ok (id, q')) : q'.Partition held := by
  obtain ⟨-, rfl⟩ := pushValue_ok h
  exact (sameItems_wakeUp _).partition (part.pushed value sync)

theorem Partition.popBegin {id : ℕ} (part : q.Partition held)
    (h : q.popBegin = some (id, q')) : q'.Partition (id :: held) where
  toOwnership := part.toOwnership.popBegin h
  present m hm := by
    have old := part.present m
    rw [List.mem_cons] at hm
    rcases popBegin_some h with ⟨hid, -, rfl⟩ | ⟨empty, ne, rfl, rfl⟩
    · rw [available_poppedReturned part.toOwnership hid] at hm
      have self : q.Available id := .inl hid
      apply old
      rcases hm with ⟨-, avail⟩ | rfl | mem
      · exact .inl avail
      · exact .inl self
      · exact .inr mem
    · rw [available_poppedTail part.toOwnership empty] at hm
      have self : q.Available q.queueTail.id := .inr (by have := part.tail_le_head; omega)
      apply old
      rcases hm with ⟨-, avail⟩ | rfl | mem
      · exact .inl avail
      · exact .inl self
      · exact .inr mem

theorem Partition.popEnd {erase ok : Bool} {id : ℕ} {header : Header}
    (part : q.Partition (id :: held)) (h : q.popEnd erase id header ok = .ok q') :
    q'.Partition held where
  toOwnership := part.toOwnership.popEnd h
  present m hm := by
    cases erase with
    | true =>
      obtain ⟨n, ranges, rfl⟩ := popEnd_erase h
      apply (stored_erased id m header).mpr
      have other : m ≠ id := by
        rintro rfl
        rcases hm with avail | mem
        · exact part.held_not_available List.mem_cons_self avail
        · exact (List.nodup_cons.mp part.held_nodup).1 mem
      exact ⟨other, part.present m (hm.imp_right (List.mem_cons_of_mem _))⟩
    | false =>
      rw [popEnd_return] at h
      obtain rfl := Except.ok.inj h
      rw [(sameItems_wakeUp _).stored]
      rw [(sameItems_wakeUp _).available, available_putBack] at hm
      apply part.present m
      rw [List.mem_cons]
      tauto

theorem partition_blank (path : Bytes) : (blank ∅ path).Partition [] := by
  constructor
  · constructor <;> simp [blank, Stored, contents, Journal.contents, Finmap.notMem_empty]
  · simp [blank, Available]

def queueIds (store : Store Key Bytes) : Finset ℕ :=
  (store.keys.filter (·.type = .queue)).image Key.id

@[simp] theorem mem_queueIds {store : Store Key Bytes} {id : ℕ} :
    id ∈ queueIds store ↔ (⟨.queue, id⟩ : Key) ∈ store := by
  simp only [queueIds, Finset.mem_image, Finset.mem_filter, Finmap.mem_keys]
  constructor
  · rintro ⟨⟨type, n⟩, ⟨mem, rfl⟩, rfl⟩
    exact mem
  · intro mem
    exact ⟨_, ⟨mem, rfl⟩, rfl⟩

theorem Partition.queueIds_eq (part : q.Partition held) :
    queueIds q.contents =
      (q.returned ∪ Finset.Ico q.queueTail.id q.queueHead.id) ∪ held.toFinset := by
  ext id
  have stored : q.Stored id ↔ q.Available id ∨ id ∈ held :=
    ⟨part.covered id, part.present id⟩
  simpa [Available, Stored, or_assoc] using stored

theorem Ownership.card_available (own : q.Ownership held) :
    (q.returned ∪ Finset.Ico q.queueTail.id q.queueHead.id).card = q.count := by
  have apart : Disjoint q.returned (Finset.Ico q.queueTail.id q.queueHead.id) := by
    rw [Finset.disjoint_left]
    intro id hr hi
    have := own.returned_lt id hr
    have := (Finset.mem_Ico.mp hi).1
    omega
  rw [Finset.card_union_of_disjoint apart, Nat.card_Ico, count]
  omega

theorem Partition.count_eq (part : q.Partition held) :
    q.count + q.itemsOpen = (queueIds q.contents).card := by
  have heldApart : Disjoint (q.returned ∪ Finset.Ico q.queueTail.id q.queueHead.id)
      held.toFinset := by
    rw [Finset.disjoint_right]
    intro id hh
    have := part.held_not_available (List.mem_toFinset.mp hh)
    simpa [Available] using this
  rw [part.queueIds_eq, Finset.card_union_of_disjoint heldApart, part.card_available,
    List.toFinset_card_of_nodup part.held_nodup, part.items_open]

end Darner.Queue
