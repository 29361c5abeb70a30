import Darner.CrashConsistency

/-! What becomes of one stored item. An id that was pushed is owned, by the queue
or by one stream, until it is erased, and is never owned again afterwards; while it
is owned its entry and its chunks stay as they were written, whatever the streams
do to other items. -/

namespace Darner
open OrderedStore

namespace Queue

def Owned (q : Queue) (held : List ℕ) (id : ℕ) : Prop := q.Available id ∨ id ∈ held

variable {q q' : Queue} {held : List ℕ} {id n : ℕ}

theorem owned_pushValue (own : q.Ownership held) {value : Bytes} {sync ok : Bool}
    (push : q.pushValue value sync ok = .ok (n, q')) (below : id < q.queueHead.id)
    (h : q'.Owned held id) : q.Owned held id := by
  obtain ⟨-, rfl⟩ := pushValue_ok push
  rw [Owned, (sameItems_wakeUp _).available, available_pushed own] at h
  rcases h with (new | old) | mem
  · omega
  · exact .inl old
  · exact .inr mem

theorem owned_popBegin (own : q.Ownership held) (pop : q.popBegin = some (n, q'))
    (h : q'.Owned (n :: held) id) : q.Owned held id := by
  rw [Owned, List.mem_cons] at h
  rcases popBegin_some pop with ⟨mem, -, rfl⟩ | ⟨empty, ne, rfl, rfl⟩
  · rw [available_poppedReturned own mem] at h
    rcases h with ⟨-, old⟩ | rfl | mem'
    · exact .inl old
    · exact .inl (.inl mem)
    · exact .inr mem'
  · rw [available_poppedTail own empty] at h
    have := own.tail_le_head
    rcases h with ⟨-, old⟩ | rfl | mem'
    · exact .inl old
    · exact .inl (.inr ⟨le_refl _, by omega⟩)
    · exact .inr mem'

theorem owned_popEnd (own : q.Ownership (n :: held)) {erase ok : Bool} {header : Header}
    (pop : q.popEnd erase n header ok = .ok q') (h : q'.Owned held id) :
    q.Owned (n :: held) id ∧ (erase = true → id ≠ n) := by
  cases erase with
  | true =>
    obtain ⟨bytes, ranges, rfl⟩ := popEnd_erase pop
    have old : q.Available id ∨ id ∈ held := h
    refine ⟨old.imp_right (List.mem_cons_of_mem _), fun _ same => ?_⟩
    rw [same] at old
    rcases old with avail | mem
    · exact own.held_not_available List.mem_cons_self avail
    · exact (List.nodup_cons.mp own.held_nodup).1 mem
  | false =>
    rw [popEnd_return] at pop
    obtain rfl := Except.ok.inj pop
    rw [Owned, (sameItems_wakeUp _).available, available_putBack] at h
    refine ⟨?_, by simp⟩
    rcases h with (rfl | old) | mem
    · exact .inr List.mem_cons_self
    · exact .inl old
    · exact .inr (List.mem_cons_of_mem _ mem)

theorem head_popBegin (pop : q.popBegin = some (n, q')) : q'.queueHead = q.queueHead := by
  rcases popBegin_some pop with ⟨-, -, rfl⟩ | ⟨-, -, -, rfl⟩ <;> rfl

theorem contents_popBegin (pop : q.popBegin = some (n, q')) : q'.contents = q.contents := by
  rcases popBegin_some pop with ⟨-, -, rfl⟩ | ⟨-, -, -, rfl⟩ <;> rfl

theorem head_popEnd {erase ok : Bool} {header : Header}
    (pop : q.popEnd erase n header ok = .ok q') : q'.queueHead = q.queueHead := by
  cases erase with
  | true =>
    obtain ⟨bytes, ranges, rfl⟩ := popEnd_erase pop
    rfl
  | false =>
    rw [popEnd_return] at pop
    obtain rfl := Except.ok.inj pop
    exact (sameItems_wakeUp _).head

theorem head_pushValue {value : Bytes} {sync ok : Bool}
    (push : q.pushValue value sync ok = .ok (n, q')) :
    q'.queueHead.id = q.queueHead.id + 1 := by
  obtain ⟨-, rfl⟩ := pushValue_ok push
  rw [(sameItems_wakeUp _).head]
  rfl

theorem entry_popEnd {erase ok : Bool} {header : Header}
    (pop : q.popEnd erase n header ok = .ok q') (other : erase = true → id ≠ n) :
    q'.contents.lookup ⟨.queue, id⟩ = q.contents.lookup ⟨.queue, id⟩ := by
  cases erase with
  | true =>
    obtain ⟨bytes, ranges, rfl⟩ := popEnd_erase pop
    have erased := q.lookup_erased n header ⟨.queue, id⟩
    rw [if_neg (by rw [queue_mem_itemKeys]; exact other rfl)] at erased
    exact erased
  | false =>
    rw [popEnd_return] at pop
    obtain rfl := Except.ok.inj pop
    exact (sameItems_wakeUp _).entries id

theorem entry_pushValue {value : Bytes} {sync ok : Bool}
    (push : q.pushValue value sync ok = .ok (n, q')) (below : id < q.queueHead.id) :
    q'.contents.lookup ⟨.queue, id⟩ = q.contents.lookup ⟨.queue, id⟩ := by
  obtain ⟨-, rfl⟩ := pushValue_ok push
  rw [(sameItems_wakeUp _).entries, lookup_pushed, if_neg]
  intro head
  rw [← head] at below
  exact absurd below (lt_irrefl _)

end Queue

namespace StoredItems
open StreamMoves QueuePartition QueueRecovery ChunkLayout CrashConsistency

theorem itemInvariant_head (m : ℕ) : ItemInvariant fun q _ => m ≤ q.queueHead.id where
  perm _ h := h
  same same h := by rw [same.head]; exact h
  pushValue h push := by rw [Queue.head_pushValue push]; omega
  popBegin h pop := by rw [Queue.head_popBegin pop]; exact h
  popEnd h pop := by rw [Queue.head_popEnd pop]; exact h

/-- An id that was pushed and is owned by nobody any more. -/
structure Disowned (id : ℕ) (q : Queue) (held : List ℕ) : Prop where
  own : q.Ownership held
  below : id < q.queueHead.id
  gone : ¬q.Owned held id

theorem itemInvariant_gone (id : ℕ) : ItemInvariant (Disowned id) where
  perm order h :=
    { own := h.own.perm order, below := h.below
      gone := fun owned => h.gone (owned.imp_right order.mem_iff.mpr) }
  same same h :=
    { own := same.ownership h.own, below := by rw [same.head]; exact h.below
      gone := fun owned => h.gone (owned.imp_left (same.available id).mp) }
  pushValue h push :=
    { own := h.own.pushValue push
      below := by have := h.below; rw [Queue.head_pushValue push]; omega
      gone := fun owned => h.gone (Queue.owned_pushValue h.own push h.below owned) }
  popBegin h pop :=
    { own := h.own.popBegin pop, below := by rw [Queue.head_popBegin pop]; exact h.below
      gone := fun owned => h.gone (Queue.owned_popBegin h.own pop owned) }
  popEnd h pop :=
    { own := h.own.popEnd pop, below := by rw [Queue.head_popEnd pop]; exact h.below
      gone := fun owned => h.gone (Queue.owned_popEnd h.own pop owned).1 }

/-- The entry, if any, of an id that was pushed and may have been erased since. -/
structure Records (id : ℕ) (entry : Option Bytes) (q : Queue) (held : List ℕ) : Prop where
  own : q.Ownership held
  below : id < q.queueHead.id
  entry : q.Owned held id → q.contents.lookup ⟨.queue, id⟩ = entry

theorem itemInvariant_records (id : ℕ) (entry : Option Bytes) :
    ItemInvariant (Records id entry) where
  perm order h :=
    { own := h.own.perm order, below := h.below
      entry := fun owned => h.entry (owned.imp_right order.mem_iff.mpr) }
  same same h :=
    { own := same.ownership h.own, below := by rw [same.head]; exact h.below
      entry := fun owned => by
        rw [same.entries]
        exact h.entry (owned.imp_left (same.available id).mp) }
  pushValue h push :=
    { own := h.own.pushValue push
      below := by have := h.below; rw [Queue.head_pushValue push]; omega
      entry := fun owned => by
        rw [Queue.entry_pushValue push h.below]
        exact h.entry (Queue.owned_pushValue h.own push h.below owned) }
  popBegin h pop :=
    { own := h.own.popBegin pop, below := by rw [Queue.head_popBegin pop]; exact h.below
      entry := fun owned => by
        rw [Queue.contents_popBegin pop]
        exact h.entry (Queue.owned_popBegin h.own pop owned) }
  popEnd h pop :=
    { own := h.own.popEnd pop, below := by rw [Queue.head_popEnd pop]; exact h.below
      entry := fun owned => by
        obtain ⟨before, other⟩ := Queue.owned_popEnd h.own pop owned
        rw [Queue.entry_popEnd pop other]
        exact h.entry before }

theorem owned_before {bounded : ℕ → Prop} {solid : Bytes → Prop} {c c' : Config} {id : ℕ}
    (own : c.queue.Ownership (heldIds c)) (below : id < c.queue.queueHead.id)
    (move : Move bounded solid c c') (owned : c'.queue.Owned (heldIds c') id) :
    c.queue.Owned (heldIds c) id := by
  by_contra gone
  exact ((itemInvariant_gone id).move c c' ⟨own, below, gone⟩ move).gone owned

/-! Chunks. A move writes only chunks that an open oqstream reserved, and erases
only these and the range of an item that it erases. -/

theorem move_chunks {bounded : ℕ → Prop} {solid : Bytes → Prop} {c c' : Config} (cons : Consistent c)
    (move : Move bounded solid c c') (n : ℕ) :
    c'.queue.contents.lookup ⟨.chunk, n⟩ = c.queue.contents.lookup ⟨.chunk, n⟩ ∨
    (∃ s ∈ c.writers, n ∈ s.reserved) ∨
    ∃ id header, HeaderAt c.queue.contents id header ∧ n ∈ header.range ∧
      ¬c'.queue.Owned (heldIds c') id := by
  have lay := cons.layout
  cases move with
  | perm left right => exact .inl rfl
  | popBegin address h => exact .inl (by rw [Queue.contents_popBegin h])
  | read isOpen io => exact .inl rfl
  | @popEnd q q' s readers writers erase ok h =>
    cases erase with
    | true =>
      have owned : ¬q'.Owned (readers.map IQStream.id) s.id := by
        intro o
        exact (Queue.owned_popEnd cons.own h o).2 rfl rfl
      obtain ⟨bytes, ranges, rfl⟩ := Queue.popEnd_erase h
      by_cases mem : (⟨.chunk, n⟩ : Key) ∈ Queue.itemKeys s.id s.header
      · obtain ⟨multi, inside⟩ := (Queue.chunk_mem_itemKeys _ _ _).mp mem
        have stored := lay.known s List.mem_cons_self multi
        exact .inr (.inr ⟨s.id, s.header, stored, (lay.header_chunkIds stored).mp inside, owned⟩)
      · have erased := q.lookup_erased s.id s.header ⟨.chunk, n⟩
        rw [if_neg mem] at erased
        exact .inl erased
    | false =>
      rw [Queue.popEnd_return] at h
      obtain rfl := Except.ok.inj h
      exact .inl (by rw [contents_wakeUp]; rfl)
  | openSingle header pos => exact .inl rfl
  | openMulti several fits header pos => exact .inl rfl
  | pushItem single h =>
    obtain ⟨-, rfl⟩ := Queue.pushValue_ok h
    exact .inl (by rw [contents_pushed cons.own.head_type, Layout.lookup_chunk_insert_queue])
  | @writeChunk q q' readers writers s chunk ok multi unfinished full h =>
    obtain rfl := Queue.put_ok h
    have own := lay.unfinished s List.mem_cons_self multi
    by_cases here : n = s.chunkPos
    · refine .inr (.inl ⟨s, List.mem_cons_self, ?_⟩)
      have := own.start
      have := own.stop
      rw [OQStream.reserved_multi multi, Header.range, Finset.mem_Ico]
      omega
    · left
      simp only [Queue.contents, Journal.contents_write, apply_put]
      rw [lookup_insert_eq, if_neg (by simpa using here)]
  | publish multi finished fits h =>
    obtain ⟨-, rfl⟩ := Queue.pushValue_ok h
    exact .inl (by rw [contents_pushed cons.own.head_type, Layout.lookup_chunk_insert_queue])
  | @cancel q q' readers writers s ok multi h =>
    obtain rfl := Queue.write_ok h
    by_cases mem : (⟨.chunk, n⟩ : Key) ∈ s.header.chunkKeys
    · refine .inr (.inl ⟨s, List.mem_cons_self, ?_⟩)
      exact (lay.mem_chunkKeys_iff List.mem_cons_self multi).mp mem
    · left
      simp only [Queue.contents, Journal.contents_write]
      rw [lookup_apply_deletes, if_neg mem]
  | drop => exact .inl rfl
  | @destroy q readers writers taken =>
    left
    simp only [Queue.destroy]
    split <;> rfl

theorem move_itemChunks {bounded : ℕ → Prop} {solid : Bytes → Prop} {c c' : Config}
    (cons : Consistent c) (move : Move bounded solid c c') {id : ℕ} {header : Header}
    (stored : HeaderAt c.queue.contents id header) (owned : c'.queue.Owned (heldIds c') id)
    {n : ℕ} (inside : n ∈ header.range) :
    c'.queue.contents.lookup ⟨.chunk, n⟩ = c.queue.contents.lookup ⟨.chunk, n⟩ := by
  rcases move_chunks cons move n with same | ⟨s, mem, taken⟩ | ⟨id', other, at', mem, gone⟩
  · exact same
  · exact absurd inside (Finset.disjoint_left.mp (cons.layout.clear s mem stored) taken)
  · by_cases same : id' = id
    · rw [same] at gone
      exact absurd owned gone
    · exact absurd inside (Finset.disjoint_left.mp (cons.layout.intact.apart same at' stored) mem)

def Chunks (image : Image) (beg : ℕ) (chunks : List Bytes) : Prop :=
  ∀ n chunk, chunks[n]? = some chunk → image.lookup ⟨.chunk, beg + n⟩ = some chunk

theorem Chunks.snoc {image : Image} {beg : ℕ} {chunks : List Bytes} (chunk : Bytes)
    (h : Chunks image beg chunks) :
    Chunks (image.insert ⟨.chunk, beg + chunks.length⟩ chunk) beg (chunks ++ [chunk]) := by
  intro n other hn
  by_cases last : n = chunks.length
  · rw [last, List.getElem?_concat_length] at hn
    rw [last, lookup_insert_eq, if_pos rfl, hn]
  · have bound := (List.getElem?_eq_some_iff.mp hn).1
    simp only [List.length_append, List.length_singleton] at bound
    rw [List.getElem?_append_left (by omega)] at hn
    rw [lookup_insert_eq, if_neg (by simpa using last)]
    exact h n other hn

/-- A multi-chunk item that was pushed, and is whole while it is owned. -/
structure Whole (id : ℕ) (header : Header) (chunks : List Bytes) (c : Config) : Prop where
  records : Records id (some header.str) c.queue (heldIds c)
  chunks : c.queue.Owned (heldIds c) id → Chunks c.queue.contents header.beg chunks

theorem move_whole {solid : Bytes → Prop} {id : ℕ} {header : Header} {chunks : List Bytes}
    (fits : header.Fits) (count : header.end_ = header.beg + chunks.length) (c c' : Config)
    (h : Consistent c ∧ Whole id header chunks c) (move : Move (· < wordSize) solid c c') :
    Consistent c' ∧ Whole id header chunks c' := by
  obtain ⟨cons, whole⟩ := h
  refine ⟨move_consistent c c' cons move, (itemInvariant_records _ _).move c c' whole.records move, ?_⟩
  intro owned
  have before := owned_before cons.own whole.records.below move owned
  have stored : HeaderAt c.queue.contents id header :=
    ⟨header.str, whole.records.entry before, Stored.ofValue_str fits⟩
  intro n chunk hn
  have inside : header.beg + n ∈ header.range := by
    have := (List.getElem?_eq_some_iff.mp hn).1
    rw [Header.range, Finset.mem_Ico]
    omega
  rw [move_itemChunks cons move stored owned inside]
  exact whole.chunks before n chunk hn

/-- While it is owned, an item is what it was in `image`: its entry, and the chunks that
this entry points at. -/
structure Untouched (id : ℕ) (image : Image) (c : Config) : Prop where
  records : Records id (image.lookup ⟨.queue, id⟩) c.queue (heldIds c)
  chunks : c.queue.Owned (heldIds c) id → ∀ header, HeaderAt image id header →
    ∀ n ∈ header.range, c.queue.contents.lookup ⟨.chunk, n⟩ = image.lookup ⟨.chunk, n⟩

theorem move_untouched {solid : Bytes → Prop} {id : ℕ} {image : Image} (c c' : Config)
    (h : Consistent c ∧ Untouched id image c) (move : Move (· < wordSize) solid c c') :
    Consistent c' ∧ Untouched id image c' := by
  obtain ⟨cons, untouched⟩ := h
  refine ⟨move_consistent c c' cons move,
    (itemInvariant_records _ _).move c c' untouched.records move, ?_⟩
  intro owned header stored n inside
  have before := owned_before cons.own untouched.records.below move owned
  have here := (headerAt_congr header (untouched.records.entry before)).mpr stored
  rw [move_itemChunks cons move here owned inside]
  exact untouched.chunks before header stored n inside

end StoredItems

end Darner
