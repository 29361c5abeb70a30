import Darner.QueueStreams

/-! Opening a journal again. The constructor finds the tail at the smallest
`KT_QUEUE` key and the head after the largest, and knows nothing of the ids
between them; it is sound on a journal that has a queue key or no key at all, and
it gives back the queue exactly when the ids that are left have no gap. -/

namespace Darner.QueueRecovery
open OrderedStore

abbrev Image := Store Key Bytes

/-- What the constructor makes of a journal with at least one queue key. -/
structure Recovered (image : Image) (path : Bytes) (q : Queue) : Prop where
  journal : q.journal = ⟨image, []⟩
  path_eq : q.path = path
  head_type : q.queueHead.type = .queue
  tail_type : q.queueTail.type = .queue
  itemsOpen : q.itemsOpen = 0
  returned : q.returned = ∅
  tail_mem : q.queueTail.id ∈ Queue.queueIds image
  head_pos : ∃ last ∈ Queue.queueIds image, q.queueHead.id = last + 1
  range : ∀ id ∈ Queue.queueIds image, q.queueTail.id ≤ id ∧ id < q.queueHead.id
  chunks : ∀ n, (⟨.chunk, n⟩ : Key) ∈ image → n < q.chunksHead.id
  chunks_pos : q.chunksHead.id = 0 ∨
    ∃ n, (⟨.chunk, n⟩ : Key) ∈ image ∧ q.chunksHead.id = n + 1

theorem key_cases (key : Key) : (∃ n, key = ⟨.queue, n⟩) ∨ ∃ n, key = ⟨.chunk, n⟩ := by
  obtain ⟨type, n⟩ := key
  cases type with
  | queue => exact .inl ⟨n, rfl⟩
  | chunk => exact .inr ⟨n, rfl⟩

theorem seek_first {image : Image} {id : ℕ} (h : (⟨.queue, id⟩ : Key) ∈ image) :
    ∃ first, seek image ⟨.queue, 0⟩ = some ⟨.queue, first⟩ ∧
      (⟨.queue, first⟩ : Key) ∈ image ∧ ∀ n, (⟨.queue, n⟩ : Key) ∈ image → first ≤ n := by
  cases hs : seek image ⟨.queue, 0⟩ with
  | none => exact absurd (seek_eq_none.mp hs _ h) (by simp)
  | some key =>
    obtain ⟨mem, -, least⟩ := seek_eq_some.mp hs
    rcases key_cases key with ⟨n, rfl⟩ | ⟨n, rfl⟩
    · exact ⟨n, rfl, mem, fun m hm => by simpa using least _ hm (by simp)⟩
    · exact absurd (least _ h (by simp)) (by simp)

theorem new_queue {image : Image} (path : Bytes) {id : ℕ} (h : (⟨.queue, id⟩ : Key) ∈ image) :
    ∃ q, Queue.new image path = some q ∧ Recovered image path q := by
  obtain ⟨first, seekFirst, firstMem, firstLe⟩ := seek_first h
  simp only [Queue.new, seekFirst]
  cases seekChunk : seek image ⟨.chunk, 0⟩ with
  | none =>
    -- every key lies before the chunks, so the last key is the largest queue key
    have queueOnly : ∀ key ∈ image, ∃ n, key = ⟨.queue, n⟩ := by
      intro key mem
      rcases key_cases key with same | ⟨n, rfl⟩
      · exact same
      · exact absurd (seek_eq_none.mp seekChunk _ mem) (by simp)
    cases seekLast : seekToLast image with
    | none => exact absurd h (seekToLast_eq_none.mp seekLast _)
    | some last =>
      obtain ⟨lastMem, greatest⟩ := seekToLast_eq_some.mp seekLast
      obtain ⟨n, rfl⟩ := queueOnly last lastMem
      refine ⟨_, rfl, ?_⟩
      refine ⟨rfl, rfl, rfl, rfl, rfl, rfl, by simpa using firstMem, ⟨n, by simpa using lastMem, rfl⟩,
        ?_, ?_, .inl rfl⟩
      · intro m hm
        have mem : (⟨.queue, m⟩ : Key) ∈ image := by simpa using hm
        have le : m ≤ n := by simpa using greatest _ mem
        exact ⟨firstLe m mem, by simp only; omega⟩
      · intro m hm
        obtain ⟨k, hk⟩ := queueOnly _ hm
        simp at hk
  | some chunk =>
    obtain ⟨chunkMem, chunkGe, chunkLeast⟩ := seek_eq_some.mp seekChunk
    obtain ⟨c, rfl⟩ : ∃ c, chunk = ⟨.chunk, c⟩ := by
      rcases key_cases chunk with ⟨n, rfl⟩ | same
      · exact absurd chunkGe (by simp)
      · exact same
    cases seekPrev : prev image ⟨.chunk, c⟩ with
    | none => exact absurd (prev_eq_none.mp seekPrev _ h) (by simp)
    | some before =>
      obtain ⟨beforeMem, beforeLt, beforeGreatest⟩ := prev_eq_some.mp seekPrev
      obtain ⟨b, rfl⟩ : ∃ b, before = ⟨.queue, b⟩ := by
        rcases key_cases before with same | ⟨n, rfl⟩
        · exact same
        · exact absurd (chunkLeast _ beforeMem (by simp)) (not_le.mpr beforeLt)
      cases seekLast : seekToLast image with
      | none => exact absurd h (seekToLast_eq_none.mp seekLast _)
      | some last =>
        obtain ⟨lastMem, greatest⟩ := seekToLast_eq_some.mp seekLast
        obtain ⟨n, rfl⟩ : ∃ n, last = ⟨.chunk, n⟩ := by
          rcases key_cases last with ⟨n, rfl⟩ | same
          · exact absurd (greatest _ chunkMem) (by simp)
          · exact same
        simp only [seekPrev]
        refine ⟨_, rfl, ?_⟩
        refine ⟨rfl, rfl, rfl, rfl, rfl, rfl, by simpa using firstMem,
          ⟨b, by simpa using beforeMem, rfl⟩, ?_, ?_, .inr ⟨n, lastMem, rfl⟩⟩
        · intro m hm
          have mem : (⟨.queue, m⟩ : Key) ∈ image := by simpa using hm
          have le : m ≤ b := by simpa using beforeGreatest _ mem (lt_of_not_ge (by simp))
          exact ⟨firstLe m mem, by simp only; omega⟩
        · intro m hm
          have le : m ≤ n := by simpa using greatest _ hm
          simp only
          omega

theorem new_empty {image : Image} (path : Bytes) (h : ∀ key, key ∉ image) :
    Queue.new image path = some (.blank image path) := by
  have none : seek image ⟨.queue, 0⟩ = none := seek_eq_none.mpr fun key mem => absurd mem (h key)
  simp [Queue.new, none]

/-- With chunks but no queue key, `Prev` runs off the front of the journal. -/
theorem new_chunks {image : Image} (path : Bytes) {key : Key} (mem : key ∈ image)
    (h : ∀ id, (⟨.queue, id⟩ : Key) ∉ image) : Queue.new image path = none := by
  have chunkOnly : ∀ key ∈ image, ∃ n, key = ⟨.chunk, n⟩ := by
    intro key mem
    rcases key_cases key with ⟨n, rfl⟩ | same
    · exact absurd mem (h n)
    · exact same
  obtain ⟨n, rfl⟩ := chunkOnly key mem
  cases seekFirst : seek image ⟨.queue, 0⟩ with
  | none => exact absurd (seek_eq_none.mp seekFirst _ mem) (by simp)
  | some first =>
    cases seekChunk : seek image ⟨.chunk, 0⟩ with
    | none => exact absurd (seek_eq_none.mp seekChunk _ mem) (by simp)
    | some chunk =>
      obtain ⟨-, -, least⟩ := seek_eq_some.mp seekChunk
      have none : prev image chunk = none := by
        apply prev_eq_none.mpr
        intro other otherMem
        obtain ⟨m, rfl⟩ := chunkOnly other otherMem
        exact least _ otherMem (by simp)
      simp [Queue.new, seekFirst, seekChunk, none]

theorem new_blank {image : Image} {path : Bytes} {q : Queue} (h : Queue.new image path = some q) :
    ∃ head tail chunks, q = { Queue.blank image path with
      queueHead := head, queueTail := tail, chunksHead := chunks } := by
  unfold Queue.new at h
  split at h
  · exact ⟨_, _, _, (Option.some.inj h).symm⟩
  · split at h
    · obtain ⟨last, -, same⟩ := Option.bind_eq_some_iff.mp h
      exact ⟨_, _, _, (Option.some.inj same).symm⟩
    · obtain ⟨before, -, rest⟩ := Option.bind_eq_some_iff.mp h
      obtain ⟨last, -, same⟩ := Option.bind_eq_some_iff.mp rest
      exact ⟨_, _, _, (Option.some.inj same).symm⟩

theorem contents_new {image : Image} {path : Bytes} {q : Queue}
    (h : Queue.new image path = some q) : q.contents = image := by
  obtain ⟨head, tail, chunks, rfl⟩ := new_blank h
  rfl

theorem Recovered.ownership {image : Image} {path : Bytes} {q : Queue}
    (rec : Recovered image path q) : q.Ownership [] where
  head_type := rec.head_type
  tail_type := rec.tail_type
  tail_le_head := by
    have := rec.range _ rec.tail_mem
    omega
  returned_lt := by simp [rec.returned]
  held_nodup := List.nodup_nil
  held_lt := by simp
  held_not_returned := by simp
  items_open := rec.itemsOpen
  covered id stored := by
    have mem : id ∈ Queue.queueIds image := by
      rw [Queue.Stored, Queue.contents, rec.journal, Journal.contents_fresh] at stored
      simpa using stored
    exact .inl (.inr (rec.range id mem))

theorem ownership_blank {image : Image} (path : Bytes) (empty : ∀ key, key ∉ image) :
    (Queue.blank image path).Ownership [] where
  head_type := rfl
  tail_type := rfl
  tail_le_head := le_refl _
  returned_lt := by simp [Queue.blank]
  held_nodup := List.nodup_nil
  held_lt := by simp
  held_not_returned := by simp
  items_open := rfl
  covered _ stored := absurd stored (empty _)

theorem new_cases {image : Image} {path : Bytes} {q : Queue} (h : Queue.new image path = some q) :
    Recovered image path q ∨ (∀ key, key ∉ image) ∧ q = .blank image path := by
  by_cases some : ∃ id, (⟨.queue, id⟩ : Key) ∈ image
  · obtain ⟨id, mem⟩ := some
    obtain ⟨q', hq, rec⟩ := new_queue path mem
    obtain rfl : q' = q := Option.some.inj (hq.symm.trans h)
    exact .inl rec
  · by_cases empty : ∀ key, key ∉ image
    · rw [new_empty path empty] at h
      exact .inr ⟨empty, (Option.some.inj h).symm⟩
    · simp only [not_forall, not_not] at empty
      obtain ⟨key, mem⟩ := empty
      rw [new_chunks path mem (by simpa using some)] at h
      cases h

theorem journal_new {image : Image} {path : Bytes} {q : Queue}
    (new : Queue.new image path = some q) : q.journal = ⟨image, []⟩ := by
  rcases new_cases new with rec | ⟨-, rfl⟩
  · exact rec.journal
  · rfl

theorem ownership_new {image : Image} {path : Bytes} {q : Queue}
    (h : Queue.new image path = some q) : q.Ownership [] := by
  rcases new_cases h with rec | ⟨empty, rfl⟩
  · exact rec.ownership
  · exact ownership_blank path empty

/-- The constructor reads no key through an invalid iterator, and the tail it sets
is a queue key that does not lie beyond the head. -/
def OpensSound (image : Image) (path : Bytes) : Prop :=
  ∃ q, Queue.new image path = some q ∧ q.queueTail.type = .queue ∧
    q.queueTail.id ≤ q.queueHead.id

theorem sound_iff (image : Image) (path : Bytes) :
    OpensSound image path ↔ Process.Reopenable image := by
  constructor
  · rintro ⟨q, hq, -⟩
    by_contra unopenable
    simp only [Process.Reopenable, not_or, not_exists, not_forall, not_not] at unopenable
    obtain ⟨noQueue, key, mem⟩ := unopenable
    rw [new_chunks path mem noQueue] at hq
    cases hq
  · rintro (⟨id, mem⟩ | empty)
    · obtain ⟨q, hq, rec⟩ := new_queue path mem
      have := rec.range _ rec.tail_mem
      exact ⟨q, hq, rec.tail_type, by omega⟩
    · exact ⟨_, new_empty path empty, rfl, le_refl _⟩

def crashImage (path : Bytes) (acts : List Act) (writes : ℕ) : Image :=
  ((Process.created path).run acts).queue.journal.imageAt writes

/-- On the crash images of all runs, the constructor is sound exactly on those that
hold a queue key or nothing. -/
theorem constructor_sound_iff (path : Bytes) (acts : List Act) (writes : ℕ) :
    OpensSound (crashImage path acts writes) path ↔
      (∃ id, (⟨.queue, id⟩ : Key) ∈ crashImage path acts writes) ∨
        ∀ key, key ∉ crashImage path acts writes :=
  sound_iff _ path

def unfinishedPush : List Act :=
  [.newOqstream, .oopen 0 2 false, .owrite 0 [104, 105] 0 fun _ => true]

theorem constructor_unsound_on_chunks : ¬OpensSound (crashImage [113] unfinishedPush 1) [113] := by
  rintro ⟨q, hq, -⟩
  have none : Queue.new (crashImage [113] unfinishedPush 1) [113] = none := by decide
  rw [none] at hq
  cases hq

def drain : ℕ → Queue → List ℕ
  | 0, _ => []
  | n + 1, q =>
    match q.popBegin with
    | none => []
    | some (id, q) => id :: drain n q

theorem drain_range (n : ℕ) (q : Queue) (empty : q.returned = ∅)
    (le : q.queueTail.id ≤ q.queueHead.id) :
    drain n q = (List.range' q.queueTail.id (q.queueHead.id - q.queueTail.id)).take n := by
  induction n generalizing q with
  | zero => simp [drain]
  | succ n ih =>
    cases pop : q.popBegin with
    | none =>
      have same := (Queue.popBegin_none.mp pop).2
      simp [drain, pop, same]
    | some pair =>
      obtain ⟨id, q'⟩ := pair
      rcases Queue.popBegin_some pop with ⟨mem, -, -⟩ | ⟨-, ne, rfl, rfl⟩
      · simp [empty] at mem
      · have size : q.queueHead.id - q.queueTail.id =
            (q.queueHead.id - (q.queueTail.id + 1)) + 1 := by omega
        have rest := ih q.poppedTail empty (by simp only [Queue.poppedTail]; omega)
        simp only [drain, pop, rest]
        rw [size, List.range'_succ]
        simp [Queue.poppedTail]

/-- The queue built over the image counts its entries, hands out exactly their ids
in increasing order and then nothing, and every id it hands out has its entry. -/
def Rebuilds (image : Image) (path : Bytes) : Prop :=
  ∃ q, Queue.new image path = some q ∧
    q.count = (Queue.queueIds image).card ∧
    (∀ n, drain n q = (Queue.queueIds image).sort.take n) ∧
    ∀ n, ∀ id ∈ drain n q, (⟨.queue, id⟩ : Key) ∈ image

/-- No id is missing between two ids that are left. -/
def Contiguous (image : Image) : Prop :=
  ∀ first ∈ Queue.queueIds image, ∀ last ∈ Queue.queueIds image,
    ∀ id, first ≤ id → id ≤ last → id ∈ Queue.queueIds image

theorem sort_Ico (a b : ℕ) : (Finset.Ico a b).sort = List.range' a (b - a) := by
  have sorted : (List.range' a (b - a)).Pairwise (· ≤ ·) :=
    List.pairwise_le_range'
  have same : (List.range' a (b - a)).toFinset = Finset.Ico a b := by
    ext id
    simp only [List.mem_toFinset, List.mem_range'_1, Finset.mem_Ico]
    omega
  rw [← same]
  exact (List.toFinset_sort (· ≤ ·) List.nodup_range').mpr sorted

theorem restores_iff {image : Image} (path : Bytes) {id : ℕ}
    (h : (⟨.queue, id⟩ : Key) ∈ image) : Rebuilds image path ↔ Contiguous image := by
  obtain ⟨q, hq, rec⟩ := new_queue path h
  have order := rec.range _ rec.tail_mem
  have count : q.count = q.queueHead.id - q.queueTail.id := by
    simp [Queue.count, rec.returned]
  have inside : Queue.queueIds image ⊆ Finset.Ico q.queueTail.id q.queueHead.id := by
    intro m hm
    exact Finset.mem_Ico.mpr (rec.range m hm)
  constructor
  · rintro ⟨q', hq', counted, -⟩
    obtain rfl : q = q' := Option.some.inj (hq.symm.trans hq')
    have whole : Queue.queueIds image = Finset.Ico q.queueTail.id q.queueHead.id := by
      apply Finset.eq_of_subset_of_card_le inside
      rw [Nat.card_Ico, ← count, counted]
    intro first hfirst last hlast m hm hm'
    rw [whole, Finset.mem_Ico] at hfirst hlast ⊢
    omega
  · intro contiguous
    obtain ⟨last, hlast, head⟩ := rec.head_pos
    have whole : Queue.queueIds image = Finset.Ico q.queueTail.id q.queueHead.id := by
      apply Finset.Subset.antisymm inside
      intro m hm
      rw [Finset.mem_Ico] at hm
      exact contiguous _ rec.tail_mem _ hlast m hm.1 (by omega)
    have drained : ∀ n, drain n q = (Queue.queueIds image).sort.take n := by
      intro n
      rw [drain_range n q rec.returned (by omega), whole, sort_Ico]
    refine ⟨q, hq, ?_, drained, ?_⟩
    · rw [whole, Nat.card_Ico, count]
    · intro n m hm
      rw [drained n] at hm
      have mem := List.mem_of_mem_take hm
      rwa [Finset.mem_sort, Queue.mem_queueIds] at mem

/-- A journal left by a run, with at least one entry, is restored exactly when no
entry was erased between two that are left. -/
theorem reopen_restores_iff (path : Bytes) (acts : List Act) (writes : ℕ)
    (left : (Queue.queueIds (crashImage path acts writes)).Nonempty) :
    Rebuilds (crashImage path acts writes) path ↔ Contiguous (crashImage path acts writes) := by
  obtain ⟨id, mem⟩ := left
  exact restores_iff path (by simpa using mem)

def erasedOutOfOrder : List Act :=
  [.newOqstream, .newIqstream, .newIqstream,
    .oopen 0 1 false, .owrite 0 [97] 0 fun _ => true,
    .oopen 0 1 false, .owrite 0 [98] 0 fun _ => true,
    .oopen 0 1 false, .owrite 0 [99] 0 fun _ => true,
    .iopen 0, .iopen 1, .iclose 1 true true]

theorem reopen_restores_pushes : Rebuilds (crashImage [113] erasedOutOfOrder 3) [113] := by
  have ids : Queue.queueIds (crashImage [113] erasedOutOfOrder 3) = Finset.Ico 0 3 := by decide
  apply (reopen_restores_iff [113] erasedOutOfOrder 3 ⟨0, by rw [ids]; simp⟩).mpr
  intro first hfirst last hlast id above below
  rw [ids, Finset.mem_Ico] at hfirst hlast ⊢
  omega

theorem reopen_miscounts_gap : ¬Rebuilds (crashImage [113] erasedOutOfOrder 4) [113] := by
  rintro ⟨q, hq, count, -⟩
  have opened : (Queue.new (crashImage [113] erasedOutOfOrder 4) [113]).map Queue.count = some 3 := by
    decide
  have entries : (Queue.queueIds (crashImage [113] erasedOutOfOrder 4)).card = 2 := by decide
  rw [hq, Option.map_some, count, entries] at opened
  cases opened

end Darner.QueueRecovery
