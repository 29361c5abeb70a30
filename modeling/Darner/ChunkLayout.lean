import Darner.QueueRecovery
import Mathlib.Algebra.BigOperators.Intervals

/-! Where the chunks of a journal lie. Every stored header owns a filled range of
chunk ids, every unfinished multi-chunk push owns the range it reserved and has
filled its front, all these ranges are apart, and the chunk counter lies beyond
them. The journal part holds of every crash image, so a restart begins with it. -/

namespace Darner
open OrderedStore

def Header.range (header : Header) : Finset ℕ := Finset.Ico header.beg header.end_

def OQStream.reserved (s : OQStream) : Finset ℕ :=
  if s.header.end_ > 1 then s.header.range else ∅

theorem OQStream.reserved_multi {s : OQStream} (multi : s.header.end_ > 1) :
    s.reserved = s.header.range := if_pos multi

theorem OQStream.reserved_single {s : OQStream} (single : s.header.end_ ≤ 1) :
    s.reserved = ∅ := if_neg (by omega)

namespace ChunkLayout
open QueueRecovery

def chunkAt (image : Image) (n : ℕ) : Bytes := (image.lookup ⟨.chunk, n⟩).getD []

/-- The chunks of `[beg, stop)` are all there and have `size` bytes together. -/
structure Filled (image : Image) (beg stop size : ℕ) : Prop where
  present : ∀ n, beg ≤ n → n < stop → (⟨.chunk, n⟩ : Key) ∈ image
  sum : ∑ n ∈ Finset.Ico beg stop, (chunkAt image n).length = size

theorem Filled.congr {image image' : Image} {beg stop size : ℕ} (h : Filled image beg stop size)
    (same : ∀ n, beg ≤ n → n < stop → image'.lookup ⟨.chunk, n⟩ = image.lookup ⟨.chunk, n⟩) :
    Filled image' beg stop size where
  present n hb hs := by
    rw [mem_iff_lookup, same n hb hs, ← mem_iff_lookup]
    exact h.present n hb hs
  sum := by
    rw [← h.sum]
    apply Finset.sum_congr rfl
    intro n hn
    rw [Finset.mem_Ico] at hn
    rw [chunkAt, chunkAt, same n hn.1 hn.2]

theorem Filled.empty (image : Image) (beg : ℕ) : Filled image beg beg 0 where
  present n hb hs := by omega
  sum := by simp

theorem Filled.snoc {image : Image} {beg stop size : ℕ} {chunk : Bytes}
    (h : Filled image beg stop size) (le : beg ≤ stop) :
    Filled (image.insert ⟨.chunk, stop⟩ chunk) beg (stop + 1) (size + chunk.length) := by
  have old : Filled (image.insert ⟨.chunk, stop⟩ chunk) beg stop size := by
    apply h.congr
    intro n _ hs
    rw [lookup_insert_eq, if_neg (by simp; omega)]
  have last : (image.insert ⟨.chunk, stop⟩ chunk).lookup ⟨.chunk, stop⟩ = some chunk := by
    simp
  constructor
  · intro n hb hs
    by_cases here : n = stop
    · rw [here, mem_iff_lookup]
      exact ⟨chunk, last⟩
    · exact old.present n hb (by omega)
  · rw [Finset.sum_Ico_succ_top le, old.sum, chunkAt, last, Option.getD_some]

def HeaderAt (image : Image) (id : ℕ) (header : Header) : Prop :=
  ∃ value, image.lookup ⟨.queue, id⟩ = some value ∧ Stored.ofValue value = .header header

theorem HeaderAt.mem {image : Image} {id : ℕ} {header : Header} (h : HeaderAt image id header) :
    (⟨.queue, id⟩ : Key) ∈ image := by
  obtain ⟨value, hv, -⟩ := h
  exact mem_iff_lookup.mpr ⟨value, hv⟩

theorem HeaderAt.unique {image : Image} {id : ℕ} {header header' : Header}
    (h : HeaderAt image id header) (h' : HeaderAt image id header') : header = header' := by
  obtain ⟨value, entry, stored⟩ := h
  obtain ⟨value', entry', stored'⟩ := h'
  rw [entry] at entry'
  obtain rfl := Option.some.inj entry'
  rw [stored] at stored'
  exact Stored.header.inj stored'

theorem headerAt_congr {image image' : Image} {id : ℕ} (header : Header)
    (same : image'.lookup ⟨.queue, id⟩ = image.lookup ⟨.queue, id⟩) :
    HeaderAt image' id header ↔ HeaderAt image id header := by
  rw [HeaderAt, HeaderAt, same]

/-- Every stored header is whole, and no two of them share a chunk. -/
structure Intact (image : Image) : Prop where
  several : ∀ {id header}, HeaderAt image id header → header.beg + 2 ≤ header.end_
  filled : ∀ {id header}, HeaderAt image id header →
    Filled image header.beg header.end_ header.size
  apart : ∀ {id id' header header'}, id ≠ id' → HeaderAt image id header →
    HeaderAt image id' header' → Disjoint header.range header'.range
  small : ∀ n, (⟨.chunk, n⟩ : Key) ∈ image → n + 1 < wordSize

theorem intact_empty {image : Image} (empty : ∀ key, key ∉ image) : Intact image where
  several h := absurd h.mem (empty _)
  filled h := absurd h.mem (empty _)
  apart _ h _ := absurd h.mem (empty _)
  small _ h := absurd h (empty _)

theorem ofValue_escape (item : Bytes) (stray : UInt8) (header : Header) :
    Stored.ofValue (escape item stray) ≠ .header header := by
  unfold escape
  split
  case isTrue zero =>
    -- an escaped item of more than two bytes ends in `0, 0`
    unfold Stored.ofValue
    by_cases long : (item ++ [0]).length > 2
    · have last : (item ++ [(0 : UInt8)])[(item ++ [(0 : UInt8)]).length - 1]? = some 0 := by
        simp
      have before : (item ++ [(0 : UInt8)])[(item ++ [(0 : UInt8)]).length - 2]? = some 0 := by
        have pos : item.length - 1 < item.length := by
          simp at long
          omega
        have index : (item ++ [(0 : UInt8)]).length - 2 = item.length - 1 := by simp
        rw [index, List.getElem?_append_left pos]
        rw [lastByte, List.getElem?_eq_getElem pos, Option.getD_some] at zero
        rw [List.getElem?_eq_getElem pos, zero]
      rw [if_pos ⟨long, last⟩, if_neg (by rw [before]; decide), if_pos before]
      simp
    · rw [if_neg (by tauto)]
      simp
  case isFalse nonzero =>
    unfold Stored.ofValue
    rw [if_neg]
    · simp
    · rintro ⟨-, last⟩
      exact nonzero (by rw [lastByte, last, Option.getD_some])

/-- An unfinished multi-chunk push: the chunks before `chunk_pos_` are written. -/
structure Unfinished (image : Image) (chunksHead : ℕ) (s : OQStream) : Prop where
  several : s.header.beg + 2 ≤ s.header.end_
  start : s.header.beg ≤ s.chunkPos
  stop : s.chunkPos ≤ s.header.end_
  reserved : s.header.end_ ≤ chunksHead
  filled : Filled image s.header.beg s.chunkPos s.header.size

structure Layout (image : Image) (chunksHead : ℕ) (readers : List IQStream)
    (writers : List OQStream) : Prop where
  intact : Intact image
  below : ∀ n, (⟨.chunk, n⟩ : Key) ∈ image → n < chunksHead
  small : chunksHead < wordSize
  unfinished : ∀ s ∈ writers, s.header.end_ > 1 → Unfinished image chunksHead s
  apart : writers.Pairwise fun s t => Disjoint s.reserved t.reserved
  clear : ∀ s ∈ writers, ∀ {id header}, HeaderAt image id header → Disjoint s.reserved header.range
  known : ∀ s ∈ readers, s.header.end_ > 1 → HeaderAt image s.id s.header

namespace Layout

variable {image image' : Image} {chunksHead : ℕ} {readers readers' : List IQStream}
  {writers writers' : List OQStream}

theorem range_lt (lay : Layout image chunksHead readers writers) {id : ℕ} {header : Header}
    (h : HeaderAt image id header) : header.end_ ≤ chunksHead := by
  have several := lay.intact.several h
  have last := (lay.intact.filled h).present (header.end_ - 1) (by omega) (by omega)
  have := lay.below _ last
  omega

/-- A write that adds no header and leaves alone the chunks of all headers and
reservations that remain. -/
theorem transport (lay : Layout image chunksHead readers writers)
    (headers : ∀ id header, HeaderAt image' id header → HeaderAt image id header)
    (stored : ∀ id header, HeaderAt image' id header → ∀ n ∈ header.range,
      image'.lookup ⟨.chunk, n⟩ = image.lookup ⟨.chunk, n⟩)
    (reserved : ∀ s ∈ writers, ∀ n ∈ s.reserved,
      image'.lookup ⟨.chunk, n⟩ = image.lookup ⟨.chunk, n⟩)
    (below : ∀ n, (⟨.chunk, n⟩ : Key) ∈ image' → n < chunksHead)
    (known : ∀ s ∈ readers', s.header.end_ > 1 → HeaderAt image' s.id s.header) :
    Layout image' chunksHead readers' writers where
  intact :=
    { several := fun h => lay.intact.several (headers _ _ h)
      filled := fun h => (lay.intact.filled (headers _ _ h)).congr fun n hb hs =>
        stored _ _ h n (Finset.mem_Ico.mpr ⟨hb, hs⟩)
      apart := fun ne h h' => lay.intact.apart ne (headers _ _ h) (headers _ _ h')
      small := fun n h => by
        have := below n h
        have := lay.small
        omega }
  below := below
  small := lay.small
  unfinished s mem multi := by
    have old := lay.unfinished s mem multi
    refine { old with filled := old.filled.congr fun n hb hs => reserved s mem n ?_ }
    rw [OQStream.reserved_multi multi]
    exact Finset.mem_Ico.mpr ⟨hb, by have := old.stop; omega⟩
  apart := lay.apart
  clear s mem _ _ h := lay.clear s mem (headers _ _ h)
  known := known

theorem consReader {s : IQStream} (lay : Layout image chunksHead readers writers)
    (known : s.header.end_ > 1 → HeaderAt image s.id s.header) :
    Layout image chunksHead (s :: readers) writers :=
  { lay with known := List.forall_mem_cons.mpr ⟨known, lay.known⟩ }

theorem dropReader {s : IQStream} (lay : Layout image chunksHead (s :: readers) writers) :
    Layout image chunksHead readers writers :=
  { lay with known := fun t mem => lay.known t (List.mem_cons_of_mem _ mem) }

theorem perm (lay : Layout image chunksHead readers writers) (left : readers.Perm readers')
    (right : writers.Perm writers') : Layout image chunksHead readers' writers' :=
  { lay with
    unfinished := fun s mem => lay.unfinished s (right.mem_iff.mpr mem)
    apart := (right.pairwise_iff fun h => h.symm).mp lay.apart
    clear := fun s mem => lay.clear s (right.mem_iff.mpr mem)
    known := fun s mem => lay.known s (left.mem_iff.mpr mem) }

theorem drop {s : OQStream} (lay : Layout image chunksHead readers (s :: writers)) :
    Layout image chunksHead readers writers :=
  { lay with
    unfinished := fun t mem => lay.unfinished t (List.mem_cons_of_mem _ mem)
    apart := (List.pairwise_cons.mp lay.apart).2
    clear := fun t mem => lay.clear t (List.mem_cons_of_mem _ mem) }

theorem cons {s : OQStream} (lay : Layout image chunksHead readers writers)
    (unfinished : s.header.end_ > 1 → Unfinished image chunksHead s)
    (apart : ∀ t ∈ writers, Disjoint s.reserved t.reserved)
    (clear : ∀ {id header}, HeaderAt image id header → Disjoint s.reserved header.range) :
    Layout image chunksHead readers (s :: writers) :=
  { lay with
    unfinished := List.forall_mem_cons.mpr ⟨unfinished, lay.unfinished⟩
    apart := List.pairwise_cons.mpr ⟨apart, lay.apart⟩
    clear := List.forall_mem_cons.mpr ⟨clear, lay.clear⟩ }

theorem lookup_chunk_insert_queue (image : Image) (id n : ℕ) (value : Bytes) :
    (image.insert ⟨.queue, id⟩ value).lookup ⟨.chunk, n⟩ = image.lookup ⟨.chunk, n⟩ := by
  rw [lookup_insert_eq, if_neg (by simp)]

theorem lookup_queue_insert_chunk (image : Image) (id n : ℕ) (value : Bytes) :
    (image.insert ⟨.chunk, n⟩ value).lookup ⟨.queue, id⟩ = image.lookup ⟨.queue, id⟩ := by
  rw [lookup_insert_eq, if_neg (by simp)]

theorem headerAt_insert_ne {id id' : ℕ} {value : Bytes} (header : Header) (ne : id' ≠ id) :
    HeaderAt (image.insert ⟨.queue, id⟩ value) id' header ↔ HeaderAt image id' header := by
  apply headerAt_congr
  rw [lookup_insert_eq, if_neg (by simpa using ne)]

theorem headerAt_insert_self {id : ℕ} {value : Bytes} {header : Header} :
    HeaderAt (image.insert ⟨.queue, id⟩ value) id header ↔ Stored.ofValue value = .header header := by
  simp [HeaderAt]

theorem known_insert (lay : Layout image chunksHead readers writers) {id : ℕ} {value : Bytes}
    (fresh : (⟨.queue, id⟩ : Key) ∉ image) (s : IQStream) (mem : s ∈ readers)
    (multi : s.header.end_ > 1) :
    HeaderAt (image.insert ⟨.queue, id⟩ value) s.id s.header := by
  have old := lay.known s mem multi
  apply (headerAt_insert_ne _ _).mpr old
  rintro rfl
  exact fresh old.mem

theorem below_insert_queue (lay : Layout image chunksHead readers writers) {id : ℕ}
    {value : Bytes} (n : ℕ) (h : (⟨.chunk, n⟩ : Key) ∈ image.insert ⟨.queue, id⟩ value) :
    n < chunksHead := by
  rw [mem_iff_lookup, lookup_chunk_insert_queue, ← mem_iff_lookup] at h
  exact lay.below n h

theorem pushItem (lay : Layout image chunksHead readers writers) {id : ℕ} {value : Bytes}
    (fresh : (⟨.queue, id⟩ : Key) ∉ image) (plain : ∀ header, Stored.ofValue value ≠ .header header) :
    Layout (image.insert ⟨.queue, id⟩ value) chunksHead readers writers := by
  refine lay.transport ?_ ?_ ?_ lay.below_insert_queue (lay.known_insert fresh)
  · intro id' header h
    by_cases here : id' = id
    · rw [here, headerAt_insert_self] at h
      exact absurd h (plain header)
    · exact (headerAt_insert_ne header here).mp h
  · exact fun _ _ _ n _ => lookup_chunk_insert_queue image id n value
  · exact fun _ _ n _ => lookup_chunk_insert_queue image id n value

theorem fits {s : OQStream} (lay : Layout image chunksHead readers (s :: writers))
    (multi : s.header.end_ > 1) (size : s.header.size < wordSize) : s.header.Fits := by
  have own := lay.unfinished s List.mem_cons_self multi
  have := own.several
  have := own.reserved
  have := lay.small
  exact ⟨by omega, by omega, size⟩

theorem publish {s : OQStream} (lay : Layout image chunksHead readers (s :: writers)) {id : ℕ}
    (fresh : (⟨.queue, id⟩ : Key) ∉ image) (multi : s.header.end_ > 1)
    (finished : s.chunkPos = s.header.end_) (size : s.header.size < wordSize) :
    Layout (image.insert ⟨.queue, id⟩ s.header.str) chunksHead readers writers := by
  have own := lay.unfinished s List.mem_cons_self multi
  have clear : ∀ {id header}, HeaderAt image id header →
      Disjoint s.header.range header.range := by
    intro id header h
    rw [← OQStream.reserved_multi multi]
    exact lay.clear s List.mem_cons_self h
  have str := Stored.ofValue_str (lay.fits multi size)
  have same := fun n => lookup_chunk_insert_queue image id n s.header.str
  have entries : ∀ {id' header}, HeaderAt (image.insert ⟨.queue, id⟩ s.header.str) id' header →
      (id' = id ∧ header = s.header) ∨ (id' ≠ id ∧ HeaderAt image id' header) := by
    intro id' header h
    by_cases here : id' = id
    · rw [here, headerAt_insert_self, str] at h
      exact .inl ⟨here, (Stored.header.inj h).symm⟩
    · exact .inr ⟨here, (headerAt_insert_ne header here).mp h⟩
  have whole : Filled image s.header.beg s.header.end_ s.header.size := by
    rw [← finished]
    exact own.filled
  refine
    { intact :=
        { several := fun h => ?_, filled := fun h => ?_, apart := fun ne h h' => ?_
          small := fun n h => ?_ }
      below := lay.below_insert_queue
      small := lay.small
      unfinished := fun t mem many => ?_
      apart := (List.pairwise_cons.mp lay.apart).2
      clear := fun t mem _ _ h => ?_
      known := lay.known_insert fresh }
  · rcases entries h with ⟨-, rfl⟩ | ⟨-, old⟩
    · exact own.several
    · exact lay.intact.several old
  · rcases entries h with ⟨-, rfl⟩ | ⟨-, old⟩
    · exact whole.congr fun n _ _ => same n
    · exact (lay.intact.filled old).congr fun n _ _ => same n
  · rcases entries h with ⟨rfl, rfl⟩ | ⟨-, old⟩
    · rcases entries h' with ⟨rfl, -⟩ | ⟨-, old'⟩
      · exact absurd rfl ne
      · exact clear old'
    · rcases entries h' with ⟨-, rfl⟩ | ⟨-, old'⟩
      · exact (clear old).symm
      · exact lay.intact.apart ne old old'
  · have := lay.below_insert_queue n h
    have := lay.small
    omega
  · have old := lay.unfinished t (List.mem_cons_of_mem _ mem) many
    exact { old with filled := old.filled.congr fun n _ _ => same n }
  · rcases entries h with ⟨-, rfl⟩ | ⟨-, old⟩
    · have apart := (List.pairwise_cons.mp lay.apart).1 t mem
      rw [OQStream.reserved_multi multi] at apart
      exact apart.symm
    · exact lay.clear t (List.mem_cons_of_mem _ mem) old

theorem reserve {s : OQStream} {count : ℕ} (lay : Layout image chunksHead readers writers)
    (several : 1 < count) (fits : chunksHead + count < wordSize)
    (header : s.header = ⟨chunksHead, chunksHead + count, 0⟩) (pos : s.chunkPos = s.header.beg) :
    Layout image (chunksHead + count) readers (s :: writers) := by
  have wider : Layout image (chunksHead + count) readers writers :=
    { lay with
      below := fun n h => Nat.lt_add_right count (lay.below n h)
      small := fits
      unfinished := fun t mem multi =>
        let old := lay.unfinished t mem multi
        { old with reserved := Nat.le_add_right_of_le old.reserved } }
  have range : s.reserved ⊆ Finset.Ico chunksHead (chunksHead + count) := by
    rw [OQStream.reserved, header]
    split
    · exact Finset.Subset.refl _
    · exact Finset.empty_subset _
  have beyond : ∀ {other : Finset ℕ}, (∀ n ∈ other, n < chunksHead) → Disjoint s.reserved other := by
    intro other less
    rw [Finset.disjoint_left]
    intro n mem mem'
    have := Finset.mem_Ico.mp (range mem)
    have := less n mem'
    omega
  refine wider.cons ?_ ?_ ?_
  · intro multi
    rw [header] at pos
    refine ⟨?_, ?_, ?_, ?_, ?_⟩
    · simp only [header]
      omega
    · simp [header, pos]
    · simp [header, pos]
    · simp [header]
    · simpa [header, pos] using Filled.empty image chunksHead
  · intro t mem
    apply beyond
    intro n hn
    by_cases multi : t.header.end_ > 1
    · rw [OQStream.reserved_multi multi] at hn
      have := (Finset.mem_Ico.mp hn).2
      have := (lay.unfinished t mem multi).reserved
      omega
    · simp [OQStream.reserved, multi] at hn
  · intro id header h
    apply beyond
    intro n hn
    have := (Finset.mem_Ico.mp hn).2
    have := lay.range_lt h
    omega

theorem writeChunk {s : OQStream} (lay : Layout image chunksHead readers (s :: writers))
    (multi : s.header.end_ > 1) (open_ : s.chunkPos ≠ s.header.end_) (chunk : Bytes) :
    Layout (image.insert ⟨.chunk, s.chunkPos⟩ chunk) chunksHead readers
      (s.advance chunk.length :: writers) := by
  have own := lay.unfinished s List.mem_cons_self multi
  have inside : s.chunkPos ∈ s.reserved := by
    rw [OQStream.reserved_multi multi]
    exact Finset.mem_Ico.mpr ⟨own.start, by have := own.stop; omega⟩
  have same : ∀ {n}, n ≠ s.chunkPos →
      (image.insert ⟨.chunk, s.chunkPos⟩ chunk).lookup ⟨.chunk, n⟩ = image.lookup ⟨.chunk, n⟩ := by
    intro n ne
    rw [lookup_insert_eq, if_neg (by simpa using ne)]
  have headers : ∀ id header, HeaderAt (image.insert ⟨.chunk, s.chunkPos⟩ chunk) id header ↔
      HeaderAt image id header := fun id header =>
    headerAt_congr header (lookup_queue_insert_chunk image id s.chunkPos chunk)
  have rest : Layout (image.insert ⟨.chunk, s.chunkPos⟩ chunk) chunksHead readers writers := by
    refine lay.drop.transport (fun id header => (headers id header).mp) ?_ ?_ ?_ ?_
    · intro id header h n hn
      apply same
      rintro rfl
      exact Finset.disjoint_left.mp
        (lay.clear s List.mem_cons_self ((headers id header).mp h)) inside hn
    · intro t mem n hn
      apply same
      rintro rfl
      exact Finset.disjoint_left.mp ((List.pairwise_cons.mp lay.apart).1 t mem) inside hn
    · intro n h
      by_cases here : n = s.chunkPos
      · have := own.stop
        have := own.reserved
        omega
      · rw [mem_iff_lookup, same here, ← mem_iff_lookup] at h
        exact lay.below n h
    · exact fun t mem many => (headers _ _).mpr (lay.known t mem many)
  refine rest.cons ?_ ?_ ?_
  · intro _
    have stop := own.stop
    exact
      { several := own.several, start := Nat.le_succ_of_le own.start
        stop := by simp only [OQStream.advance]; omega
        reserved := own.reserved, filled := own.filled.snoc own.start }
  · exact (List.pairwise_cons.mp lay.apart).1
  · exact fun h => lay.clear s List.mem_cons_self ((headers _ _).mp h)

theorem delete {keys : List Key} {sync : Bool} (lay : Layout image chunksHead readers writers)
    (stored : ∀ id header, (⟨.queue, id⟩ : Key) ∉ keys → HeaderAt image id header →
      ∀ n ∈ header.range, (⟨.chunk, n⟩ : Key) ∉ keys)
    (reserved : ∀ s ∈ writers, ∀ n ∈ s.reserved, (⟨.chunk, n⟩ : Key) ∉ keys)
    (known : ∀ s ∈ readers', s ∈ readers ∧ (⟨.queue, s.id⟩ : Key) ∉ keys) :
    Layout (apply image ⟨keys.map .delete, sync⟩) chunksHead readers' writers := by
  have kept : ∀ {key : Key}, key ∉ keys →
      (apply image ⟨keys.map .delete, sync⟩).lookup key = image.lookup key := by
    intro key h
    rw [lookup_apply_deletes, if_neg h]
  have left : ∀ {key : Key}, key ∈ apply image ⟨keys.map .delete, sync⟩ →
      key ∉ keys ∧ key ∈ image := by
    intro key h
    rw [mem_iff_lookup, lookup_apply_deletes] at h
    by_cases mem : key ∈ keys
    · simp [mem] at h
    · rw [if_neg mem] at h
      exact ⟨mem, mem_iff_lookup.mpr h⟩
  have headers : ∀ id header, HeaderAt (apply image ⟨keys.map .delete, sync⟩) id header →
      (⟨.queue, id⟩ : Key) ∉ keys ∧ HeaderAt image id header := by
    intro id header h
    have mem := (left h.mem).1
    exact ⟨mem, (headerAt_congr header (kept mem)).mp h⟩
  refine lay.transport (fun id header h => (headers id header h).2) ?_ ?_ ?_ ?_
  · intro id header h n hn
    obtain ⟨mem, old⟩ := headers id header h
    exact kept (stored id header mem old n hn)
  · exact fun s mem n hn => kept (reserved s mem n hn)
  · exact fun n h => lay.below n (left h).2
  · intro s mem multi
    obtain ⟨old, notMem⟩ := known s mem
    exact (headerAt_congr _ (kept notMem)).mpr (lay.known s old multi)

theorem header_chunkIds (lay : Layout image chunksHead readers writers) {id n : ℕ}
    {header : Header} (h : HeaderAt image id header) : n ∈ header.chunkIds ↔ n ∈ header.range := by
  have several := lay.intact.several h
  have := lay.range_lt h
  have := lay.small
  rw [Header.mem_chunkIds (by omega) (by omega), Header.range, Finset.mem_Ico]

theorem erase {s : IQStream} {sync : Bool}
    (lay : Layout image chunksHead (s :: readers) writers)
    (single : ∀ t ∈ readers, t.id ≠ s.id) :
    Layout (apply image ⟨(Queue.itemKeys s.id s.header).map .delete, sync⟩) chunksHead
      readers writers := by
  have range : ∀ {n}, (⟨.chunk, n⟩ : Key) ∈ Queue.itemKeys s.id s.header →
      HeaderAt image s.id s.header ∧ n ∈ s.header.range := by
    intro n h
    obtain ⟨multi, mem⟩ := (Queue.chunk_mem_itemKeys _ _ _).mp h
    have stored := lay.known s List.mem_cons_self multi
    exact ⟨stored, (lay.header_chunkIds stored).mp mem⟩
  refine lay.delete ?_ ?_ ?_
  · intro id header notMem h n hn mem
    obtain ⟨own, hn'⟩ := range mem
    have ne : id ≠ s.id := fun e => notMem ((Queue.queue_mem_itemKeys _ _ _).mpr e)
    exact Finset.disjoint_left.mp (lay.intact.apart ne h own) hn hn'
  · intro t mem n hn mem'
    obtain ⟨own, hn'⟩ := range mem'
    exact Finset.disjoint_left.mp (lay.clear t mem own) hn hn'
  · intro t mem
    exact ⟨List.mem_cons_of_mem _ mem, fun h =>
      single t mem ((Queue.queue_mem_itemKeys _ _ _).mp h)⟩

theorem mem_chunkKeys_iff {s : OQStream} {n : ℕ} (lay : Layout image chunksHead readers writers)
    (mem : s ∈ writers) (multi : s.header.end_ > 1) :
    (⟨.chunk, n⟩ : Key) ∈ s.header.chunkKeys ↔ n ∈ s.reserved := by
  have own := lay.unfinished s mem multi
  have := own.several
  have := own.reserved
  have := lay.small
  rw [Header.chunk_mem_chunkKeys, Header.mem_chunkIds (by omega) (by omega),
    OQStream.reserved_multi multi, Header.range, Finset.mem_Ico]

theorem cancel {s : OQStream} {sync : Bool}
    (lay : Layout image chunksHead readers (s :: writers)) (multi : s.header.end_ > 1) :
    Layout (apply image ⟨s.header.chunkKeys.map .delete, sync⟩) chunksHead readers writers := by
  have range : ∀ {n}, (⟨.chunk, n⟩ : Key) ∈ s.header.chunkKeys → n ∈ s.reserved :=
    (lay.mem_chunkKeys_iff List.mem_cons_self multi).mp
  refine lay.drop.delete ?_ ?_ ?_
  · intro id header _ h n hn mem
    exact Finset.disjoint_left.mp (lay.clear s List.mem_cons_self h) (range mem) hn
  · intro t mem n hn mem'
    exact Finset.disjoint_left.mp ((List.pairwise_cons.mp lay.apart).1 t mem) (range mem') hn
  · exact fun t mem => ⟨mem, Header.queue_notMem_chunkKeys _ _⟩

end Layout

end ChunkLayout

end Darner
