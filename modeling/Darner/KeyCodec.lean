import Darner.Queue
import Mathlib.Order.Bounds.Basic

/-! The keys as leveldb sees them: eight chars that are the object representation of the
id, and the type byte. leveldb orders the journal by `comparator` and knows nothing of
the keys but that; the comparator has to be a total order in which only equal strings
are equal. A key read from a slice is a key of the queue's own type again, with its
unsigned type byte, whatever the sign of the char that it was stored in. -/

namespace Darner.KeyCodec
open OrderedStore

/-- `boost::array<char, sizeof(id_type) + 1>`, with the signed `char` of the machine. -/
@[ext] structure Slice where
  chars : List Int8
  size : chars.length = 9
deriving DecidableEq

/-- The members of `key_type`, with any type byte. -/
@[ext] structure RawKey where
  type : UInt8
  id : UInt64
deriving DecidableEq

def ktQueue : Int8 := 1

def ktChunk : Int8 := 2

namespace RawKey

def ofChar (type : Int8) (id : UInt64) : RawKey := ⟨type.toUInt8, id⟩

def ofSlice (s : Slice) : RawKey where
  type := (s.chars.get ⟨8, by rw [s.size]; decide⟩).toUInt8
  id := UInt64.ofNat (LittleEndian.decode ((s.chars.take 8).map Int8.toUInt8))

def slice (key : RawKey) : Slice where
  chars := (LittleEndian.encode 8 key.id.toNat).map UInt8.toInt8 ++ [key.type.toInt8]
  size := by simp

def compare (key other : RawKey) : Int :=
  if key.type < other.type then -1
  else if key.type > other.type then 1
  else if key.id < other.id then -1
  else if key.id > other.id then 1
  else 0

def toPair (key : RawKey) : ℕ ×ₗ ℕ := toLex (key.type.toNat, key.id.toNat)

theorem ofSlice_slice (key : RawKey) : ofSlice key.slice = key := by
  have small : key.id.toNat < 2 ^ 64 := key.id.toNat_lt
  have bytes : ((key.slice.chars.take 8).map Int8.toUInt8) = LittleEndian.encode 8 key.id.toNat := by
    rw [slice, List.take_append_of_le_length (by simp), List.take_of_length_le (by simp),
      List.map_map]
    exact List.map_id _
  apply RawKey.ext
  · simp [ofSlice, slice]
  · rw [ofSlice, bytes, LittleEndian.decode_encode_64 _ small, UInt64.ofNat_toNat]

theorem slice_ofSlice (s : Slice) : (ofSlice s).slice = s := by
  have size := s.size
  have bytes : ((s.chars.take 8).map Int8.toUInt8).length = 8 := by simp [size]
  have small := LittleEndian.decode_lt ((s.chars.take 8).map Int8.toUInt8)
  rw [bytes] at small
  have word : (UInt64.ofNat (LittleEndian.decode ((s.chars.take 8).map Int8.toUInt8))).toNat =
      LittleEndian.decode ((s.chars.take 8).map Int8.toUInt8) := by
    rw [UInt64.toNat_ofNat', Nat.mod_eq_of_lt (by simpa using small)]
  have back := LittleEndian.encode_decode ((s.chars.take 8).map Int8.toUInt8)
  rw [bytes] at back
  apply Slice.ext
  simp only [slice, ofSlice]
  rw [word, back, List.map_map]
  have same : UInt8.toInt8 ∘ Int8.toUInt8 = fun c => c := by
    funext c
    rfl
  rw [same, List.map_id', Int8.toInt8_toUInt8]
  -- the eight chars of the id and the one of the type are the whole string
  have split := List.take_append_drop 8 s.chars
  rw [List.drop_eq_getElem_cons (by omega), List.drop_of_length_le (by omega)] at split
  exact split

theorem ofSlice_injective : Function.Injective ofSlice := fun a b same => by
  rw [← slice_ofSlice a, same, slice_ofSlice]

theorem toPair_injective : Function.Injective toPair := by
  intro a b same
  obtain ⟨type, id⟩ := Prod.mk.inj (toLex.injective same)
  exact RawKey.ext (UInt8.toNat_inj.mp type) (UInt64.toNat_inj.mp id)

theorem toPair_lt {a b : RawKey} :
    a.toPair < b.toPair ↔ a.type < b.type ∨ a.type = b.type ∧ a.id < b.id := by
  rw [Prod.Lex.lt_iff, UInt8.lt_iff_toNat_lt, UInt64.lt_iff_toNat_lt, ← UInt8.toNat_inj]
  rfl

theorem compare_cases (a b : RawKey) :
    a.toPair < b.toPair ∧ a.compare b = -1 ∨ a = b ∧ a.compare b = 0 ∨
      b.toPair < a.toPair ∧ a.compare b = 1 := by
  unfold compare
  split
  case isTrue type => exact .inl ⟨toPair_lt.mpr (.inl type), rfl⟩
  split
  case isTrue type => exact .inr (.inr ⟨toPair_lt.mpr (.inl type), rfl⟩)
  rename_i le ge
  have type : a.type = b.type := UInt8.le_antisymm (UInt8.not_lt.mp ge) (UInt8.not_lt.mp le)
  split
  case isTrue id => exact .inl ⟨toPair_lt.mpr (.inr ⟨type, id⟩), rfl⟩
  split
  case isTrue id => exact .inr (.inr ⟨toPair_lt.mpr (.inr ⟨type.symm, id⟩), rfl⟩)
  rename_i le ge
  have id : a.id = b.id := UInt64.le_antisymm (UInt64.not_lt.mp ge) (UInt64.not_lt.mp le)
  exact .inr (.inl ⟨RawKey.ext type id, rfl⟩)

theorem compare_self (a : RawKey) : a.compare a = 0 := by
  rcases compare_cases a a with ⟨lt, -⟩ | ⟨-, c⟩ | ⟨lt, -⟩
  · exact absurd lt (lt_irrefl _)
  · exact c
  · exact absurd lt (lt_irrefl _)

theorem compare_of_lt {a b : RawKey} (lt : a.toPair < b.toPair) : a.compare b = -1 := by
  rcases compare_cases a b with ⟨-, c⟩ | ⟨rfl, -⟩ | ⟨gt, -⟩
  · exact c
  · exact absurd lt (lt_irrefl _)
  · exact absurd gt lt.asymm

theorem compare_of_gt {a b : RawKey} (gt : b.toPair < a.toPair) : a.compare b = 1 := by
  rcases compare_cases a b with ⟨lt, -⟩ | ⟨rfl, -⟩ | ⟨-, c⟩
  · exact absurd lt gt.asymm
  · exact absurd gt (lt_irrefl _)
  · exact c

theorem compare_swap (a b : RawKey) : b.compare a = -a.compare b := by
  rcases lt_trichotomy a.toPair b.toPair with lt | same | gt
  · rw [compare_of_lt lt, compare_of_gt lt]
    rfl
  · obtain rfl := toPair_injective same
    rw [compare_self]
    rfl
  · rw [compare_of_lt gt, compare_of_gt gt]

theorem compare_neg {a b : RawKey} : a.compare b < 0 ↔ a.toPair < b.toPair := by
  constructor
  · intro neg
    rcases compare_cases a b with ⟨lt, -⟩ | ⟨-, c⟩ | ⟨-, c⟩
    · exact lt
    · omega
    · omega
  · intro lt
    rw [compare_of_lt lt]
    decide

theorem compare_eq_zero {a b : RawKey} : a.compare b = 0 ↔ a = b := by
  constructor
  · intro zero
    rcases compare_cases a b with ⟨-, c⟩ | ⟨same, -⟩ | ⟨-, c⟩
    · omega
    · exact same
    · omega
  · rintro rfl
    exact compare_self a

theorem compare_nonpos {a b : RawKey} : a.compare b ≤ 0 ↔ a.toPair ≤ b.toPair := by
  have swap := compare_swap a b
  rw [← not_lt (b := a.toPair), ← compare_neg]
  omega

end RawKey

open RawKey

/-- `comparator::Compare`. -/
def Comparator.compare (a b : Slice) : Int := (ofSlice a).compare (ofSlice b)

/-- The order in which leveldb keeps the journal: the one of its comparator. -/
instance : LinearOrder Slice where
  le a b := Comparator.compare a b ≤ 0
  lt a b := Comparator.compare a b < 0
  le_refl a := (compare_self (ofSlice a)).le
  le_trans a b c first second :=
    compare_nonpos.mpr ((compare_nonpos.mp first).trans (compare_nonpos.mp second))
  lt_iff_le_not_ge a b := by
    have swap := compare_swap (ofSlice a) (ofSlice b)
    simp only [Comparator.compare]
    omega
  le_antisymm a b first second := by
    have same := le_antisymm (compare_nonpos.mp first) (compare_nonpos.mp second)
    exact ofSlice_injective (toPair_injective same)
  le_total a b := by
    have swap := compare_swap (ofSlice a) (ofSlice b)
    simp only [Comparator.compare]
    omega
  toDecidableLE a b := inferInstanceAs (Decidable (Comparator.compare a b ≤ 0))
  toDecidableEq := inferInstance
  toDecidableLT a b := inferInstanceAs (Decidable (Comparator.compare a b < 0))

theorem slice_lt {a b : RawKey} : a.slice < b.slice ↔ a.toPair < b.toPair := by
  change (ofSlice a.slice).compare (ofSlice b.slice) < 0 ↔ _
  rw [ofSlice_slice, ofSlice_slice, compare_neg]

theorem slice_le {a b : RawKey} : a.slice ≤ b.slice ↔ a.toPair ≤ b.toPair := by
  rw [← not_lt, slice_lt, not_lt]

abbrev RawJournal := Store Slice Bytes

def ids (journal : RawJournal) (type : Int8) : Set UInt64 :=
  {id | (ofChar type id).slice ∈ journal}

def Typed (journal : RawJournal) : Prop :=
  ∀ s ∈ journal, (ofSlice s).type = ktQueue.toUInt8 ∨ (ofSlice s).type = ktChunk.toUInt8

/-- The key before `Seek(KT_CHUNK, 0)`, or the last key if that finds none. -/
def beforeChunks (journal : RawJournal) : Option Slice :=
  match seek journal (ofChar ktChunk 0).slice with
  | none => seekToLast journal
  | some chunk => prev journal chunk

variable {journal : RawJournal} {m n : UInt64}

theorem mem_ids {type : Int8} : n ∈ ids journal type ↔ (ofChar type n).slice ∈ journal := Iff.rfl

theorem ofChar_le {type : Int8} :
    (ofChar type m).slice ≤ (ofChar type n).slice ↔ m ≤ n := by
  rw [slice_le, Prod.Lex.le_iff, UInt64.le_iff_toNat_le]
  simp [toPair, ofChar]

theorem queue_lt_chunk : (ofChar ktQueue m).slice < (ofChar ktChunk n).slice := by
  rw [slice_lt, toPair_lt]
  exact .inl (by simp only [ofChar]; decide)

theorem Typed.cases (typed : Typed journal) {s : Slice} (there : s ∈ journal) :
    (∃ id ∈ ids journal ktQueue, s = (ofChar ktQueue id).slice) ∨
      ∃ id ∈ ids journal ktChunk, s = (ofChar ktChunk id).slice := by
  have back := slice_ofSlice s
  rcases typed s there with type | type
  · have same : (ofChar ktQueue (ofSlice s).id).slice = s := by
      rw [ofChar, ← type, back]
    exact .inl ⟨(ofSlice s).id, by rw [mem_ids, same]; exact there, same.symm⟩
  · have same : (ofChar ktChunk (ofSlice s).id).slice = s := by
      rw [ofChar, ← type, back]
    exact .inr ⟨(ofSlice s).id, by rw [mem_ids, same]; exact there, same.symm⟩

theorem typed_empty : Typed ∅ := fun _ there => absurd there Finmap.notMem_empty

theorem Typed.insert {type : Int8} {value : Bytes} (typed : Typed journal)
    (known : type = ktQueue ∨ type = ktChunk) : Typed (journal.insert (ofChar type n).slice value) := by
  intro s there
  rcases Finmap.mem_insert.mp there with rfl | old
  · rw [ofSlice_slice]
    exact known.imp (congrArg Int8.toUInt8) (congrArg Int8.toUInt8)
  · exact typed s old

theorem seek_queue (typed : Typed journal) (queued : (ids journal ktQueue).Nonempty) :
    ∃ id, seek journal (ofChar ktQueue 0).slice = some (ofChar ktQueue id).slice ∧
      IsLeast (ids journal ktQueue) id := by
  obtain ⟨n, there⟩ := queued
  have above : ∀ m, (ofChar ktQueue 0).slice ≤ (ofChar ktQueue m).slice :=
    fun m => ofChar_le.mpr (UInt64.zero_le)
  cases found : seek journal (ofChar ktQueue 0).slice with
  | none => exact absurd (seek_eq_none.mp found _ there) (above n).not_gt
  | some first =>
    obtain ⟨stored, -, least⟩ := seek_eq_some.mp found
    rcases typed.cases stored with ⟨id, mem, rfl⟩ | ⟨id, -, rfl⟩
    · exact ⟨id, rfl, mem, fun m other => ofChar_le.mp (least _ other (above m))⟩
    · exact absurd (least _ there (above n)) queue_lt_chunk.not_ge

theorem before_chunks (typed : Typed journal) (queued : (ids journal ktQueue).Nonempty) :
    ∃ id, beforeChunks journal = some (ofChar ktQueue id).slice ∧
      IsGreatest (ids journal ktQueue) id := by
  obtain ⟨n, there⟩ := queued
  have above : ∀ m, (ofChar ktChunk 0).slice ≤ (ofChar ktChunk m).slice :=
    fun m => ofChar_le.mpr (UInt64.zero_le)
  unfold beforeChunks
  cases found : seek journal (ofChar ktChunk 0).slice with
  | none =>
    -- no chunk key is stored, and the last key is a queue key
    cases last : seekToLast journal with
    | none => exact absurd there (seekToLast_eq_none.mp last _)
    | some last' =>
      obtain ⟨stored, greatest⟩ := seekToLast_eq_some.mp last
      rcases typed.cases stored with ⟨id, mem, rfl⟩ | ⟨id, mem, rfl⟩
      · exact ⟨id, rfl, mem, fun m other => ofChar_le.mp (greatest _ other)⟩
      · exact absurd (seek_eq_none.mp found _ mem) (above id).not_gt
  | some chunk =>
    obtain ⟨stored, after, least⟩ := seek_eq_some.mp found
    have below : ∀ m, (ofChar ktQueue m).slice < chunk := fun m => queue_lt_chunk.trans_le after
    simp only
    cases last : prev journal chunk with
    | none => exact absurd (prev_eq_none.mp last _ there) (below n).not_ge
    | some before =>
      obtain ⟨stored, lt, greatest⟩ := prev_eq_some.mp last
      rcases typed.cases stored with ⟨id, mem, rfl⟩ | ⟨id, mem, rfl⟩
      · exact ⟨id, rfl, mem, fun m other => ofChar_le.mp (greatest _ other (below m))⟩
      · exact absurd (least _ mem (above id)) lt.not_ge

theorem last_chunk (typed : Typed journal) (chunked : (ids journal ktChunk).Nonempty) :
    ∃ id, seekToLast journal = some (ofChar ktChunk id).slice ∧
      IsGreatest (ids journal ktChunk) id := by
  obtain ⟨n, there⟩ := chunked
  cases found : seekToLast journal with
  | none => exact absurd there (seekToLast_eq_none.mp found _)
  | some last =>
    obtain ⟨stored, greatest⟩ := seekToLast_eq_some.mp found
    rcases typed.cases stored with ⟨id, -, rfl⟩ | ⟨id, mem, rfl⟩
    · exact absurd (greatest _ there) queue_lt_chunk.not_ge
    · exact ⟨id, rfl, mem, fun m other => ofChar_le.mp (greatest _ other)⟩

/-- The codec gives every key back, the comparator is a total order on the slices, and
the positions that are sought in a journal are the ends of its ranges of ids. -/
theorem codec_and_order :
    (∀ key, ofSlice (slice key) = key) ∧
    (∀ a b, Comparator.compare b a = -Comparator.compare a b) ∧
    (∀ a b, Comparator.compare a b ≤ 0 ∨ Comparator.compare b a ≤ 0) ∧
    (∀ a b c, Comparator.compare a b ≤ 0 → Comparator.compare b c ≤ 0 →
      Comparator.compare a c ≤ 0) ∧
    (∀ a b, Comparator.compare a b = 0 ↔ a.chars = b.chars) ∧
    (∀ a b, Comparator.compare a b < 0 ↔ (ofSlice a).toPair < (ofSlice b).toPair) ∧
    ∀ journal, Typed journal → (ids journal ktQueue).Nonempty →
      (∃ id, seek journal (ofChar ktQueue 0).slice = some (ofChar ktQueue id).slice ∧
        IsLeast (ids journal ktQueue) id) ∧
      (∃ id, beforeChunks journal = some (ofChar ktQueue id).slice ∧
        IsGreatest (ids journal ktQueue) id) ∧
      ((ids journal ktChunk).Nonempty →
        ∃ id, seekToLast journal = some (ofChar ktChunk id).slice ∧
          IsGreatest (ids journal ktChunk) id) := by
  have same : ∀ a b, Comparator.compare a b = 0 ↔ a.chars = b.chars := by
    intro a b
    rw [Comparator.compare, compare_eq_zero, ofSlice_injective.eq_iff, Slice.ext_iff]
  have transitive : ∀ a b c, Comparator.compare a b ≤ 0 → Comparator.compare b c ≤ 0 →
      Comparator.compare a c ≤ 0 := by
    intro a b c first second
    have le : a ≤ b := first
    exact le.trans second
  have total : ∀ a b : Slice, a ≤ b ∨ b ≤ a := le_total
  refine ⟨ofSlice_slice, fun a b => compare_swap _ _, total, transitive, same,
    fun a b => compare_neg, ?_⟩
  intro journal typed queued
  exact ⟨seek_queue typed queued, before_chunks typed queued, last_chunk typed⟩

def twoRanges : RawJournal :=
  (((∅ : RawJournal).insert (ofChar ktQueue 256).slice []).insert (ofChar ktQueue 7).slice []).insert
    (ofChar ktChunk 18446744073709551615).slice []

theorem codec_and_order_twoRanges :
    (∃ id, seek twoRanges (ofChar ktQueue 0).slice = some (ofChar ktQueue id).slice ∧
      IsLeast (ids twoRanges ktQueue) id) ∧
    ∃ id, seekToLast twoRanges = some (ofChar ktChunk id).slice ∧
      IsGreatest (ids twoRanges ktChunk) id := by
  obtain ⟨-, -, -, -, -, -, journals⟩ := codec_and_order
  have typed : Typed twoRanges :=
    ((typed_empty.insert (.inl rfl)).insert (.inl rfl)).insert (.inr rfl)
  have queued : (7 : UInt64) ∈ ids twoRanges ktQueue := by
    simp [mem_ids, twoRanges]
  have chunked : (18446744073709551615 : UInt64) ∈ ids twoRanges ktChunk := by
    simp [mem_ids, twoRanges]
  obtain ⟨first, -, last⟩ := journals twoRanges typed ⟨7, queued⟩
  exact ⟨first, last ⟨_, chunked⟩⟩

structure Heads where
  queueTail : RawKey
  queueHead : RawKey
  chunksHead : RawKey

def heads (journal : RawJournal) : Option Heads :=
  match seek journal (ofChar ktQueue 0).slice with
  | none => some ⟨ofChar ktQueue 0, ofChar ktQueue 0, ofChar ktChunk 0⟩
  | some first =>
    match seek journal (ofChar ktChunk 0).slice with
    | none => do
      let last ← seekToLast journal
      pure ⟨ofSlice first, ofChar ktQueue ((ofSlice last).id + 1), ofChar ktChunk 0⟩
    | some chunk => do
      let before ← prev journal chunk
      let last ← seekToLast journal
      pure ⟨ofSlice first, ofChar ktQueue ((ofSlice before).id + 1),
        ofChar ktChunk ((ofSlice last).id + 1)⟩

def raw (key : Key) : RawKey := ⟨UInt8.ofNat key.type.code, UInt64.ofNat key.id⟩

def code (key : Key) : Slice := (raw key).slice

theorem toPair_raw {key : Key} (small : key.id < wordSize) : (raw key).toPair = key.toPair := by
  have word : (UInt64.ofNat key.id).toNat = key.id := UInt64.toNat_ofNat_of_lt' small
  obtain ⟨type, n⟩ := key
  cases type <;> simp [raw, toPair, Key.toPair, KeyType.code, word]

theorem strictMonoOn_code : StrictMonoOn code {key | key.id < wordSize} := by
  intro a small b small' lt
  rw [code, code, slice_lt, toPair_raw small, toPair_raw small']
  exact lt

theorem typed_of_encodes {image : Store Key Bytes}
    (stored : Encodes code {key | key.id < wordSize} image journal) : Typed journal := by
  intro s there
  obtain ⟨⟨type, n⟩, -, rfl⟩ := stored.coded s there
  rw [code, ofSlice_slice]
  cases type with
  | queue => exact .inl rfl
  | chunk => exact .inr rfl

theorem heads_of_encodes {image : Store Key Bytes}
    (stored : Encodes code {key | key.id < wordSize} image journal) (path : Bytes) :
    heads journal = (Queue.new image path).map fun q =>
      ⟨raw q.queueTail, raw q.queueHead, raw q.chunksHead⟩ := by
  have zero : ∀ type, (⟨type, 0⟩ : Key) ∈ {key : Key | key.id < wordSize} := by
    intro type
    change 0 < wordSize
    decide
  have queue : code ⟨.queue, 0⟩ = (ofChar ktQueue 0).slice := rfl
  have chunk : code ⟨.chunk, 0⟩ = (ofChar ktChunk 0).slice := rfl
  have queueNext : ∀ key, ofChar ktQueue ((raw key).id + 1) = raw ⟨.queue, key.id + 1⟩ := by
    intro key
    rw [raw, raw, UInt64.ofNat_add]
    rfl
  have chunkNext : ∀ key, ofChar ktChunk ((raw key).id + 1) = raw ⟨.chunk, key.id + 1⟩ := by
    intro key
    rw [raw, raw, UInt64.ofNat_add]
    rfl
  rw [heads, Queue.new, ← queue, ← chunk, stored.seek strictMonoOn_code (zero _),
    stored.seek strictMonoOn_code (zero _), stored.seekToLast strictMonoOn_code]
  cases first : seek image ⟨.queue, 0⟩ with
  | none => rfl
  | some first =>
    cases found : seek image ⟨.chunk, 0⟩ with
    | none =>
      cases seekToLast image with
      | none => rfl
      | some last =>
        simp [code, ofSlice_slice, queueNext]
        rfl
    | some chunk =>
      have small := stored.within chunk (seek_eq_some.mp found).1
      simp only [Option.map_some]
      rw [stored.prev strictMonoOn_code small]
      cases prev image chunk with
      | none => rfl
      | some before =>
        cases seekToLast image with
        | none => rfl
        | some last =>
          simp [code, ofSlice_slice, queueNext, chunkNext]

/-- After any writes the stored bytes are a journal of queue keys and chunk keys, in which
the constructor finds what `Queue.new` finds among the keys. -/
theorem heads_writes (log : List (Write Key Bytes))
    (words : ∀ write ∈ log, ∀ op ∈ write.ops, op.key.id < wordSize) (path : Bytes) :
    Typed ((log.map (Write.code code)).foldl apply ∅) ∧
      heads ((log.map (Write.code code)).foldl apply ∅) =
        (Queue.new (log.foldl apply ∅) path).map fun q =>
          ⟨raw q.queueTail, raw q.queueHead, raw q.chunksHead⟩ := by
  have stored := (encodes_empty code {key | key.id < wordSize}).writes strictMonoOn_code.injOn log
    words
  exact ⟨typed_of_encodes stored, heads_of_encodes stored path⟩

end Darner.KeyCodec
