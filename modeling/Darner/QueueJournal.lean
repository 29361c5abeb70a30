import Darner.Library.LittleEndian
import Darner.Library.OrderedStore
import Mathlib.Data.Prod.Lex
import Mathlib.Order.Interval.Finset.Nat

/-! What a queue keeps in its leveldb journal: keys of two kinds, plain and
escaped items, and the headers that point a queue entry at a range of chunks.
Ids and sizes are natural numbers. They are 64-bit in the source, which takes it
that a queue never allocates that many ids; `wordSize` is written where a
wrap-around can be reached otherwise. -/

namespace Darner
open OrderedStore

abbrev Bytes := List UInt8

def wordSize : ℕ := 2 ^ 64

inductive KeyType where
  | queue
  | chunk
deriving DecidableEq

def KeyType.code : KeyType → ℕ
  | .queue => 1
  | .chunk => 2

structure Key where
  type : KeyType
  id : ℕ

namespace Key

def toPair (key : Key) : ℕ ×ₗ ℕ := toLex (key.type.code, key.id)

theorem toPair_injective : Function.Injective toPair := by
  rintro ⟨t, n⟩ ⟨u, m⟩ h
  have pair : (t.code, n) = (u.code, m) := toLex.injective h
  cases t <;> cases u <;> simp_all [KeyType.code]

/-- `key_type::compare`: the type byte decides first, then the id. -/
instance : LinearOrder Key := LinearOrder.lift' toPair toPair_injective

theorem le_iff {a b : Key} :
    a ≤ b ↔ a.type.code < b.type.code ∨ a.type.code = b.type.code ∧ a.id ≤ b.id := by
  change toPair a ≤ toPair b ↔ _
  rw [Prod.Lex.le_iff]
  rfl

@[simp] theorem queue_le_queue {m n : ℕ} : (⟨.queue, m⟩ : Key) ≤ ⟨.queue, n⟩ ↔ m ≤ n := by
  simp [le_iff]

@[simp] theorem chunk_le_chunk {m n : ℕ} : (⟨.chunk, m⟩ : Key) ≤ ⟨.chunk, n⟩ ↔ m ≤ n := by
  simp [le_iff]

@[simp] theorem queue_le_chunk {m n : ℕ} : (⟨.queue, m⟩ : Key) ≤ ⟨.chunk, n⟩ := by
  simp [le_iff, KeyType.code]

@[simp] theorem not_chunk_le_queue {m n : ℕ} : ¬(⟨.chunk, m⟩ : Key) ≤ ⟨.queue, n⟩ := by
  simp [le_iff, KeyType.code]

end Key

/-- `queue::header_type`: a range `[beg, end_)` of chunks and their total size. -/
structure Header where
  beg : ℕ := 0
  end_ : ℕ := 1
  size : ℕ := 0
deriving DecidableEq

namespace Header

/-- The 24 bytes of the object, closed by the header escape `1, 0`. -/
def str (header : Header) : Bytes :=
  LittleEndian.encode 8 header.beg ++ LittleEndian.encode 8 header.end_ ++
    LittleEndian.encode 8 header.size ++ [1, 0]

def ofBytes (buf : Bytes) : Header where
  beg := LittleEndian.decode (buf.take 8)
  end_ := LittleEndian.decode ((buf.drop 8).take 8)
  size := LittleEndian.decode ((buf.drop 16).take 8)

structure Fits (header : Header) : Prop where
  beg : header.beg < wordSize
  end_ : header.end_ < wordSize
  size : header.size < wordSize

theorem ofBytes_str {header : Header} (h : header.Fits) : ofBytes header.str = header := by
  have e : (16 : ℕ) = 8 + 8 := rfl
  have hb := LittleEndian.decode_encode_64 _ h.beg
  have he := LittleEndian.decode_encode_64 _ h.end_
  have hs := LittleEndian.decode_encode_64 _ h.size
  cases header
  simp only [ofBytes, str, mk.injEq, List.append_assoc, e, ← List.drop_drop]
  refine ⟨?_, ?_, ?_⟩
  · simpa [List.take_append] using hb
  · simpa [List.take_append, List.drop_append] using he
  · simpa [List.take_append, List.drop_append] using hs

theorem length_str (header : Header) : header.str.length = 26 := by
  simp [str]

/-- The ids of `for (k.id = beg; k.id != end; ++k.id)`, which counts around the
word when `end_` lies before `beg`. -/
def chunkIds (header : Header) : List ℕ :=
  (List.range ((header.end_ + wordSize - header.beg) % wordSize)).map
    fun i => (header.beg + i) % wordSize

def chunkKeys (header : Header) : List Key :=
  header.chunkIds.map fun n => ⟨.chunk, n⟩

theorem mem_chunkIds {header : Header} (order : header.beg ≤ header.end_)
    (small : header.end_ < wordSize) {n : ℕ} :
    n ∈ header.chunkIds ↔ header.beg ≤ n ∧ n < header.end_ := by
  have count : (header.end_ + wordSize - header.beg) % wordSize = header.end_ - header.beg := by
    have split : header.end_ + wordSize - header.beg = (header.end_ - header.beg) + wordSize := by
      omega
    rw [split, Nat.add_mod_right, Nat.mod_eq_of_lt (by omega)]
  simp only [chunkIds, count, List.mem_map, List.mem_range]
  constructor
  · rintro ⟨i, hi, rfl⟩
    rw [Nat.mod_eq_of_lt (by omega)]
    omega
  · rintro ⟨h, h'⟩
    exact ⟨n - header.beg, by omega, by rw [Nat.mod_eq_of_lt (by omega)]; omega⟩

@[simp] theorem queue_notMem_chunkKeys (header : Header) (n : ℕ) :
    (⟨.queue, n⟩ : Key) ∉ header.chunkKeys := by
  simp [chunkKeys]

@[simp] theorem chunk_mem_chunkKeys (header : Header) (n : ℕ) :
    (⟨.chunk, n⟩ : Key) ∈ header.chunkKeys ↔ n ∈ header.chunkIds := by
  simp [chunkKeys]

end Header

/-- `item[item.size() - 1]`. For an empty string the index is out of range and
`stray` is the byte that happens to lie there. -/
def lastByte (item : Bytes) (stray : UInt8) : UInt8 :=
  (item[item.length - 1]?).getD stray

/-- Items that end in `0` are escaped to `0, 0`. -/
def escape (item : Bytes) (stray : UInt8) : Bytes :=
  if lastByte item stray = 0 then item ++ [0] else item

inductive Coded (value : Bytes) : Prop where
  | item (bytes : Bytes) (stray : UInt8) (same : value = escape bytes stray)
  | header (header : Header) (same : value = header.str)

inductive Stored where
  | item (bytes : Bytes)
  | header (header : Header)
  | bad
deriving DecidableEq

/-- The escape check of `pop_read`. -/
def Stored.ofValue (value : Bytes) : Stored :=
  if value.length > 2 ∧ value[value.length - 1]? = some 0 then
    if value[value.length - 2]? = some 1 then .header (Header.ofBytes value)
    else if value[value.length - 2]? = some 0 then .item value.dropLast
    else .bad
  else .item value

theorem Stored.ofValue_bytes (header : Header) :
    Stored.ofValue header.str = .header (Header.ofBytes header.str) := by
  have last : header.str[header.str.length - 1]? = some 0 := by
    simp [Header.str]
  have before : header.str[header.str.length - 2]? = some 1 := by
    simp [Header.str]
  rw [ofValue, if_pos ⟨by simp [Header.length_str], last⟩, if_pos before]

theorem Stored.ofValue_str {header : Header} (h : header.Fits) :
    Stored.ofValue header.str = .header header := by
  rw [ofValue_bytes, Header.ofBytes_str h]

end Darner
