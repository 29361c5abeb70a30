import Mathlib.Data.Finmap
import Mathlib.Data.Finset.Max
import Mathlib.Data.List.DropRight

/-! Finite maps over a linear order, as an embedded ordered key-value store
shows them to its client: point writes, atomic batches, a log of the batches
issued since the store was opened, and a cursor that is valid or not.
A crash keeps the effect of some initial part of the log; nothing is said about
how a store makes that so. -/

namespace OrderedStore

variable {K V : Type} [LinearOrder K]

abbrev Store (K V : Type) := Finmap fun _ : K => V

inductive Op (K V : Type) where
  | put (key : K) (value : V)
  | delete (key : K)
deriving DecidableEq

def applyOp (store : Store K V) : Op K V → Store K V
  | .put key value => store.insert key value
  | .delete key => store.erase key

/-- One atomic write: all of its operations take effect, or none does. -/
structure Write (K V : Type) where
  ops : List (Op K V)
  sync : Bool

def apply (store : Store K V) (write : Write K V) : Store K V :=
  write.ops.foldl applyOp store

@[simp] theorem apply_put (store : Store K V) (key : K) (value : V) (sync : Bool) :
    apply store ⟨[.put key value], sync⟩ = store.insert key value := rfl

theorem lookup_deletes (keys : List K) (store : Store K V) (key : K) :
    ((keys.map Op.delete).foldl applyOp store).lookup key =
      if key ∈ keys then none else store.lookup key := by
  induction keys generalizing store with
  | nil => simp
  | cons k keys ih =>
    rw [List.map_cons, List.foldl_cons, ih]
    by_cases hk : key = k
    · subst hk
      simp [applyOp]
    · simp [applyOp, hk, Finmap.lookup_erase_ne hk]

theorem lookup_apply_deletes (keys : List K) (sync : Bool) (store : Store K V) (key : K) :
    (apply store ⟨keys.map Op.delete, sync⟩).lookup key =
      if key ∈ keys then none else store.lookup key :=
  lookup_deletes keys store key

omit [LinearOrder K] in
theorem lookup_insert_eq [DecidableEq K] (store : Store K V) (key other : K) (value : V) :
    (store.insert key value).lookup other =
      if other = key then some value else store.lookup other := by
  by_cases h : other = key
  · subst h
    simp
  · simp [h, Finmap.lookup_insert_of_ne _ h]

theorem lookup_apply {store : Store K V} {entry : Write K V} {key : K} {value : V}
    (found : (apply store entry).lookup key = some value) :
    store.lookup key = some value ∨ .put key value ∈ entry.ops := by
  obtain ⟨ops, sync⟩ := entry
  unfold apply at found
  induction ops generalizing store with
  | nil => exact .inl found
  | cons op ops ih =>
    rcases ih found with old | new
    · cases op with
      | put other written =>
        rw [applyOp, lookup_insert_eq] at old
        split at old
        case isTrue same =>
          rw [same, ← Option.some.inj old]
          exact .inr List.mem_cons_self
        case isFalse => exact .inl old
      | delete other =>
        by_cases same : key = other
        · rw [same, applyOp, Finmap.lookup_erase] at old
          cases old
        · rw [applyOp, Finmap.lookup_erase_ne same] at old
          exact .inl old
    · exact .inr (List.mem_cons_of_mem _ new)

theorem mem_iff_lookup {store : Store K V} {key : K} :
    key ∈ store ↔ ∃ value, store.lookup key = some value :=
  Finmap.mem_iff

/-- An open store: the image it was opened on and the writes issued since. -/
structure Journal (K V : Type) where
  image : Store K V
  log : List (Write K V)

namespace Journal

def contents (journal : Journal K V) : Store K V :=
  journal.log.foldl apply journal.image

/-- What a crash leaves behind when only the first `n` writes survive. -/
def imageAt (journal : Journal K V) (n : ℕ) : Store K V :=
  (journal.log.take n).foldl apply journal.image

def write (journal : Journal K V) (entry : Write K V) : Journal K V :=
  { journal with log := journal.log ++ [entry] }

@[simp] theorem contents_write (journal : Journal K V) (entry : Write K V) :
    (journal.write entry).contents = apply journal.contents entry := by
  simp [contents, write]

@[simp] theorem contents_fresh (image : Store K V) :
    (⟨image, []⟩ : Journal K V).contents = image := rfl

@[simp] theorem imageAt_fresh (image : Store K V) (n : ℕ) :
    (⟨image, []⟩ : Journal K V).imageAt n = image := by
  simp [imageAt]

theorem imageAt_length (journal : Journal K V) :
    journal.imageAt journal.log.length = journal.contents := by
  simp [imageAt, contents]

theorem imageAt_write_le (journal : Journal K V) (entry : Write K V) (n : ℕ)
    (h : n ≤ journal.log.length) : (journal.write entry).imageAt n = journal.imageAt n := by
  simp only [imageAt, write]
  rw [List.take_append_of_le_length h]

theorem imageAt_write_gt (journal : Journal K V) (entry : Write K V) (n : ℕ)
    (h : journal.log.length < n) :
    (journal.write entry).imageAt n = (journal.write entry).contents := by
  have full : (journal.log ++ [entry]).take n = journal.log ++ [entry] := by
    apply List.take_of_length_le
    simp
    omega
  simp only [imageAt, contents, write, full]

/-- A property of every crash image survives a write that establishes it. -/
theorem images_write {P : Store K V → Prop} {journal : Journal K V} {entry : Write K V}
    (before : ∀ n, P (journal.imageAt n)) (after : P (journal.write entry).contents) (n : ℕ) :
    P ((journal.write entry).imageAt n) := by
  by_cases h : n ≤ journal.log.length
  · rw [imageAt_write_le journal entry n h]
    exact before n
  · rw [imageAt_write_gt journal entry n (by omega)]
    exact after

def Each (R : Store K V → Write K V → Prop) (journal : Journal K V) : Prop :=
  ∀ n entry, journal.log[n]? = some entry → R (journal.imageAt n) entry

theorem each_write {R : Store K V → Write K V → Prop} {journal : Journal K V}
    {entry : Write K V} (before : journal.Each R) (last : R journal.contents entry) :
    (journal.write entry).Each R := by
  intro n other h
  by_cases old : n < journal.log.length
  · rw [imageAt_write_le journal entry n (by omega)]
    refine before n other ?_
    rwa [write, List.getElem?_append_left old] at h
  · have bound := (List.getElem?_eq_some_iff.mp h).1
    simp only [write, List.length_append, List.length_singleton] at bound
    obtain rfl : n = journal.log.length := by omega
    rw [imageAt_write_le journal entry _ (le_refl _), imageAt_length]
    simp only [write, List.getElem?_concat_length, Option.some.injEq] at h
    rwa [← h]

/-- How many of the first writes a crash keeps for certain: those up to the last that was
synced. -/
def durable (journal : Journal K V) : ℕ :=
  (journal.log.rdropWhile fun entry => !entry.sync).length

omit [LinearOrder K] in
@[simp] theorem durable_fresh (image : Store K V) : (⟨image, []⟩ : Journal K V).durable = 0 := rfl

omit [LinearOrder K] in
theorem durable_le (journal : Journal K V) : journal.durable ≤ journal.log.length :=
  (List.rdropWhile_prefix _ _).length_le

omit [LinearOrder K] in
theorem durable_synced (journal : Journal K V) {entry : Write K V} (sync : entry.sync = true) :
    (journal.write entry).durable = journal.log.length + 1 := by
  simp only [durable, write]
  rw [List.rdropWhile_concat, if_neg (by simp [sync]), List.length_append, List.length_singleton]

omit [LinearOrder K] in
theorem durable_write (journal : Journal K V) (entry : Write K V) :
    journal.durable ≤ (journal.write entry).durable := by
  cases sync : entry.sync with
  | true =>
    rw [durable_synced journal sync]
    exact Nat.le_succ_of_le journal.durable_le
  | false =>
    simp only [durable, write]
    rw [List.rdropWhile_concat, if_pos (by simp [sync])]

def Lasts (journal : Journal K V) (P : Store K V → Prop) : Prop :=
  ∀ n, journal.durable ≤ n → P (journal.imageAt n)

theorem Lasts.contents {P : Store K V → Prop} {journal : Journal K V} (lasts : journal.Lasts P) :
    P journal.contents := by
  rw [← imageAt_length]
  exact lasts _ journal.durable_le

theorem lasts_fresh {P : Store K V → Prop} {image : Store K V} (here : P image) :
    (⟨image, []⟩ : Journal K V).Lasts P := by
  intro n _
  rwa [imageAt_fresh]

theorem lasts_synced {P : Store K V → Prop} {journal : Journal K V} {entry : Write K V}
    (sync : entry.sync = true) (after : P (journal.write entry).contents) :
    (journal.write entry).Lasts P := by
  intro n kept
  rw [durable_synced journal sync] at kept
  rwa [imageAt_write_gt journal entry n kept]

theorem Lasts.write {P : Store K V → Prop} {journal : Journal K V} {entry : Write K V}
    (lasts : journal.Lasts P) (after : P (journal.write entry).contents) :
    (journal.write entry).Lasts P := by
  intro n kept
  by_cases old : n ≤ journal.log.length
  · rw [imageAt_write_le journal entry n old]
    exact lasts n ((durable_write journal entry).trans kept)
  · rwa [imageAt_write_gt journal entry n (by omega)]

end Journal

def least (keys : Finset K) : Option K :=
  if h : keys.Nonempty then some (keys.min' h) else none

def greatest (keys : Finset K) : Option K :=
  if h : keys.Nonempty then some (keys.max' h) else none

theorem least_eq_some {keys : Finset K} {key : K} :
    least keys = some key ↔ key ∈ keys ∧ ∀ other ∈ keys, key ≤ other := by
  unfold least
  split
  case isTrue h =>
    constructor
    · intro hk
      obtain rfl := Option.some.inj hk
      exact ⟨keys.min'_mem h, fun other ho => keys.min'_le other ho⟩
    · rintro ⟨hk, hle⟩
      exact congrArg some (le_antisymm (keys.min'_le key hk) (hle _ (keys.min'_mem h)))
  case isFalse h =>
    simp only [reduceCtorEq, false_iff, not_and]
    exact fun hk => absurd ⟨key, hk⟩ h

theorem least_eq_none {keys : Finset K} : least keys = none ↔ keys = ∅ := by
  unfold least
  split
  case isTrue h => simpa using h.ne_empty
  case isFalse h => simpa using Finset.not_nonempty_iff_eq_empty.mp h

theorem greatest_eq_some {keys : Finset K} {key : K} :
    greatest keys = some key ↔ key ∈ keys ∧ ∀ other ∈ keys, other ≤ key := by
  unfold greatest
  split
  case isTrue h =>
    constructor
    · intro hk
      obtain rfl := Option.some.inj hk
      exact ⟨keys.max'_mem h, fun other ho => keys.le_max' other ho⟩
    · rintro ⟨hk, hle⟩
      exact congrArg some (le_antisymm (hle _ (keys.max'_mem h)) (keys.le_max' key hk))
  case isFalse h =>
    simp only [reduceCtorEq, false_iff, not_and]
    exact fun hk => absurd ⟨key, hk⟩ h

theorem greatest_eq_none {keys : Finset K} : greatest keys = none ↔ keys = ∅ := by
  unfold greatest
  split
  case isTrue h => simpa using h.ne_empty
  case isFalse h => simpa using Finset.not_nonempty_iff_eq_empty.mp h

/-- The first entry at or after `target`. -/
def seek (store : Store K V) (target : K) : Option K :=
  least (store.keys.filter (target ≤ ·))

/-- The last entry before `key`. -/
def prev (store : Store K V) (key : K) : Option K :=
  greatest (store.keys.filter (· < key))

def seekToLast (store : Store K V) : Option K := greatest store.keys

theorem seek_eq_some {store : Store K V} {target key : K} :
    seek store target = some key ↔
      key ∈ store ∧ target ≤ key ∧ ∀ other ∈ store, target ≤ other → key ≤ other := by
  simp only [seek, least_eq_some, Finset.mem_filter, Finmap.mem_keys, and_assoc, and_imp]

theorem seek_eq_none {store : Store K V} {target : K} :
    seek store target = none ↔ ∀ key ∈ store, key < target := by
  simp only [seek, least_eq_none, Finset.filter_eq_empty_iff, Finmap.mem_keys, not_le]

theorem prev_eq_some {store : Store K V} {bound key : K} :
    prev store bound = some key ↔
      key ∈ store ∧ key < bound ∧ ∀ other ∈ store, other < bound → other ≤ key := by
  simp only [prev, greatest_eq_some, Finset.mem_filter, Finmap.mem_keys, and_assoc, and_imp]

theorem prev_eq_none {store : Store K V} {bound : K} :
    prev store bound = none ↔ ∀ key ∈ store, bound ≤ key := by
  simp only [prev, greatest_eq_none, Finset.filter_eq_empty_iff, Finmap.mem_keys, not_lt]

theorem seekToLast_eq_some {store : Store K V} {key : K} :
    seekToLast store = some key ↔ key ∈ store ∧ ∀ other ∈ store, other ≤ key := by
  simp only [seekToLast, greatest_eq_some, Finmap.mem_keys]

theorem seekToLast_eq_none {store : Store K V} :
    seekToLast store = none ↔ ∀ key, key ∉ store := by
  simp only [seekToLast, greatest_eq_none, Finset.eq_empty_iff_forall_notMem, Finmap.mem_keys]

/-! Stored codes. A store of codes takes the same writes as a store of keys, and has the
same cursors when the codes are in the order of the keys. -/

section Codes

variable {C : Type} [LinearOrder C]

def Op.key : Op K V → K
  | .put key _ => key
  | .delete key => key

def Op.code (code : K → C) : Op K V → Op C V
  | .put key value => .put (code key) value
  | .delete key => .delete (code key)

def Write.code (code : K → C) (write : Write K V) : Write C V :=
  ⟨write.ops.map (Op.code code), write.sync⟩

/-- `codes` has the entries of `store`, each under the code of its key. -/
structure Encodes (code : K → C) (valid : Set K) (store : Store K V) (codes : Store C V) :
    Prop where
  within : ∀ key ∈ store, key ∈ valid
  coded : ∀ c ∈ codes, ∃ key ∈ valid, code key = c
  lookup : ∀ key ∈ valid, codes.lookup (code key) = store.lookup key

theorem encodes_empty (code : K → C) (valid : Set K) :
    Encodes code valid (∅ : Store K V) (∅ : Store C V) where
  within _ mem := absurd mem Finmap.notMem_empty
  coded _ mem := absurd mem Finmap.notMem_empty
  lookup _ _ := by rw [Finmap.lookup_empty, Finmap.lookup_empty]

namespace Encodes

variable {code : K → C} {valid : Set K} {store : Store K V} {codes : Store C V}

theorem applyOp (h : Encodes code valid store codes) (inj : Set.InjOn code valid) {op : Op K V}
    (ok : op.key ∈ valid) :
    Encodes code valid (OrderedStore.applyOp store op)
      (OrderedStore.applyOp codes (op.code code)) := by
  cases op with
  | put key value =>
    refine ⟨?_, ?_, ?_⟩
    · intro other mem
      rcases Finmap.mem_insert.mp mem with rfl | old
      · exact ok
      · exact h.within other old
    · intro c mem
      rcases Finmap.mem_insert.mp mem with rfl | old
      · exact ⟨key, ok, rfl⟩
      · exact h.coded c old
    · intro other within
      have same : code other = code key ↔ other = key := inj.eq_iff within ok
      simp only [OrderedStore.applyOp, Op.code, lookup_insert_eq, same, h.lookup other within]
  | delete key =>
    refine ⟨?_, ?_, ?_⟩
    · intro other mem
      exact h.within other (Finmap.mem_erase.mp mem).2
    · intro c mem
      exact h.coded c (Finmap.mem_erase.mp mem).2
    · intro other within
      by_cases same : other = key
      · rw [same, OrderedStore.applyOp, Op.code, OrderedStore.applyOp, Finmap.lookup_erase,
          Finmap.lookup_erase]
      · have apart : code other ≠ code key := fun c => same (inj within ok c)
        simp only [OrderedStore.applyOp, Op.code, Finmap.lookup_erase_ne same,
          Finmap.lookup_erase_ne apart, h.lookup other within]

theorem apply (h : Encodes code valid store codes) (inj : Set.InjOn code valid)
    {write : Write K V} (ok : ∀ op ∈ write.ops, op.key ∈ valid) :
    Encodes code valid (OrderedStore.apply store write)
      (OrderedStore.apply codes (write.code code)) := by
  obtain ⟨ops, sync⟩ := write
  simp only [OrderedStore.apply, Write.code]
  induction ops generalizing store codes with
  | nil => exact h
  | cons op ops ih =>
    have first := h.applyOp inj (ok op List.mem_cons_self)
    exact ih first fun other mem => ok other (List.mem_cons_of_mem _ mem)

theorem writes (h : Encodes code valid store codes) (inj : Set.InjOn code valid)
    (log : List (Write K V)) (ok : ∀ write ∈ log, ∀ op ∈ write.ops, op.key ∈ valid) :
    Encodes code valid (log.foldl OrderedStore.apply store)
      ((log.map (Write.code code)).foldl OrderedStore.apply codes) := by
  induction log generalizing store codes with
  | nil => exact h
  | cons write log ih =>
    have first := h.apply inj (ok write List.mem_cons_self)
    exact ih first fun other mem => ok other (List.mem_cons_of_mem _ mem)

theorem mem (h : Encodes code valid store codes) {c : C} :
    c ∈ codes ↔ ∃ key ∈ store, code key = c := by
  constructor
  · intro there
    obtain ⟨key, ok, rfl⟩ := h.coded c there
    rw [mem_iff_lookup, h.lookup key ok] at there
    exact ⟨key, mem_iff_lookup.mpr there, rfl⟩
  · rintro ⟨key, there, rfl⟩
    rw [mem_iff_lookup, h.lookup key (h.within key there)]
    exact mem_iff_lookup.mp there

theorem seek (h : Encodes code valid store codes) (mono : StrictMonoOn code valid) {target : K}
    (ok : target ∈ valid) :
    OrderedStore.seek codes (code target) = (OrderedStore.seek store target).map code := by
  cases found : OrderedStore.seek store target with
  | none =>
    rw [Option.map_none, seek_eq_none]
    intro c there
    obtain ⟨key, stored, rfl⟩ := h.mem.mp there
    exact mono (h.within key stored) ok (seek_eq_none.mp found key stored)
  | some first =>
    obtain ⟨there, above, least⟩ := seek_eq_some.mp found
    rw [Option.map_some, seek_eq_some]
    refine ⟨h.mem.mpr ⟨first, there, rfl⟩, ?_, ?_⟩
    · exact (mono.le_iff_le ok (h.within first there)).mpr above
    · intro c other le
      obtain ⟨key, stored, rfl⟩ := h.mem.mp other
      have within := h.within key stored
      have above := (mono.le_iff_le ok within).mp le
      exact (mono.le_iff_le (h.within first there) within).mpr (least key stored above)

theorem prev (h : Encodes code valid store codes) (mono : StrictMonoOn code valid) {bound : K}
    (ok : bound ∈ valid) :
    OrderedStore.prev codes (code bound) = (OrderedStore.prev store bound).map code := by
  cases found : OrderedStore.prev store bound with
  | none =>
    rw [Option.map_none, prev_eq_none]
    intro c there
    obtain ⟨key, stored, rfl⟩ := h.mem.mp there
    exact (mono.le_iff_le ok (h.within key stored)).mpr (prev_eq_none.mp found key stored)
  | some last =>
    obtain ⟨there, below, greatest⟩ := prev_eq_some.mp found
    rw [Option.map_some, prev_eq_some]
    refine ⟨h.mem.mpr ⟨last, there, rfl⟩, mono (h.within last there) ok below, ?_⟩
    intro c other lt
    obtain ⟨key, stored, rfl⟩ := h.mem.mp other
    have within := h.within key stored
    have below := (mono.lt_iff_lt within ok).mp lt
    exact (mono.le_iff_le within (h.within last there)).mpr (greatest key stored below)

theorem seekToLast (h : Encodes code valid store codes) (mono : StrictMonoOn code valid) :
    OrderedStore.seekToLast codes = (OrderedStore.seekToLast store).map code := by
  cases found : OrderedStore.seekToLast store with
  | none =>
    rw [Option.map_none, seekToLast_eq_none]
    intro c there
    obtain ⟨key, stored, -⟩ := h.mem.mp there
    exact seekToLast_eq_none.mp found key stored
  | some last =>
    obtain ⟨there, greatest⟩ := seekToLast_eq_some.mp found
    rw [Option.map_some, seekToLast_eq_some]
    refine ⟨h.mem.mpr ⟨last, there, rfl⟩, ?_⟩
    intro c other
    obtain ⟨key, stored, rfl⟩ := h.mem.mp other
    exact (mono.le_iff_le (h.within key stored) (h.within last there)).mpr (greatest key stored)

end Encodes

end Codes

end OrderedStore
