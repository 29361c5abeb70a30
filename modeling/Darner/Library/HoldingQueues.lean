import Darner.Library.LabelledRuns
import Mathlib.Data.Finset.Basic

/-! Lanes of entries that clients hold. An entry is pushed at the end of its lane, and from
then on it is available, held by one client, or gone. A client takes the first available
entry of a lane and lets go of it in one of two ways: it forgets the entry, or gives it back
to its place. That no entry is in two places is part of a stock. -/

namespace HoldingQueues
open LabelledRuns

structure Lane (β : Type) where
  /-- All that were pushed. The number of an entry is its place here. -/
  entries : List β
  available : Finset ℕ
  below : ∀ n ∈ available, n < entries.length

namespace Lane

variable {β : Type}

def empty : Lane β := ⟨[], ∅, by simp⟩

def push (lane : Lane β) (value : β) : Lane β where
  entries := lane.entries ++ [value]
  available := insert lane.entries.length lane.available
  below n mem := by
    rw [List.length_append, List.length_singleton]
    rcases Finset.mem_insert.mp mem with rfl | old
    · exact Nat.lt_succ_self _
    · exact Nat.lt_succ_of_lt (lane.below n old)

def take (lane : Lane β) (n : ℕ) : Lane β where
  entries := lane.entries
  available := lane.available.erase n
  below m mem := lane.below m (Finset.mem_of_mem_erase mem)

def giveBack (lane : Lane β) (n : ℕ) (small : n < lane.entries.length) : Lane β where
  entries := lane.entries
  available := insert n lane.available
  below m mem := by
    rcases Finset.mem_insert.mp mem with rfl | old
    · exact small
    · exact lane.below m old

end Lane

structure Stock (κ α β : Type) where
  lanes : α → Lane β
  held : κ → Option (α × ℕ)
  held_below : ∀ {c a n}, held c = some (a, n) → n < (lanes a).entries.length
  held_apart : ∀ {c a n}, held c = some (a, n) → n ∉ (lanes a).available
  single : ∀ {c c' p}, held c = some p → held c' = some p → c = c'

inductive Op (κ α β : Type) where
  | push (lane : α) (value : β)
  | take (client : κ) (lane : α) (number : ℕ)
  | forget (client : κ) (lane : α) (number : ℕ)
  | giveBack (client : κ) (lane : α) (number : ℕ)
deriving DecidableEq

namespace Op

variable {κ α β : Type} [DecidableEq α]

def takes (a : α) (n : ℕ) : Op κ α β → Bool
  | .take _ b m => b = a && m = n
  | _ => false

def forgets (a : α) (n : ℕ) : Op κ α β → Bool
  | .forget _ b m => b = a && m = n
  | _ => false

def givesBack (a : α) (n : ℕ) : Op κ α β → Bool
  | .giveBack _ b m => b = a && m = n
  | _ => false

def taken (a : α) : Op κ α β → Option ℕ
  | .take _ b m => if b = a then some m else none
  | _ => none

def returnsTo (a : α) : Op κ α β → Bool
  | .giveBack _ b _ => b = a
  | _ => false

def By (c : κ) : Op κ α β → Prop
  | .push _ _ => True
  | .take d _ _ => d = c
  | .forget d _ _ => d = c
  | .giveBack d _ _ => d = c

end Op

variable {κ α β : Type}

namespace Stock

def empty : Stock κ α β where
  lanes _ := .empty
  held _ := none
  held_below held := by cases held
  held_apart held := by cases held
  single held := by cases held

def IsHeld (s : Stock κ α β) (a : α) (n : ℕ) : Prop := ∃ c, s.held c = some (a, n)

def Gone (s : Stock κ α β) (a : α) (n : ℕ) : Prop :=
  n < (s.lanes a).entries.length ∧ n ∉ (s.lanes a).available ∧ ¬s.IsHeld a n

variable [DecidableEq κ] [DecidableEq α]

def push (s : Stock κ α β) (a : α) (value : β) : Stock κ α β where
  lanes := Function.update s.lanes a ((s.lanes a).push value)
  held := s.held
  held_below {c b n} held := by
    have small := s.held_below held
    by_cases same : b = a
    · subst same
      rw [Function.update_self, Lane.push, List.length_append]
      exact Nat.lt_add_right _ small
    · rwa [Function.update_of_ne same]
  held_apart {c b n} held := by
    have small := s.held_below held
    by_cases same : b = a
    · subst same
      rw [Function.update_self, Lane.push, Finset.mem_insert, not_or]
      exact ⟨Nat.ne_of_lt small, s.held_apart held⟩
    · rw [Function.update_of_ne same]
      exact s.held_apart held
  single := s.single

def take (s : Stock κ α β) (c : κ) (a : α) (n : ℕ) (mem : n ∈ (s.lanes a).available) :
    Stock κ α β where
  lanes := Function.update s.lanes a ((s.lanes a).take n)
  held := Function.update s.held c (some (a, n))
  held_below {d b m} held := by
    have entries : (Function.update s.lanes a ((s.lanes a).take n) b).entries =
        (s.lanes b).entries := by
      by_cases same : b = a
      · subst same
        rw [Function.update_self, Lane.take]
      · rw [Function.update_of_ne same]
    rw [entries]
    by_cases mine : d = c
    · subst mine
      rw [Function.update_self] at held
      obtain ⟨rfl, rfl⟩ := Prod.mk.inj (Option.some.inj held)
      exact (s.lanes a).below n mem
    · rw [Function.update_of_ne mine] at held
      exact s.held_below held
  held_apart {d b m} held := by
    by_cases mine : d = c
    · subst mine
      rw [Function.update_self] at held
      obtain ⟨rfl, rfl⟩ := Prod.mk.inj (Option.some.inj held)
      rw [Function.update_self, Lane.take]
      exact Finset.notMem_erase n _
    · rw [Function.update_of_ne mine] at held
      have apart := s.held_apart held
      by_cases same : b = a
      · subst same
        rw [Function.update_self, Lane.take]
        exact fun mem => apart (Finset.mem_of_mem_erase mem)
      · rwa [Function.update_of_ne same]
  single {d d' p} held held' := by
    have other : ∀ e, e ≠ c → s.held e ≠ some (a, n) := fun e _ h => s.held_apart h mem
    by_cases mine : d = c
    · by_cases mine' : d' = c
      · rw [mine, mine']
      · subst mine
        rw [Function.update_self] at held
        rw [Function.update_of_ne mine', ← held] at held'
        exact absurd held' (other d' mine')
    · rw [Function.update_of_ne mine] at held
      by_cases mine' : d' = c
      · subst mine'
        rw [Function.update_self] at held'
        rw [← held'] at held
        exact absurd held (other d mine)
      · rw [Function.update_of_ne mine'] at held'
        exact s.single held held'

omit [DecidableEq α] in
theorem held_let_go {s : Stock κ α β} {c d : κ} {p : α × ℕ}
    (held : Function.update s.held c none d = some p) : d ≠ c ∧ s.held d = some p := by
  by_cases mine : d = c
  · subst mine
    rw [Function.update_self] at held
    cases held
  · rw [Function.update_of_ne mine] at held
    exact ⟨mine, held⟩

def forget (s : Stock κ α β) (c : κ) : Stock κ α β where
  lanes := s.lanes
  held := Function.update s.held c none
  held_below held := s.held_below (held_let_go held).2
  held_apart held := s.held_apart (held_let_go held).2
  single held held' := s.single (held_let_go held).2 (held_let_go held').2

def giveBack (s : Stock κ α β) (c : κ) (a : α) (n : ℕ) (mine : s.held c = some (a, n)) :
    Stock κ α β where
  lanes := Function.update s.lanes a ((s.lanes a).giveBack n (s.held_below mine))
  held := Function.update s.held c none
  held_below {d b m} held := by
    have small := s.held_below (held_let_go held).2
    by_cases same : b = a
    · subst same
      rwa [Function.update_self, Lane.giveBack]
    · rwa [Function.update_of_ne same]
  held_apart {d b m} held := by
    obtain ⟨ne, theirs⟩ := held_let_go held
    have apart := s.held_apart theirs
    by_cases same : b = a
    · subst same
      rw [Function.update_self, Lane.giveBack, Finset.mem_insert, not_or]
      refine ⟨?_, apart⟩
      rintro rfl
      exact ne (s.single theirs mine)
    · rwa [Function.update_of_ne same]
  single held held' := s.single (held_let_go held).2 (held_let_go held').2

/-- A client that holds nothing takes the first entry that is available. -/
inductive Does : Stock κ α β → Op κ α β → Stock κ α β → Prop where
  | push {s : Stock κ α β} (a : α) (value : β) : Does s (.push a value) (s.push a value)
  | take {s : Stock κ α β} {c : κ} {a : α} {n : ℕ} (free : s.held c = none)
      (mem : n ∈ (s.lanes a).available) (first : ∀ m ∈ (s.lanes a).available, n ≤ m) :
      Does s (.take c a n) (s.take c a n mem)
  | forget {s : Stock κ α β} {c : κ} {a : α} {n : ℕ} (mine : s.held c = some (a, n)) :
      Does s (.forget c a n) (s.forget c)
  | giveBack {s : Stock κ α β} {c : κ} {a : α} {n : ℕ} (mine : s.held c = some (a, n)) :
      Does s (.giveBack c a n) (s.giveBack c a n mine)

variable {s t : Stock κ α β} {op : Op κ α β} {ops : List (Op κ α β)} {a b : α} {c d : κ} {m n : ℕ}

omit [DecidableEq κ] in
@[simp] theorem held_push (value : β) : (s.push a value).held = s.held := rfl

@[simp] theorem held_take (mem : n ∈ (s.lanes a).available) :
    (s.take c a n mem).held d = if d = c then some (a, n) else s.held d :=
  Function.update_apply ..

omit [DecidableEq α] in
@[simp] theorem held_forget : (s.forget c).held d = if d = c then none else s.held d :=
  Function.update_apply ..

@[simp] theorem held_giveBack (mine : s.held c = some (a, n)) :
    (s.giveBack c a n mine).held d = if d = c then none else s.held d :=
  Function.update_apply ..

omit [DecidableEq α] in
@[simp] theorem lanes_forget : (s.forget c).lanes = s.lanes := rfl

omit [DecidableEq κ] in
@[simp] theorem entries_push (value : β) : ((s.push a value).lanes b).entries =
    (s.lanes b).entries ++ if b = a then [value] else [] := by
  by_cases same : b = a
  · subst same
    simp [push, Lane.push]
  · simp [push, same]

@[simp] theorem entries_take (mem : n ∈ (s.lanes a).available) :
    ((s.take c a n mem).lanes b).entries = (s.lanes b).entries := by
  by_cases same : b = a
  · subst same
    simp [take, Lane.take]
  · simp [take, same]

@[simp] theorem entries_giveBack (mine : s.held c = some (a, n)) :
    ((s.giveBack c a n mine).lanes b).entries = (s.lanes b).entries := by
  by_cases same : b = a
  · subst same
    simp [giveBack, Lane.giveBack]
  · simp [giveBack, same]

omit [DecidableEq κ] in
@[simp] theorem mem_push (value : β) : m ∈ ((s.push a value).lanes b).available ↔
    b = a ∧ m = (s.lanes b).entries.length ∨ m ∈ (s.lanes b).available := by
  by_cases same : b = a
  · subst same
    simp [push, Lane.push]
  · simp [push, same]

@[simp] theorem mem_take (mem : n ∈ (s.lanes a).available) :
    m ∈ ((s.take c a n mem).lanes b).available ↔
      ¬(b = a ∧ m = n) ∧ m ∈ (s.lanes b).available := by
  by_cases same : b = a
  · subst same
    simp [take, Lane.take]
  · simp [take, same]

@[simp] theorem mem_giveBack (mine : s.held c = some (a, n)) :
    m ∈ ((s.giveBack c a n mine).lanes b).available ↔
      b = a ∧ m = n ∨ m ∈ (s.lanes b).available := by
  by_cases same : b = a
  · subst same
    simp [giveBack, Lane.giveBack]
  · simp [giveBack, same]

theorem Does.entries (does : Does s op t) (a : α) :
    (s.lanes a).entries <+: (t.lanes a).entries := by
  cases does with
  | push b value =>
    rw [entries_push]
    exact List.prefix_append ..
  | take free mem first => rw [entries_take]
  | forget mine => rw [lanes_forget]
  | giveBack mine => rw [entries_giveBack]

omit [DecidableEq κ] in
theorem holds_push (value : β) : (s.push a value).IsHeld b m ↔ s.IsHeld b m := .rfl

theorem holds_take {mem : n ∈ (s.lanes a).available} (free : s.held c = none) :
    (s.take c a n mem).IsHeld b m ↔ (b = a ∧ m = n) ∨ s.IsHeld b m := by
  simp only [IsHeld, held_take]
  constructor
  · rintro ⟨d, held⟩
    split at held
    · obtain ⟨rfl, rfl⟩ := Prod.mk.inj (Option.some.inj held)
      exact .inl ⟨rfl, rfl⟩
    · exact .inr ⟨d, held⟩
  · rintro (⟨rfl, rfl⟩ | ⟨d, held⟩)
    · exact ⟨c, if_pos rfl⟩
    · have other : d ≠ c := by
        rintro rfl
        rw [free] at held
        cases held
      exact ⟨d, (if_neg other).trans held⟩

omit [DecidableEq α] in
theorem holds_let_go (mine : s.held c = some (a, n)) :
    (∃ d, (if d = c then none else s.held d) = some (b, m)) ↔
      ¬(b = a ∧ m = n) ∧ s.IsHeld b m := by
  constructor
  · rintro ⟨d, held⟩
    split at held
    · cases held
    case isFalse other =>
      refine ⟨?_, d, held⟩
      rintro ⟨rfl, rfl⟩
      exact other (s.single held mine)
  · rintro ⟨ne, d, held⟩
    have other : d ≠ c := by
      rintro rfl
      obtain ⟨rfl, rfl⟩ := Prod.mk.inj (Option.some.inj (held.symm.trans mine))
      exact ne ⟨rfl, rfl⟩
    exact ⟨d, (if_neg other).trans held⟩

omit [DecidableEq α] in
theorem holds_forget (mine : s.held c = some (a, n)) :
    (s.forget c).IsHeld b m ↔ ¬(b = a ∧ m = n) ∧ s.IsHeld b m := by
  simp only [IsHeld, held_forget]
  exact holds_let_go mine

theorem holds_giveBack (mine : s.held c = some (a, n)) :
    (s.giveBack c a n mine).IsHeld b m ↔ ¬(b = a ∧ m = n) ∧ s.IsHeld b m := by
  simp only [IsHeld, held_giveBack]
  exact holds_let_go mine

theorem Does.holds (does : Does s op t) :
    (op.takes a n = true ∧ ¬s.IsHeld a n ∧ t.IsHeld a n) ∨
    ((op.forgets a n = true ∨ op.givesBack a n = true) ∧ s.IsHeld a n ∧ ¬t.IsHeld a n) ∨
    (op.takes a n = false ∧ op.forgets a n = false ∧ op.givesBack a n = false ∧
      (t.IsHeld a n ↔ s.IsHeld a n)) := by
  cases does with
  | push b value => exact .inr (.inr ⟨rfl, rfl, rfl, holds_push value⟩)
  | @take c b m free mem first =>
    rw [holds_take free]
    by_cases same : a = b ∧ n = m
    · obtain ⟨rfl, rfl⟩ := same
      refine .inl ⟨by simp [Op.takes], ?_, .inl ⟨rfl, rfl⟩⟩
      rintro ⟨d, held⟩
      exact s.held_apart held mem
    · right; right
      simp only [Op.takes, Op.forgets, Op.givesBack, same, false_or, and_self, and_true]
      grind
  | @forget c b m mine =>
    rw [holds_forget mine]
    by_cases same : a = b ∧ n = m
    · obtain ⟨rfl, rfl⟩ := same
      exact .inr (.inl ⟨.inl (by simp [Op.forgets]), ⟨c, mine⟩, fun h => h.1 ⟨rfl, rfl⟩⟩)
    · right; right
      simp only [Op.takes, Op.forgets, Op.givesBack, same, not_false_eq_true, true_and, and_true]
      grind
  | @giveBack c b m mine =>
    rw [holds_giveBack mine]
    by_cases same : a = b ∧ n = m
    · obtain ⟨rfl, rfl⟩ := same
      exact .inr (.inl ⟨.inr (by simp [Op.givesBack]), ⟨c, mine⟩, fun h => h.1 ⟨rfl, rfl⟩⟩)
    · right; right
      simp only [Op.takes, Op.forgets, Op.givesBack, same, not_false_eq_true, true_and, and_true]
      grind

theorem Does.length_le (does : Does s op t) (a : α) :
    (s.lanes a).entries.length ≤ (t.lanes a).entries.length := (does.entries a).length_le

theorem Does.gone (does : Does s op t) :
    t.Gone a n ↔ s.Gone a n ∨ op.forgets a n = true := by
  unfold Gone
  cases does with
  | push b value =>
    rw [holds_push, entries_push, mem_push, List.length_append]
    by_cases same : a = b
    · rw [if_pos same, List.length_singleton]
      simp only [Op.forgets, same, true_and, Bool.false_eq_true, or_false, not_or]
      have last : n < (s.lanes b).entries.length + 1 ∧ n ≠ (s.lanes b).entries.length ↔
          n < (s.lanes b).entries.length := by omega
      rw [← last]
      tauto
    · simp [Op.forgets, same]
  | @take c b m free mem first =>
    rw [holds_take free, entries_take, mem_take]
    by_cases same : a = b ∧ n = m
    · obtain ⟨rfl, rfl⟩ := same
      simp [Op.forgets, mem]
    · simp [Op.forgets, same]
  | @forget c b m mine =>
    rw [holds_forget mine, lanes_forget]
    by_cases same : a = b ∧ n = m
    · obtain ⟨rfl, rfl⟩ := same
      simp [Op.forgets, s.held_below mine, s.held_apart mine]
    · have miss : ¬(b = a ∧ m = n) := fun ⟨h, h'⟩ => same ⟨h.symm, h'.symm⟩
      simp [Op.forgets, same, miss]
  | @giveBack c b m mine =>
    rw [holds_giveBack mine, entries_giveBack, mem_giveBack]
    by_cases same : a = b ∧ n = m
    · obtain ⟨rfl, rfl⟩ := same
      have held : s.IsHeld a n := ⟨c, mine⟩
      simp [Op.forgets, held]
    · simp [Op.forgets, same]

theorem Does.held_other (does : Does s op t) (mine : op.By c) (other : d ≠ c) :
    t.held d = s.held d := by
  cases does with
  | push b value => rfl
  | take free mem first =>
    obtain rfl : _ = c := mine
    rw [held_take, if_neg other]
  | forget holding =>
    obtain rfl : _ = c := mine
    rw [held_forget, if_neg other]
  | giveBack holding =>
    obtain rfl : _ = c := mine
    rw [held_giveBack, if_neg other]

/-! Sequences of operations. -/

theorem runs_held_other (run : Runs Does s ops t) (mine : ∀ op ∈ ops, op.By c) (other : d ≠ c) :
    t.held d = s.held d := by
  induction run with
  | nil => rfl
  | cons first _ ih =>
    have rest := ih fun op mem => mine op (List.mem_cons_of_mem _ mem)
    exact rest.trans (first.held_other (mine _ List.mem_cons_self) other)

theorem runs_entries_same (run : Runs Does s ops t) (none : ∀ b value, .push b value ∉ ops) (a : α) :
    (t.lanes a).entries = (s.lanes a).entries := by
  induction run with
  | nil => rfl
  | @cons s u t op ops first _ ih =>
    have rest := ih fun b value mem => none b value (List.mem_cons_of_mem _ mem)
    refine rest.trans ?_
    cases first with
    | push b value => exact absurd List.mem_cons_self (none b value)
    | take free mem first => exact entries_take mem
    | forget mine => rfl
    | giveBack mine => exact entries_giveBack mine

theorem runs_gone (run : Runs Does s ops t) :
    t.Gone a n ↔ s.Gone a n ∨ ∃ c, .forget c a n ∈ ops := by
  induction run with
  | nil => simp
  | @cons s u t op ops first _ ih =>
    rw [ih, first.gone, or_assoc]
    refine or_congr_right ?_
    simp only [List.mem_cons, exists_or]
    refine or_congr_left ?_
    cases op with
    | forget c b m =>
      simp only [Op.forgets, Bool.and_eq_true, decide_eq_true_eq, Op.forget.injEq]
      constructor
      · rintro ⟨rfl, rfl⟩
        exact ⟨c, rfl, rfl, rfl⟩
      · rintro ⟨-, -, rfl, rfl⟩
        exact ⟨rfl, rfl⟩
    | push | take | giveBack => simp [Op.forgets]

theorem runs_entries (run : Runs Does s ops t) (a : α) :
    (s.lanes a).entries <+: (t.lanes a).entries := by
  induction run with
  | nil => exact List.prefix_rfl
  | cons first _ ih => exact (first.entries a).trans ih

open Classical in
noncomputable def holders (s : Stock κ α β) (a : α) (n : ℕ) : ℕ := if s.IsHeld a n then 1 else 0

theorem Does.balance (does : Does s op t) :
    (if op.takes a n then 1 else 0) + s.holders a n =
      (if op.givesBack a n then 1 else 0) + (if op.forgets a n then 1 else 0) + t.holders a n := by
  unfold holders
  rcases does.holds (a := a) (n := n) with ⟨takes, free, held⟩ | ⟨ends, held, free⟩ |
    ⟨takes, forgets, returns, same⟩
  · have other : op.givesBack a n = false ∧ op.forgets a n = false := by
      cases op <;> simp_all [Op.takes, Op.givesBack, Op.forgets]
    simp [takes, free, held, other]
  · have other : op.takes a n = false ∧
        (op.givesBack a n = true ∧ op.forgets a n = false ∨
          op.givesBack a n = false ∧ op.forgets a n = true) := by
      cases op <;> simp_all [Op.takes, Op.givesBack, Op.forgets]
    rcases other with ⟨takes, ⟨returns, forgets⟩ | ⟨returns, forgets⟩⟩
    · simp [takes, free, held, returns, forgets]
    · simp [takes, free, held, returns, forgets]
  · rw [takes, forgets, returns, propext same]
    simp

/-- Every taking of an entry is followed by its end, but for the one that lasts. -/
theorem runs_balance (run : Runs Does s ops t) (a : α) (n : ℕ) :
    ops.countP (Op.takes a n) + s.holders a n =
      ops.countP (Op.givesBack a n) + ops.countP (Op.forgets a n) + t.holders a n := by
  induction run with
  | nil => simp
  | cons first _ ih =>
    have step := first.balance (a := a) (n := n)
    simp only [List.countP_cons]
    omega

open Classical in
noncomputable def losses (s : Stock κ α β) (a : α) (n : ℕ) : ℕ := if s.Gone a n then 1 else 0

theorem Does.loss (does : Does s op t) :
    (if op.forgets a n then 1 else 0) + s.losses a n = t.losses a n := by
  unfold losses
  have after := does.gone (a := a) (n := n)
  cases forgets : op.forgets a n with
  | false =>
    rw [forgets, or_iff_left Bool.false_ne_true] at after
    rw [propext after]
    simp
  | true =>
    have held : s.IsHeld a n := by
      cases does with
      | @forget c b m mine =>
        simp only [Op.forgets, Bool.and_eq_true, decide_eq_true_eq] at forgets
        obtain ⟨rfl, rfl⟩ := forgets
        exact ⟨c, mine⟩
      | push | take | giveBack => cases forgets
    have kept : ¬s.Gone a n := fun gone => gone.2.2 held
    simp [after, forgets, kept]

theorem runs_loss (run : Runs Does s ops t) (a : α) (n : ℕ) :
    ops.countP (Op.forgets a n) + s.losses a n = t.losses a n := by
  induction run with
  | nil => simp
  | cons first _ ih =>
    have step := first.loss (a := a) (n := n)
    rw [List.countP_cons]
    omega

/-- What was taken so far lies before all that can still be taken. -/
structure InOrder (a : α) (past : List ℕ) (s : Stock κ α β) : Prop where
  ordered : past.Pairwise (· < ·)
  before : ∀ m ∈ past, ∀ n ∈ (s.lanes a).available, m < n
  small : ∀ m ∈ past, m < (s.lanes a).entries.length

theorem Does.inOrder {past : List ℕ} (kept : op.returnsTo a = false) (order : InOrder a past s)
    (does : Does s op t) : InOrder a (past ++ (op.taken a).toList) t := by
  have small := fun m mem => Nat.lt_of_lt_of_le (order.small m mem) (does.length_le a)
  cases does with
  | push b value =>
    rw [show (Op.push b value : Op κ α β).taken a = none from rfl, Option.toList_none,
      List.append_nil]
    refine ⟨order.ordered, fun m mem n available => ?_, small⟩
    rcases (mem_push value).mp available with ⟨-, rfl⟩ | old
    · exact order.small m mem
    · exact order.before m mem n old
  | @take c b k free mem first =>
    by_cases same : b = a
    · subst same
      rw [Op.taken, if_pos rfl, Option.toList_some]
      refine ⟨?_, ?_, ?_⟩
      · rw [List.pairwise_append]
        refine ⟨order.ordered, List.pairwise_singleton .., fun m old n new => ?_⟩
        rw [List.mem_singleton.mp new]
        exact order.before m old k mem
      · intro m past n available
        rw [mem_take] at available
        rcases List.mem_append.mp past with old | new
        · exact order.before m old n available.2
        · rw [List.mem_singleton.mp new]
          exact lt_of_le_of_ne (first n available.2) fun h => available.1 ⟨rfl, h.symm⟩
      · intro m past
        rcases List.mem_append.mp past with old | new
        · exact small m old
        · rw [List.mem_singleton.mp new, entries_take]
          exact (s.lanes b).below k mem
    · rw [Op.taken, if_neg same, Option.toList_none, List.append_nil]
      refine ⟨order.ordered, fun m mem n available => ?_, small⟩
      exact order.before m mem n ((mem_take _).mp available).2
  | @forget c b k mine =>
    rw [show (Op.forget c b k : Op κ α β).taken a = none from rfl, Option.toList_none,
      List.append_nil]
    exact ⟨order.ordered, order.before, small⟩
  | @giveBack c b k mine =>
    rw [show (Op.giveBack c b k : Op κ α β).taken a = none from rfl, Option.toList_none,
      List.append_nil]
    have other : ¬b = a := by simpa [Op.returnsTo] using kept
    refine ⟨order.ordered, fun m mem n available => ?_, small⟩
    rcases (mem_giveBack mine).mp available with ⟨same, -⟩ | old
    · exact absurd same.symm other
    · exact order.before m mem n old

/-- Where no entry is given back, they are taken in the order in which they were pushed. -/
theorem runs_taken (run : Runs Does s ops t) (kept : ∀ op ∈ ops, op.returnsTo a = false) :
    (ops.filterMap (Op.taken a)).Pairwise (· < ·) := by
  have start : InOrder a [] s := ⟨.nil, by simp, by simp⟩
  have last : InOrder a ([] ++ ops.flatMap fun op => (op.taken a).toList) t :=
    run.preserves_history (fun past s op t kept order does => does.inOrder kept order) [] kept start
  rw [List.nil_append, ← List.filterMap_eq_flatMap_toList] at last
  exact last.ordered

end Stock

end HoldingQueues
