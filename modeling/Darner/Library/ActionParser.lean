import Mathlib.Data.List.TakeWhile

/-! Recursive-descent rules over bytes with semantic actions on a state. Choice is
ordered, repetition is greedy and does not give back, and an action takes effect
when it fires: a branch that fails later gives back the input but not the state. -/

namespace ActionParser

abbrev Input := List UInt8

/-- The state after the actions that fired, and on success the attribute and the
rest of the input. -/
abbrev Rule (σ α : Type) := σ → Input → σ × Option (α × Input)

variable {σ α β : Type}

def lit (text : Input) : Rule σ Unit := fun s input =>
  (s, if text.isPrefixOf input then some ((), input.drop text.length) else none)

def many1 (cls : UInt8 → Bool) : Rule σ Input := fun s input =>
  (s, if (input.takeWhile cls).isEmpty then none
    else some (input.takeWhile cls, input.dropWhile cls))

def decimal (digits : Input) : ℕ := digits.foldl (fun n b => 10 * n + (b.toNat - 48)) 0

def numeral (bound : ℕ) : Rule σ ℕ := fun s input =>
  let digits := input.takeWhile fun b => 48 ≤ b && b ≤ 57
  (s, if digits.isEmpty ∨ bound ≤ decimal digits then none
    else some (decimal digits, input.drop digits.length))

def eol : Rule σ Unit := fun s input =>
  match input with
  | 13 :: 10 :: rest => (s, some ((), rest))
  | 13 :: rest => (s, some ((), rest))
  | 10 :: rest => (s, some ((), rest))
  | _ => (s, none)

def seq (p : Rule σ α) (q : Rule σ β) : Rule σ β := fun s input =>
  match p s input with
  | (s, none) => (s, none)
  | (s, some (_, rest)) => q s rest

/-- Ordered choice: the second rule starts at the same input, with the state that
the first one left. -/
def alt (p q : Rule σ α) : Rule σ α := fun s input =>
  match p s input with
  | (s, none) => q s input
  | (s, some result) => (s, some result)

def opt (p : Rule σ Unit) : Rule σ Unit := fun s input =>
  match p s input with
  | (s, none) => (s, some ((), input))
  | (s, some result) => (s, some result)

def repeatUpTo (p : Rule σ Unit) : ℕ → Rule σ Unit
  | 0, s, input => (s, some ((), input))
  | fuel + 1, s, input =>
    match p s input with
    | (s, none) => (s, some ((), input))
    | (s, some (_, rest)) => repeatUpTo p fuel s rest

def star (p : Rule σ Unit) : Rule σ Unit := fun s input =>
  repeatUpTo p (input.length + 1) s input

def on (p : Rule σ α) (action : α → σ → σ) : Rule σ α := fun s input =>
  match p s input with
  | (s, none) => (s, none)
  | (s, some (a, rest)) => (action a s, some (a, rest))

def unit (p : Rule σ α) : Rule σ Unit := fun s input =>
  match p s input with
  | (s, none) => (s, none)
  | (s, some (_, rest)) => (s, some ((), rest))

/-- Whatever the rule does with the input, its actions keep `P`. -/
def Keeps (P : σ → Prop) (p : Rule σ α) : Prop := ∀ s input, P s → P (p s input).1

def Yields (Q : α → Prop) (p : Rule σ α) : Prop :=
  ∀ s input a rest, (p s input).2 = some (a, rest) → Q a

variable {P : σ → Prop}

theorem keeps_lit (text : Input) : Keeps P (lit text : Rule σ Unit) := fun _ _ h => h

theorem keeps_many1 (cls : UInt8 → Bool) : Keeps P (many1 cls : Rule σ Input) := fun _ _ h => h

theorem keeps_numeral (bound : ℕ) : Keeps P (numeral bound : Rule σ ℕ) := fun _ _ h => h

theorem keeps_eol : Keeps P (eol : Rule σ Unit) := by
  intro s input h
  unfold eol
  split <;> exact h

theorem keeps_seq {p : Rule σ α} {q : Rule σ β} (first : Keeps P p) (second : Keeps P q) :
    Keeps P (seq p q) := by
  intro s input h
  have mid := first s input h
  unfold seq
  split
  case h_1 result =>
    rw [result] at mid
    exact mid
  case h_2 result =>
    rw [result] at mid
    exact second _ _ mid

theorem keeps_alt {p q : Rule σ α} (first : Keeps P p) (second : Keeps P q) :
    Keeps P (alt p q) := by
  intro s input h
  have mid := first s input h
  unfold alt
  split
  case h_1 result =>
    rw [result] at mid
    exact second _ _ mid
  case h_2 result =>
    rw [result] at mid
    exact mid

theorem keeps_opt {p : Rule σ Unit} (keeps : Keeps P p) : Keeps P (opt p) := by
  intro s input h
  have mid := keeps s input h
  unfold opt
  split
  case h_1 result =>
    rw [result] at mid
    exact mid
  case h_2 result =>
    rw [result] at mid
    exact mid

theorem keeps_repeatUpTo {p : Rule σ Unit} (keeps : Keeps P p) (fuel : ℕ) :
    Keeps P (repeatUpTo p fuel) := by
  induction fuel with
  | zero => exact fun _ _ h => h
  | succ fuel ih =>
    intro s input h
    have mid := keeps s input h
    unfold repeatUpTo
    split
    case h_1 result =>
      rw [result] at mid
      exact mid
    case h_2 result =>
      rw [result] at mid
      exact ih _ _ mid

theorem keeps_star {p : Rule σ Unit} (keeps : Keeps P p) : Keeps P (star p) :=
  fun s input h => keeps_repeatUpTo keeps _ s input h

theorem keeps_unit {p : Rule σ α} (keeps : Keeps P p) : Keeps P (unit p) := by
  intro s input h
  have mid := keeps s input h
  unfold unit
  split
  case h_1 result =>
    rw [result] at mid
    exact mid
  case h_2 result =>
    rw [result] at mid
    exact mid

theorem keeps_on {p : Rule σ α} {Q : α → Prop} {action : α → σ → σ} (keeps : Keeps P p)
    (yields : Yields Q p) (fires : ∀ a s, Q a → P s → P (action a s)) : Keeps P (on p action) := by
  intro s input h
  have mid := keeps s input h
  unfold on
  split
  case h_1 result =>
    rw [result] at mid
    exact mid
  case h_2 a rest result =>
    rw [result] at mid
    exact fires a _ (yields s input a rest (by rw [result])) mid

theorem yields_any (p : Rule σ α) : Yields (fun _ => True) p := fun _ _ _ _ _ => trivial

theorem yields_numeral (bound : ℕ) : Yields (· < bound) (numeral bound : Rule σ ℕ) := by
  intro s input n rest found
  simp only [numeral] at found
  split at found
  · cases found
  case isFalse small =>
    rw [not_or] at small
    obtain ⟨rfl, -⟩ := Prod.mk.inj (Option.some.inj found)
    omega

variable {s s' : σ} {input rest : Input}

theorem lit_some {text : Input} {u : Unit} :
    lit text s input = (s', some (u, rest)) ↔ s' = s ∧ input = text ++ rest := by
  simp only [lit, Prod.mk.injEq]
  split
  case isTrue there =>
    obtain ⟨more, rfl⟩ := List.isPrefixOf_iff_prefix.mp there
    simp [eq_comm]
  case isFalse away =>
    simp only [reduceCtorEq, and_false, false_iff, not_and]
    rintro - rfl
    exact away (List.isPrefixOf_iff_prefix.mpr (List.prefix_append _ _))

def Stops (cls : UInt8 → Bool) (rest : Input) : Prop := ∀ b, rest.head? = some b → cls b = false

theorem stops_dropWhile (cls : UInt8 → Bool) (input : Input) : Stops cls (input.dropWhile cls) := by
  intro b first
  have none := List.head?_dropWhile_not cls input
  rw [first] at none
  simpa using none

theorem takeWhile_run {cls : UInt8 → Bool} {run : Input} (all : ∀ b ∈ run, cls b = true)
    (stops : Stops cls rest) :
    (run ++ rest).takeWhile cls = run ∧ (run ++ rest).dropWhile cls = rest := by
  have none : rest.takeWhile cls = [] ∧ rest.dropWhile cls = rest := by
    cases rest with
    | nil => exact ⟨rfl, rfl⟩
    | cons b more => simp [stops b rfl]
  rw [List.takeWhile_append_of_pos all, List.dropWhile_append_of_pos all, none.1, none.2]
  exact ⟨List.append_nil run, rfl⟩

theorem many1_some {cls : UInt8 → Bool} {run : Input} :
    many1 cls s input = (s', some (run, rest)) ↔
      s' = s ∧ input = run ++ rest ∧ run ≠ [] ∧ (∀ b ∈ run, cls b = true) ∧ Stops cls rest := by
  simp only [many1, Prod.mk.injEq, Option.ite_none_left_eq_some, Option.some.injEq,
    List.isEmpty_iff]
  constructor
  · rintro ⟨rfl, some, rfl, rfl⟩
    exact ⟨rfl, List.takeWhile_append_dropWhile.symm, some, fun b => List.mem_takeWhile_imp,
      stops_dropWhile cls input⟩
  · rintro ⟨rfl, rfl, some, all, stops⟩
    obtain ⟨take, drop⟩ := takeWhile_run all stops
    rw [take, drop]
    exact ⟨rfl, some, rfl, rfl⟩

def digit (b : UInt8) : Bool := 48 ≤ b && b ≤ 57

theorem numeral_some {bound n : ℕ} :
    numeral bound s input = (s', some (n, rest)) ↔
      s' = s ∧ ∃ digits, input = digits ++ rest ∧ digits ≠ [] ∧ (∀ b ∈ digits, digit b = true) ∧
        Stops digit rest ∧ n = decimal digits ∧ decimal digits < bound := by
  have cls : (fun b : UInt8 => decide (48 ≤ b) && decide (b ≤ 57)) = digit := rfl
  simp only [numeral, Prod.mk.injEq, Option.ite_none_left_eq_some, Option.some.injEq,
    List.isEmpty_iff, cls, not_or, Nat.not_le]
  have skip : ∀ l : Input, l.drop (l.takeWhile digit).length = l.dropWhile digit := by
    intro l
    have split : l.takeWhile digit ++ l.dropWhile digit = l := List.takeWhile_append_dropWhile
    calc l.drop (l.takeWhile digit).length
        = (l.takeWhile digit ++ l.dropWhile digit).drop (l.takeWhile digit).length := by rw [split]
      _ = l.dropWhile digit := List.drop_left
  rw [skip]
  constructor
  · rintro ⟨rfl, ⟨some, small⟩, rfl, rfl⟩
    exact ⟨rfl, _, List.takeWhile_append_dropWhile.symm, some, fun b => List.mem_takeWhile_imp,
      stops_dropWhile digit input, rfl, small⟩
  · rintro ⟨rfl, digits, rfl, some, all, stops, rfl, small⟩
    obtain ⟨take, drop⟩ := takeWhile_run all stops
    rw [take, drop]
    exact ⟨rfl, ⟨some, small⟩, rfl, rfl⟩

theorem seq_some {p : Rule σ α} {q : Rule σ β} {b : β} :
    seq p q s input = (s', some (b, rest)) ↔
      ∃ t a mid, p s input = (t, some (a, mid)) ∧ q t mid = (s', some (b, rest)) := by
  unfold seq
  split
  case h_1 t result => simp [result]
  case h_2 t a mid result =>
    constructor
    · exact fun h => ⟨t, a, mid, result, h⟩
    · rintro ⟨t', a', mid', same, h⟩
      rw [result] at same
      cases same
      exact h

theorem on_some {p : Rule σ α} {action : α → σ → σ} {a : α} :
    on p action s input = (s', some (a, rest)) ↔
      ∃ t, p s input = (t, some (a, rest)) ∧ s' = action a t := by
  unfold on
  split
  case h_1 t result => simp [result]
  case h_2 t b mid result =>
    simp only [result, Prod.mk.injEq, Option.some.injEq]
    constructor
    · rintro ⟨rfl, rfl, rfl⟩
      exact ⟨t, ⟨rfl, rfl, rfl⟩, rfl⟩
    · rintro ⟨t', ⟨rfl, rfl, rfl⟩, rfl⟩
      exact ⟨rfl, rfl, rfl⟩

theorem unit_some {p : Rule σ α} {u : Unit} :
    unit p s input = (s', some (u, rest)) ↔ ∃ a, p s input = (s', some (a, rest)) := by
  unfold unit
  split
  case h_1 t result => simp [result]
  case h_2 t b mid result => simp [result]

theorem opt_some {p : Rule σ Unit} {u : Unit} :
    opt p s input = (s', some (u, rest)) ↔
      p s input = (s', some ((), rest)) ∨ p s input = (s', none) ∧ rest = input := by
  unfold opt
  split
  case h_1 t result => simp [result, eq_comm]
  case h_2 t b result => simp [result]

theorem eol_all {u : Unit} : eol s input = (s', some (u, [])) ↔
    s' = s ∧ (input = [13, 10] ∨ input = [13] ∨ input = [10]) := by
  constructor
  · intro h
    unfold eol at h
    split at h <;> cases h <;> simp
  · rintro ⟨rfl, rfl | rfl | rfl⟩ <;> rfl

/-- Without its guard the rule fails and no action fires. -/
def Guarded (guard : Input → Prop) (p : Rule σ α) : Prop :=
  ∀ s input, ¬guard input → p s input = (s, none)

theorem guarded_lit (text : Input) : Guarded (text <+: ·) (lit text : Rule σ Unit) := by
  intro s input away
  simp only [lit]
  rw [if_neg]
  exact fun there => away (List.isPrefixOf_iff_prefix.mp there)

theorem guarded_on {guard : Input → Prop} {p : Rule σ α} (h : Guarded guard p)
    (action : α → σ → σ) : Guarded guard (on p action) := by
  intro s input away
  simp only [on, h s input away]

theorem guarded_seq {guard : Input → Prop} {p : Rule σ α} (h : Guarded guard p) (q : Rule σ β) :
    Guarded guard (seq p q) := by
  intro s input away
  simp only [seq, h s input away]

theorem guarded_alt {guard guard' : Input → Prop} {p q : Rule σ α} (first : Guarded guard p)
    (second : Guarded guard' q) : Guarded (fun input => guard input ∨ guard' input) (alt p q) := by
  intro s input away
  rw [not_or] at away
  simp only [alt, first s input away.1, second s input away.2]

theorem alt_some {guard guard' : Input → Prop} {p q : Rule σ α} {a : α} (first : Guarded guard p)
    (second : Guarded guard' q) (apart : guard input → ¬guard' input) :
    alt p q s input = (s', some (a, rest)) ↔
      p s input = (s', some (a, rest)) ∨ q s input = (s', some (a, rest)) := by
  by_cases here : guard input
  · have fails := second s input (apart here)
    unfold alt
    split
    case h_1 t result => simp [second t input (apart here), fails, result]
    case h_2 t b result => simp [fails, result]
  · have fails := first s input here
    simp [alt, fails]

def Starts (texts : List Input) (input : Input) : Prop := ∃ text ∈ texts, text <+: input

theorem guarded_texts {texts : List Input} {guard : Input → Prop} {p : Rule σ α}
    (h : Guarded guard p) (starts : ∀ input, guard input → Starts texts input) :
    Guarded (Starts texts) p :=
  fun s input away => h s input fun here => away (starts input here)

theorem guarded_choice {texts : List Input} {text : Input} {p q : Rule σ α}
    (first : Guarded (text <+: ·) p) (second : Guarded (Starts texts) q) :
    Guarded (Starts (text :: texts)) (alt p q) := by
  refine guarded_texts (guarded_alt first second) fun input starts => ?_
  rcases starts with here | ⟨other, mem, here⟩
  · exact ⟨text, List.mem_cons_self, here⟩
  · exact ⟨other, List.mem_cons_of_mem _ mem, here⟩

theorem starts_apart {texts : List Input} {text : Input}
    (apart : ∀ other ∈ texts, ¬text <+: other ∧ ¬other <+: text) (here : text <+: input) :
    ¬Starts texts input := by
  rintro ⟨other, mem, there⟩
  rcases List.prefix_or_prefix_of_prefix here there with before | before
  · exact (apart other mem).1 before
  · exact (apart other mem).2 before

theorem choice_some {texts : List Input} {text : Input} {p q : Rule σ α}
    (first : Guarded (text <+: ·) p) (second : Guarded (Starts texts) q)
    (apart : ∀ other ∈ texts, ¬text <+: other ∧ ¬other <+: text) :
    Guarded (Starts (text :: texts)) (alt p q) ∧
    ∀ {s s' : σ} {input rest : Input} {a : α}, alt p q s input = (s', some (a, rest)) ↔
      p s input = (s', some (a, rest)) ∨ q s input = (s', some (a, rest)) :=
  ⟨guarded_choice first second, alt_some first second (starts_apart apart)⟩

theorem guarded_last {text : Input} {p : Rule σ α} (h : Guarded (text <+: ·) p) :
    Guarded (Starts [text]) p :=
  guarded_texts h fun _ here => ⟨text, List.mem_cons_self, here⟩

/-- A failing rule fires no action. -/
def Quiet (p : Rule σ α) : Prop := ∀ s input s', p s input = (s', none) → s' = s

theorem quiet_lit (text : Input) : Quiet (lit text : Rule σ Unit) := by
  intro s input s' h
  exact (congrArg Prod.fst h).symm

theorem quiet_numeral (bound : ℕ) : Quiet (numeral bound : Rule σ ℕ) := by
  intro s input s' h
  exact (congrArg Prod.fst h).symm

theorem quiet_on {p : Rule σ α} (h : Quiet p) (action : α → σ → σ) : Quiet (on p action) := by
  intro s input s' failed
  unfold on at failed
  split at failed
  case h_1 t result =>
    cases failed
    exact h s input _ result
  case h_2 => cases failed

theorem quiet_unit {p : Rule σ α} (h : Quiet p) : Quiet (unit p) := by
  intro s input s' failed
  unfold unit at failed
  split at failed
  case h_1 t result =>
    cases failed
    exact h s input _ result
  case h_2 => cases failed

theorem quiet_alt {p q : Rule σ α} (first : Quiet p) (second : Quiet q) : Quiet (alt p q) := by
  intro s input s' failed
  unfold alt at failed
  split at failed
  case h_1 t result =>
    rw [second t input s' failed, first s input t result]
  case h_2 => cases failed

theorem quiet_lit_seq {q : Rule σ β} (text : Input) (h : Quiet q) : Quiet (seq (lit text) q) := by
  intro s input s' failed
  unfold seq at failed
  split at failed
  case h_1 t result =>
    cases failed
    exact quiet_lit text s input _ result
  case h_2 t u mid result =>
    rw [h t mid s' failed]
    exact (lit_some.mp result).1

inductive Repeats (p : Rule σ Unit) : σ → Input → σ → Input → Prop where
  | nil (s : σ) (input : Input) : Repeats p s input s input
  | cons {s t s' : σ} {input mid rest : Input} (first : p s input = (t, some ((), mid)))
      (more : Repeats p t mid s' rest) : Repeats p s input s' rest

def Consumes (p : Rule σ Unit) : Prop :=
  ∀ s input s' rest, p s input = (s', some ((), rest)) → rest.length < input.length

theorem repeatUpTo_some {p : Rule σ Unit} (consumes : Consumes p) {fuel : ℕ} {u : Unit}
    (enough : input.length < fuel) (h : repeatUpTo p fuel s input = (s', some (u, rest))) :
    ∃ t, Repeats p s input t rest ∧ p t rest = (s', none) := by
  induction fuel generalizing s input with
  | zero => omega
  | succ fuel ih =>
    unfold repeatUpTo at h
    split at h
    case h_1 t result =>
      cases h
      exact ⟨s, .nil s _, result⟩
    case h_2 t v mid result =>
      have less := consumes s input t mid result
      obtain ⟨t', more, last⟩ := ih (by omega) h
      exact ⟨t', .cons result more, last⟩

theorem repeatUpTo_repeats {p : Rule σ Unit} (consumes : Consumes p) {t : σ}
    (repeats : Repeats p s input t rest) (last : p t rest = (s', none)) (fuel : ℕ)
    (enough : input.length < fuel) : repeatUpTo p fuel s input = (s', some ((), rest)) := by
  induction repeats generalizing fuel with
  | nil t input =>
    obtain ⟨fuel, rfl⟩ : ∃ n, fuel = n + 1 := ⟨fuel - 1, by omega⟩
    simp only [repeatUpTo, last]
  | cons first _ ih =>
    obtain ⟨fuel, rfl⟩ : ∃ n, fuel = n + 1 := ⟨fuel - 1, by omega⟩
    have less := consumes _ _ _ _ first
    simp only [repeatUpTo, first]
    exact ih last fuel (by omega)

theorem star_some {p : Rule σ Unit} (consumes : Consumes p) {u : Unit} :
    star p s input = (s', some (u, rest)) ↔
      ∃ t, Repeats p s input t rest ∧ p t rest = (s', none) := by
  constructor
  · exact repeatUpTo_some consumes (Nat.lt_succ_self _)
  · rintro ⟨t, repeats, last⟩
    exact repeatUpTo_repeats consumes repeats last _ (Nat.lt_succ_self _)

variable {ι : Type} {valid : ι → Prop} {text : ι → Input} {act : ι → σ → σ} {p : Rule σ Unit}

theorem list_of_repeats
    (each : ∀ s input s' rest, p s input = (s', some ((), rest)) →
      ∃ o, valid o ∧ input = text o ++ rest ∧ s' = act o s)
    (repeats : Repeats p s input s' rest) :
    ∃ os : List ι, (∀ o ∈ os, valid o) ∧ input = os.flatMap text ++ rest ∧
      s' = os.foldl (fun s o => act o s) s := by
  induction repeats with
  | nil s input => exact ⟨[], by simp, rfl, rfl⟩
  | cons first more ih =>
    obtain ⟨o, ok, rfl, rfl⟩ := each _ _ _ _ first
    obtain ⟨os, all, rfl, rfl⟩ := ih
    refine ⟨o :: os, ?_, by simp, rfl⟩
    intro other mem
    rcases List.mem_cons.mp mem with rfl | mem
    · exact ok
    · exact all other mem

theorem repeats_of_list {ends : Input → Prop}
    (each : ∀ o s rest, valid o → ends rest → p s (text o ++ rest) = (act o s, some ((), rest)))
    (goes : ∀ o rest, ends (text o ++ rest)) (last : ends rest) (os : List ι)
    (all : ∀ o ∈ os, valid o) (s : σ) :
    Repeats p s (os.flatMap text ++ rest) (os.foldl (fun s o => act o s) s) rest := by
  induction os generalizing s with
  | nil => exact .nil s rest
  | cons o os ih =>
    have here : ends (os.flatMap text ++ rest) := by
      cases os with
      | nil => exact last
      | cons next os =>
        rw [List.flatMap_cons, List.append_assoc]
        exact goes next _
    rw [List.flatMap_cons, List.append_assoc, List.foldl_cons]
    refine .cons (each o s _ (all o List.mem_cons_self) here) ?_
    exact ih (fun other mem => all other (List.mem_cons_of_mem _ mem)) (act o s)

end ActionParser
