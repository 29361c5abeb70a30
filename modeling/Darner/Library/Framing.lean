import Mathlib.Data.List.Basic

/-! Splitting a stream into frames. A framer, in a state, takes the next frame off the
front of what it is given, or takes nothing. A reader that has a part of the stream in
a buffer takes a frame as soon as the framer gives one; what it takes is the split of
the whole stream, in whatever pieces the stream arrives. -/

namespace Framing

variable {α σ ω : Type}

abbrev Framer (α σ ω : Type) := σ → List α → Option (ω × σ × ℕ)

/-- A frame takes some of what is given, and does not depend on what follows. -/
structure Lawful (next : Framer α σ ω) : Prop where
  pos : ∀ {st input frame st' n}, next st input = some (frame, st', n) → 0 < n
  le : ∀ {st input frame st' n}, next st input = some (frame, st', n) → n ≤ input.length
  more : ∀ {st input out} rest, next st input = some out → next st (input ++ rest) = some out

def splitWith (next : Framer α σ ω) : ℕ → σ → List α → List ω
  | 0, _, _ => []
  | fuel + 1, st, input =>
    match next st input with
    | none => []
    | some (frame, st', n) => frame :: splitWith next fuel st' (input.drop n)

/-- The frames of an input, from left to right. A frame takes at least one element. -/
def split (next : Framer α σ ω) (st : σ) (input : List α) : List ω :=
  splitWith next input.length st input

variable {next : Framer α σ ω} {st st' start : σ} {input received buf : List α} {frame : ω}
  {log : List ω} {n : ℕ}

theorem Lawful.next_nil (lawful : Lawful next) (st : σ) : next st [] = none := by
  cases taken : next st [] with
  | none => rfl
  | some out =>
    have pos := lawful.pos taken
    exact absurd (lawful.le taken) (Nat.not_le.mpr pos)

theorem splitWith_fuel (lawful : Lawful next) {fuel more : ℕ} (enough : input.length ≤ fuel)
    (enough' : input.length ≤ more) :
    splitWith next fuel st input = splitWith next more st input := by
  induction fuel generalizing more st input with
  | zero =>
    obtain rfl := List.length_eq_zero_iff.mp (Nat.le_zero.mp enough)
    cases more with
    | zero => rfl
    | succ more => rw [splitWith, splitWith, lawful.next_nil]
  | succ fuel ih =>
    cases more with
    | zero =>
      obtain rfl := List.length_eq_zero_iff.mp (Nat.le_zero.mp enough')
      rw [splitWith, splitWith, lawful.next_nil]
    | succ more =>
      rw [splitWith, splitWith]
      cases taken : next st input with
      | none => rfl
      | some out =>
        obtain ⟨frame, st', n⟩ := out
        have pos := lawful.pos taken
        have length : (input.drop n).length = input.length - n := List.length_drop
        exact congrArg (frame :: ·) (ih (by omega) (by omega))

theorem split_none (lawful : Lawful next) (stuck : next st input = none) :
    split next st input = [] := by
  rw [split, splitWith_fuel lawful (Nat.le_refl _) (Nat.le_succ input.length), splitWith, stuck]

theorem split_some (lawful : Lawful next) (taken : next st input = some (frame, st', n)) :
    split next st input = frame :: split next st' (input.drop n) := by
  rw [split, splitWith_fuel lawful (Nat.le_refl _) (Nat.le_succ input.length), splitWith, taken]
  have length : (input.drop n).length = input.length - n := List.length_drop
  exact congrArg (frame :: ·) (splitWith_fuel lawful (by omega) (Nat.le_refl _))

/-- What the reader has taken, followed by what its state makes of its buffer and of all
that is still to come, is the split of the whole stream. -/
def Agrees (next : Framer α σ ω) (start : σ) (received : List α) (log : List ω) (st : σ)
    (buf : List α) : Prop :=
  ∀ rest, split next start (received ++ rest) = log ++ split next st (buf ++ rest)

theorem Agrees.init (next : Framer α σ ω) (start : σ) : Agrees next start [] [] start [] :=
  fun _ => rfl

theorem Agrees.receive (h : Agrees next start received log st buf) (piece : List α) :
    Agrees next start (received ++ piece) log st (buf ++ piece) := by
  intro rest
  rw [List.append_assoc, List.append_assoc]
  exact h (piece ++ rest)

theorem Agrees.take (h : Agrees next start received log st buf) (lawful : Lawful next)
    (taken : next st buf = some (frame, st', n)) :
    Agrees next start received (log ++ [frame]) st' (buf.drop n) := by
  intro rest
  rw [h rest, split_some lawful (lawful.more rest taken),
    List.drop_append_of_le_length (lawful.le taken), List.append_assoc]
  rfl

theorem Agrees.stuck (h : Agrees next start received log st buf) (lawful : Lawful next)
    {rest : List α} (stuck : next st (buf ++ rest) = none) :
    split next start (received ++ rest) = log := by
  rw [h rest, split_none lawful stuck, List.append_nil]

end Framing
