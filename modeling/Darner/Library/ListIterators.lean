import Mathlib.Data.List.Basic

/-! Iterators into a linked list. A node is known by a number that it keeps for as long
as it is in the list, and an iterator is such a number, or none at the end of the list.
What a program must not do, to use an iterator at the end or at a node that was
released, has no result. -/

namespace ListIterators

variable {α : Type} (node : α → ℕ)

/-- The list from the node of an iterator on. -/
def onward (xs : List α) : Option ℕ → List α
  | none => []
  | some n => xs.dropWhile fun x => node x ≠ n

def deref (xs : List α) (it : Option ℕ) : Option α := (onward node xs it).head?

def advance (xs : List α) (it : Option ℕ) : Option (Option ℕ) :=
  match onward node xs it with
  | [] => none
  | _ :: rest => some (rest.head?.map node)

variable {node} {front rest : List α} {x : α}

theorem onward_split (away : node x ∉ front.map node) :
    onward node (front ++ x :: rest) (some (node x)) = x :: rest := by
  induction front with
  | nil => simp [onward]
  | cons y front ih =>
    rw [List.map_cons, List.mem_cons, not_or] at away
    rw [onward, List.cons_append, List.dropWhile_cons_of_pos (by simpa using Ne.symm away.1)]
    exact ih away.2

theorem deref_split (away : node x ∉ front.map node) :
    deref node (front ++ x :: rest) (some (node x)) = some x := by
  rw [deref, onward_split away, List.head?_cons]

theorem advance_split (away : node x ∉ front.map node) :
    advance node (front ++ x :: rest) (some (node x)) = some (rest.head?.map node) := by
  rw [advance, onward_split away]

theorem deref_mem {xs : List α} {n : ℕ} (mem : n ∈ xs.map node) :
    ∃ x ∈ xs, node x = n ∧ deref node xs (some n) = some x := by
  induction xs with
  | nil => cases mem
  | cons y xs ih =>
    by_cases same : node y = n
    · refine ⟨y, List.mem_cons_self, same, ?_⟩
      rw [deref, onward, List.dropWhile_cons_of_neg (by simpa using same), List.head?_cons]
    · rw [List.map_cons, List.mem_cons] at mem
      obtain ⟨x, there, here, found⟩ := ih (mem.resolve_left (Ne.symm same))
      refine ⟨x, List.mem_cons_of_mem _ there, here, ?_⟩
      rw [deref, onward, List.dropWhile_cons_of_pos (by simpa using same)]
      exact found

end ListIterators
