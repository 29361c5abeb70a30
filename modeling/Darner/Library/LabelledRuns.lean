import Mathlib.Data.List.Basic

/-! Finite runs of a labelled transition relation, and tables of components of
which each step touches one. A table is read through a partial view: the list of
those components that are in use. -/

namespace LabelledRuns

variable {σ ε : Type}

inductive Runs (step : σ → ε → σ → Prop) : σ → List ε → σ → Prop where
  | nil (s : σ) : Runs step s [] s
  | cons {s t u : σ} {e : ε} {es : List ε} (first : step s e t) (rest : Runs step t es u) :
      Runs step s (e :: es) u

namespace Runs

variable {step : σ → ε → σ → Prop}

theorem single {s t : σ} {e : ε} (h : step s e t) : Runs step s [e] t :=
  .cons h (.nil t)

theorem append {s t u : σ} {es fs : List ε} (first : Runs step s es t)
    (second : Runs step t fs u) : Runs step s (es ++ fs) u := by
  induction first with
  | nil => exact second
  | cons h _ ih => exact .cons h (ih second)

theorem split {s u : σ} {es fs : List ε} (run : Runs step s (es ++ fs) u) :
    ∃ t, Runs step s es t ∧ Runs step t fs u := by
  induction es generalizing s with
  | nil => exact ⟨s, .nil s, run⟩
  | cons e es ih =>
    obtain - | ⟨first, rest⟩ := run
    obtain ⟨t, before, after⟩ := ih rest
    exact ⟨t, .cons first before, after⟩

/-- The invariant rule, over labels that all satisfy `allowed`. -/
theorem preserves {P : σ → Prop} {allowed : ε → Prop} {s t : σ} {es : List ε}
    (keep : ∀ s e t, allowed e → P s → step s e t → P t)
    (run : Runs step s es t) (labels : ∀ e ∈ es, allowed e) (start : P s) : P t := by
  induction run with
  | nil => exact start
  | cons first _ ih =>
    have next := keep _ _ _ (labels _ List.mem_cons_self) start first
    exact ih (fun e he => labels e (List.mem_cons_of_mem _ he)) next

/-- The invariant rule with a history: what the steps so far have recorded. -/
theorem preserves_history {α : Type} {P : List α → σ → Prop} {record : ε → List α}
    {allowed : ε → Prop} {s t : σ} {es : List ε}
    (keep : ∀ past s e t, allowed e → P past s → step s e t → P (past ++ record e) t)
    (run : Runs step s es t) (past : List α) (labels : ∀ e ∈ es, allowed e) (start : P past s) :
    P (past ++ es.flatMap record) t := by
  induction run generalizing past with
  | nil => simpa using start
  | cons first _ ih =>
    have next := keep past _ _ _ (labels _ List.mem_cons_self) start first
    have last := ih _ (fun e he => labels e (List.mem_cons_of_mem _ he)) next
    simpa [List.append_assoc] using last

/-- What every step keeps or ends holds at the end of a run, or was ended by one of its steps. -/
theorem until_ended {P : σ → Prop} (ends : σ → ε → σ → Prop)
    (keep : ∀ s e t, P s → step s e t → P t ∨ ends s e t) {s t : σ} {es : List ε}
    (run : Runs step s es t) (start : P s) :
    P t ∨ ∃ front e back u v, es = front ++ e :: back ∧ Runs step s front u ∧ step u e v ∧
      P u ∧ ends u e v ∧ Runs step v back t := by
  induction run with
  | nil s => exact .inl start
  | @cons s t u e es first rest ih =>
    rcases keep s e t start first with next | last
    · rcases ih next with stays | ⟨front, e', back, v, w, rfl, before, step', held, last, after⟩
      · exact .inl stays
      · exact .inr ⟨e :: front, e', back, v, w, rfl, .cons first before, step', held, last, after⟩
    · exact .inr ⟨[], e, es, s, t, rfl, .nil s, first, start, last, rest⟩

end Runs

def Guarded (guard : σ → ε → Prop) (step : σ → ε → σ → Prop) (s : σ) (e : ε) (t : σ) : Prop :=
  guard s e ∧ step s e t

section Levels

variable {step : σ → ε → σ → Prop} {P : σ → Prop} {level : σ → Int} {raises : σ → ε → Bool}

theorem Runs.level_eq
    (keep : ∀ s e t, P s → step s e t → P t ∧ level t = level s + if raises s e then 1 else 0)
    {s t : σ} {es : List ε} (start : P s)
    (run : Runs (Guarded (raises · · = false) step) s es t) : level t = level s := by
  induction run with
  | nil => rfl
  | cons first _ ih =>
    obtain ⟨next, moved⟩ := keep _ _ _ start first.2
    rw [first.1, if_neg Bool.false_ne_true, Int.add_zero] at moved
    exact (ih next).trans moved

theorem Runs.level_eq_iff
    (keep : ∀ s e t, P s → step s e t → P t ∧ level t = level s + if raises s e then 1 else 0)
    {s t : σ} {es : List ε} (start : P s) (run : Runs step s es t) :
    level t = level s ↔ Runs (Guarded (raises · · = false) step) s es t := by
  have up : level s ≤ level t ∧
      (level t = level s → Runs (Guarded (raises · · = false) step) s es t) := by
    induction run with
    | nil => exact ⟨Int.le_refl _, fun _ => .nil _⟩
    | @cons s t u e es first rest ih =>
      obtain ⟨next, moved⟩ := keep s e t start first
      obtain ⟨up, still⟩ := ih next
      cases raised : raises s e with
      | true =>
        rw [raised, if_pos rfl] at moved
        exact ⟨by omega, fun same => by omega⟩
      | false =>
        rw [raised, if_neg Bool.false_ne_true, Int.add_zero] at moved
        exact ⟨by omega, fun same => .cons ⟨raised, first⟩ (still (by omega))⟩
  exact ⟨up.2, Runs.level_eq keep start⟩

end Levels

def Reachable (step : σ → ε → σ → Prop) (start s : σ) : Prop :=
  ∃ es, Runs step start es s

namespace Reachable

variable {step : σ → ε → σ → Prop} {start : σ}

theorem refl : Reachable step start start := ⟨[], .nil start⟩

theorem next {s t : σ} {e : ε} (h : Reachable step start s) (last : step s e t) :
    Reachable step start t := by
  obtain ⟨es, run⟩ := h
  exact ⟨es ++ [e], run.append (.single last)⟩

theorem runs {s t : σ} {es : List ε} (h : Reachable step start s) (run : Runs step s es t) :
    Reachable step start t := by
  obtain ⟨fs, first⟩ := h
  exact ⟨fs ++ es, first.append run⟩

theorem invariant {P : σ → Prop} (init : P start)
    (keep : ∀ s e t, P s → step s e t → P t) {s : σ} (h : Reachable step start s) : P s := by
  obtain ⟨es, run⟩ := h
  exact run.preserves (fun s e t _ => keep s e t) (fun _ _ => trivial) init

end Reachable

/-- The refinement rule: when a second system can show what every step of the first one
shows, it can show what a run shows. It may do more, of kind `δ`, than it shows. -/
theorem Runs.refined {τ δ : Type} {step : σ → ε → σ → Prop} {step' : τ → ε × δ → τ → Prop}
    {P : σ → Prop} {R : σ → τ → Prop} (keep : ∀ s e t, P s → step s e t → P t)
    (shows : ∀ s e t u, P s → R s u → step s e t → ∃ d v, step' u (e, d) v ∧ R t v)
    {s t : σ} {es : List ε} {u : τ} (start : P s) (related : R s u) (run : Runs step s es t) :
    ∃ (ds : List (ε × δ)) (v : τ), ds.map Prod.fst = es ∧ Runs step' u ds v ∧ R t v := by
  induction run generalizing u with
  | nil s => exact ⟨[], u, rfl, .nil u, related⟩
  | @cons s t _ e es first _ ih =>
    obtain ⟨d, v, shown, next⟩ := shows s e t u start related first
    obtain ⟨ds, w, same, rest, last⟩ := ih (keep s e t start first) next
    exact ⟨(e, d) :: ds, w, by rw [List.map_cons, same], .cons shown rest, last⟩

section Fallible

variable {φ α β : Type} {x : Except φ α} {f : α → Except φ β}

theorem bind_ok {b : β} (h : x >>= f = .ok b) : ∃ a, x = .ok a ∧ f a = .ok b := by
  cases x with
  | error e => cases h
  | ok a => exact ⟨a, rfl, h⟩

theorem bind_error {e : φ} (h : x >>= f = .error e) :
    x = .error e ∨ ∃ a, x = .ok a ∧ f a = .error e := by
  cases x with
  | error e' => exact .inl (congrArg _ (Except.error.inj h))
  | ok a => exact .inr ⟨a, rfl, h⟩

end Fallible

section Machines

variable {τ α ρ : Type}

def finalState (exec : σ → α → σ × ρ) (s : σ) (inputs : List α) : σ :=
  inputs.foldl (fun s a => (exec s a).1) s

def replies (exec : σ → α → σ × ρ) : σ → List α → List ρ
  | _, [] => []
  | s, a :: inputs => (exec s a).2 :: replies exec (exec s a).1 inputs

/-- The simulation rule: related states that answer alike and stay related give
the same replies on every sequence of inputs. -/
theorem simulates {exec : σ → α → σ × ρ} {exec' : τ → α → τ × ρ} {R : σ → τ → Prop}
    (step : ∀ s t a, R s t → (exec s a).2 = (exec' t a).2 ∧ R (exec s a).1 (exec' t a).1)
    {s : σ} {t : τ} (start : R s t) (inputs : List α) :
    replies exec s inputs = replies exec' t inputs ∧
      R (finalState exec s inputs) (finalState exec' t inputs) := by
  induction inputs generalizing s t with
  | nil => exact ⟨rfl, start⟩
  | cons a inputs ih =>
    obtain ⟨same, next⟩ := step s t a start
    obtain ⟨rest, last⟩ := ih next
    exact ⟨by rw [replies, replies, same, rest], last⟩

end Machines

theorem view_middle {α β : Type} (view : α → Option β) (front back : List α) (row : α) :
    ((front ++ row :: back).filterMap view).Perm
      ((view row).toList ++ (front.filterMap view ++ back.filterMap view)) := by
  cases hv : view row with
  | none => simp [hv]
  | some seen =>
    simp only [List.filterMap_append, List.filterMap_cons, hv, Option.toList_some,
      List.singleton_append]
    exact List.perm_middle

theorem view_set {α β : Type} (view : α → Option β) {table : List α} {i : ℕ} {row : α}
    (h : table[i]? = some row) :
    ∃ rest, (table.filterMap view).Perm ((view row).toList ++ rest) ∧
      ∀ row', ((table.set i row').filterMap view).Perm ((view row').toList ++ rest) := by
  obtain ⟨hi, rfl⟩ := List.getElem?_eq_some_iff.mp h
  refine ⟨(table.take i).filterMap view ++ (table.drop (i + 1)).filterMap view, ?_, ?_⟩
  · have middle := view_middle view (table.take i) (table.drop (i + 1)) table[i]
    rwa [List.getElem_cons_drop, List.take_append_drop] at middle
  · intro row'
    rw [List.set_eq_take_append_cons_drop, if_pos hi]
    exact view_middle view _ _ row'

theorem view_set_same {α β : Type} (view : α → Option β) {table : List α} {i : ℕ} {row row' : α}
    (h : table[i]? = some row) (same : view row' = view row) :
    (table.set i row').filterMap view = table.filterMap view := by
  obtain ⟨hi, rfl⟩ := List.getElem?_eq_some_iff.mp h
  have split := List.take_append_drop i table
  conv_rhs => rw [← split, ← List.getElem_cons_drop hi]
  rw [List.set_eq_take_append_cons_drop, if_pos hi, List.filterMap_append, List.filterMap_append,
    List.filterMap_cons, List.filterMap_cons, same]

end LabelledRuns
