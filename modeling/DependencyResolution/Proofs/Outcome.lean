import Mathlib.Data.List.Basic

/-!
# Results that may be errors

A computation that goes on only with what succeeded has a result exactly when each part has one.
-/

namespace DependencyResolution

variable {ε α β : Type}

theorem bind_eq_ok_iff {x : Except ε α} {f : α → Except ε β} {b : β} :
    x >>= f = .ok b ↔ ∃ a, x = .ok a ∧ f a = .ok b := by
  cases x with
  | error e => simp [bind, Except.bind]
  | ok a => simp [bind, Except.bind]

theorem map_eq_ok_iff {x : Except ε α} {f : α → β} {b : β} : x.map f = .ok b ↔ ∃ a, x = .ok a ∧ f a = b := by
  cases x with
  | error e => simp [Except.map]
  | ok a => simp [Except.map]

theorem mapError_eq_ok_iff {ε' : Type} {x : Except ε α} {f : ε → ε'} {a : α} : x.mapError f = .ok a ↔ x = .ok a := by
  cases x with
  | error e => simp [Except.mapError]
  | ok a => simp [Except.mapError]

/-- What each step keeps, a run that succeeds keeps. -/
theorem foldlM_keeps {step : β → α → Except ε β} (Keeps : List α → β → Prop)
    (hstep : ∀ done b a b', Keeps done b → step b a = .ok b' → Keeps (done ++ [a]) b')
    (done todo : List α) {b b' : β} (hb : Keeps done b) (h : todo.foldlM step b = .ok b') :
    Keeps (done ++ todo) b' := by
  induction todo generalizing done b with
  | nil =>
    obtain rfl := Except.ok.inj h
    rwa [List.append_nil]
  | cons a todo ih =>
    rw [List.foldlM_cons, bind_eq_ok_iff] at h
    obtain ⟨next, ha, hrest⟩ := h
    rw [← List.singleton_append, ← List.append_assoc]
    exact ih (done ++ [a]) (hstep done b a next hb ha) hrest

end DependencyResolution
