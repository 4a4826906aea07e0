import DependencyResolution.Proofs.Solver.Vocabulary

/-!
# The potential of a trail

An assignment weighs the more the lower its level is, so much so that one more assignment at a level
outweighs all that may have been made above it. So the potential of a trail grows when something is
derived or decided, and also when the solver goes back and derives something there; and as trails are
no longer than a bound it does not grow for ever.
-/

namespace DependencyResolution

variable {P V S : Type} {t : List (Assignment P V S)} {B l : Nat}

/-- The weight of an assignment at a level, when trails are no longer than `B`. -/
def weight (B level : Nat) : Nat := (B + 1) ^ (B - level)

def potential (B : Nat) (t : List (Assignment P V S)) : Nat := (t.map fun a => weight B a.level).sum

theorem weight_pos (B level : Nat) : 0 < weight B level := Nat.pow_pos B.succ_pos

theorem weight_le (B level : Nat) : weight B level ≤ (B + 1) ^ B :=
  Nat.pow_le_pow_right B.succ_pos (Nat.sub_le _ _)

theorem potential_append (t : List (Assignment P V S)) (a : Assignment P V S) :
    potential B (t ++ [a]) = potential B t + weight B a.level := by
  simp [potential]

theorem potential_le (h : t.length ≤ B) : potential B t ≤ B * (B + 1) ^ B := by
  have hle : ∀ t : List (Assignment P V S), potential B t ≤ t.length * (B + 1) ^ B := by
    intro t
    induction t with
    | nil => simp [potential]
    | cons a rest ih =>
      simp only [potential, List.map_cons, List.sum_cons, List.length_cons] at ih ⊢
      have hweight := weight_le B a.level
      rw [Nat.succ_mul]
      omega
  exact (hle t).trans (Nat.mul_le_mul_right _ h)

/-- What lies above a level weighs less than one more assignment at the level. -/
theorem potential_lt_upTo (h : t.length ≤ B) (hl : l < B) :
    potential B t < potential B (upTo l t) + weight B l := by
  have habove : ∀ t : List (Assignment P V S),
      potential B t ≤ potential B (upTo l t) + t.length * (B + 1) ^ (B - (l + 1)) := by
    intro t
    induction t with
    | nil => simp [potential]
    | cons a rest ih =>
      by_cases ha : a.level ≤ l
      · have hup : upTo l (a :: rest) = a :: upTo l rest := List.filter_cons_of_pos (by simpa using ha)
        rw [hup]
        simp only [potential, List.map_cons, List.sum_cons, List.length_cons] at ih ⊢
        have hmul := Nat.mul_le_mul_right ((B + 1) ^ (B - (l + 1))) (Nat.le_add_right rest.length 1)
        omega
      · have hup : upTo l (a :: rest) = upTo l rest := List.filter_cons_of_neg (by simpa using ha)
        rw [hup]
        simp only [potential, List.map_cons, List.sum_cons, List.length_cons] at ih ⊢
        have hweight : weight B a.level ≤ (B + 1) ^ (B - (l + 1)) :=
          Nat.pow_le_pow_right B.succ_pos (by omega)
        rw [Nat.succ_mul]
        omega
  have hone : weight B l = (B + 1) * (B + 1) ^ (B - (l + 1)) := by
    rw [weight, ← Nat.pow_succ']
    congr 1
    omega
  calc potential B t
      ≤ potential B (upTo l t) + t.length * (B + 1) ^ (B - (l + 1)) := habove t
    _ ≤ potential B (upTo l t) + B * (B + 1) ^ (B - (l + 1)) :=
        Nat.add_le_add_left (Nat.mul_le_mul_right _ h) _
    _ < potential B (upTo l t) + weight B l := by
        rw [hone, Nat.succ_mul]
        have hpos : 0 < (B + 1) ^ (B - (l + 1)) := Nat.pow_pos B.succ_pos
        omega

end DependencyResolution
