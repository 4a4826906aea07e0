import DependencyResolution.Version.Set
import Mathlib.Order.PrimeSeparator

/-!
# The laws of version sets

A `VersionSet` gives operations; here are the laws that the solver relies on. They are the laws of a
Boolean algebra, that `contains` respects the operations, and that the set of one version has no
smaller part. They are asked of the proper sets only, those that the operations build: an
implementation may have values that none of its operations returns. Where it has none, all sets are
proper.

The second half represents proper sets by points. A point is a way to answer "is it in there?" for all
sets at once that respects the operations; every version is one. An implementation may have more points
than versions, as the open interval between two neighbouring whole numbers is not `empty`, and two
proper sets are equal iff they have the same points (`eq_of_points`). So an argument about version sets
is an argument about one point at a time.
-/

namespace DependencyResolution

class LawfulVersionSet (S : Type u) (V : outParam (Type v)) [VersionSet S V] where
  /-- The sets that the operations build. -/
  Proper : S → Prop
  proper_empty : Proper VersionSet.empty
  proper_full : Proper VersionSet.full
  proper_singleton : ∀ v : V, Proper (VersionSet.singleton v)
  proper_complement : ∀ {s : S}, Proper s → Proper (VersionSet.complement s)
  proper_intersection : ∀ {s t : S}, Proper s → Proper t → Proper (VersionSet.intersection s t)
  complement_complement : ∀ {s : S}, Proper s →
    VersionSet.complement (VersionSet.complement s) = s
  intersection_comm : ∀ {s t : S}, Proper s → Proper t →
    VersionSet.intersection s t = VersionSet.intersection t s
  intersection_assoc : ∀ {s t u : S}, Proper s → Proper t → Proper u →
    VersionSet.intersection (VersionSet.intersection s t) u =
      VersionSet.intersection s (VersionSet.intersection t u)
  intersection_full : ∀ {s : S}, Proper s → VersionSet.intersection s VersionSet.full = s
  intersection_complement : ∀ {s : S}, Proper s →
    VersionSet.intersection s (VersionSet.complement s) = VersionSet.empty
  intersection_union : ∀ {s t u : S}, Proper s → Proper t → Proper u →
    VersionSet.intersection s (VersionSet.union t u) =
      VersionSet.union (VersionSet.intersection s t) (VersionSet.intersection s u)
  contains_complement : ∀ {s : S} (v : V), Proper s →
    VersionSet.contains (VersionSet.complement s) v = !VersionSet.contains s v
  contains_intersection : ∀ {s t : S} (v : V), Proper s → Proper t →
    VersionSet.contains (VersionSet.intersection s t) v =
      (VersionSet.contains s v && VersionSet.contains t v)
  contains_singleton : ∀ v w : V,
    VersionSet.contains (VersionSet.singleton v : S) w = true ↔ w = v
  /-- A set that holds a version includes the set of that version. -/
  singleton_intersection : ∀ {s : S} {v : V}, Proper s → VersionSet.contains s v = true →
    VersionSet.intersection (VersionSet.singleton v) s = VersionSet.singleton v

namespace LawfulVersionSet

open VersionSet

variable {S : Type u} {V : Type v} [VersionSet S V] [LawfulVersionSet S V] {s t u : S}

theorem proper_union (hs : Proper s) (ht : Proper t) : Proper (union s t) :=
  proper_complement (proper_intersection (proper_complement hs) (proper_complement ht))

/-! ## The algebra of proper sets -/

theorem contains_union (v : V) (hs : Proper s) (ht : Proper t) :
    contains (union s t) v = (contains s v || contains t v) := by
  have hs' := proper_complement hs
  have ht' := proper_complement ht
  rw [union, contains_complement v (proper_intersection hs' ht'), contains_intersection v hs' ht',
    contains_complement v hs, contains_complement v ht, Bool.not_and, Bool.not_not, Bool.not_not]

theorem complement_full : complement (full : S) = empty := by
  have h := intersection_complement (proper_full (S := S))
  rw [intersection_comm proper_full (proper_complement proper_full),
    intersection_full (proper_complement proper_full)] at h
  exact h

theorem complement_empty : complement (empty : S) = full := by
  rw [← complement_full, complement_complement proper_full]

theorem union_empty (hs : Proper s) : union s empty = s := by
  rw [union, complement_empty, intersection_full (proper_complement hs), complement_complement hs]

theorem intersection_self (hs : Proper s) : intersection s s = s := by
  have h := intersection_union hs hs (proper_complement hs)
  rw [intersection_complement hs, union_empty (proper_intersection hs hs), union,
    complement_complement hs, intersection_comm (proper_complement hs) hs, intersection_complement hs,
    complement_empty, intersection_full hs] at h
  exact h.symm

theorem intersection_empty (hs : Proper s) : intersection s empty = empty := by
  rw [← intersection_complement hs, ← intersection_assoc hs hs (proper_complement hs),
    intersection_self hs]

theorem union_full (hs : Proper s) : union s full = full := by
  rw [union, complement_full, intersection_empty (proper_complement hs), complement_empty]

theorem complement_intersection (hs : Proper s) (ht : Proper t) :
    complement (intersection s t) = union (complement s) (complement t) := by
  rw [union, complement_complement hs, complement_complement ht]

theorem complement_union (hs : Proper s) (ht : Proper t) :
    complement (union s t) = intersection (complement s) (complement t) :=
  complement_complement (proper_intersection (proper_complement hs) (proper_complement ht))

theorem union_complement (hs : Proper s) : union s (complement s) = full := by
  rw [union, complement_complement hs, intersection_comm (proper_complement hs) hs,
    intersection_complement hs, complement_empty]

theorem union_comm (hs : Proper s) (ht : Proper t) : union s t = union t s := by
  rw [union, union, intersection_comm (proper_complement hs) (proper_complement ht)]

theorem union_assoc (hs : Proper s) (ht : Proper t) (hu : Proper u) :
    union (union s t) u = union s (union t u) := by
  have hs' := proper_complement hs
  have ht' := proper_complement ht
  have hu' := proper_complement hu
  unfold union
  rw [complement_complement (proper_intersection hs' ht'),
    complement_complement (proper_intersection ht' hu'), intersection_assoc hs' ht' hu']

theorem intersection_union_self (hs : Proper s) (ht : Proper t) : intersection s (union s t) = s := by
  calc intersection s (union s t)
      = union (intersection s full) (intersection s t) := by
        rw [intersection_union hs hs ht, intersection_self hs, intersection_full hs]
    _ = intersection s (union full t) := (intersection_union hs proper_full ht).symm
    _ = s := by
        rw [union_comm proper_full ht, union_full ht, intersection_full hs]

theorem union_intersection_self (hs : Proper s) (ht : Proper t) : union s (intersection s t) = s := by
  have h := intersection_union_self (proper_complement hs) (proper_complement ht)
  rw [← complement_intersection hs ht] at h
  rw [union, h, complement_complement hs]

theorem union_intersection (hs : Proper s) (ht : Proper t) (hu : Proper u) :
    union s (intersection t u) = intersection (union s t) (union s u) := by
  have h := intersection_union (proper_complement hs) (proper_complement ht) (proper_complement hu)
  rw [← complement_intersection ht hu, ← complement_union hs ht, ← complement_union hs hu,
    ← complement_intersection (proper_union hs ht) (proper_union hs hu)] at h
  rw [union, h, complement_complement (proper_intersection (proper_union hs ht) (proper_union hs hu))]

variable (S) in
abbrev ProperSet : Type u := {s : S // Proper s}

instance : Min (ProperSet S) := ⟨fun s t => ⟨intersection s t, proper_intersection s.2 t.2⟩⟩

instance : Max (ProperSet S) := ⟨fun s t => ⟨union s t, proper_union s.2 t.2⟩⟩

instance : Lattice (ProperSet S) :=
  Lattice.mk'
    (fun s t => Subtype.ext (union_comm s.2 t.2))
    (fun s t u => Subtype.ext (union_assoc s.2 t.2 u.2))
    (fun s t => Subtype.ext (intersection_comm s.2 t.2))
    (fun s t u => Subtype.ext (intersection_assoc s.2 t.2 u.2))
    (fun s t => Subtype.ext (union_intersection_self s.2 t.2))
    (fun s t => Subtype.ext (intersection_union_self s.2 t.2))

theorem le_iff_intersection {s t : ProperSet S} : s ≤ t ↔ intersection s.1 t.1 = s.1 := by
  rw [← inf_eq_left, Subtype.ext_iff]
  rfl

instance : BooleanAlgebra (ProperSet S) where
  le_sup_inf s t u := by
    have h : (s ⊔ t) ⊓ (s ⊔ u) = s ⊔ t ⊓ u :=
      Subtype.ext (union_intersection s.2 t.2 u.2).symm
    exact le_of_eq h
  compl s := ⟨complement s.1, proper_complement s.2⟩
  top := ⟨full, proper_full⟩
  bot := ⟨empty, proper_empty⟩
  inf_compl_le_bot s := le_of_eq (Subtype.ext (intersection_complement s.2))
  top_le_sup_compl s := le_of_eq (Subtype.ext (union_complement s.2).symm)
  le_top s := le_iff_intersection.mpr (intersection_full s.2)
  bot_le s := by
    refine le_iff_intersection.mpr ?_
    rw [intersection_comm proper_empty s.2]
    exact intersection_empty s.2

theorem intersection_eq_left_iff (hs : Proper s) (ht : Proper t) :
    intersection s t = s ↔ intersection s (complement t) = empty := by
  have h : (⟨s, hs⟩ : ProperSet S) ≤ ⟨t, ht⟩ ↔ (⟨s, hs⟩ : ProperSet S) ⊓ ⟨t, ht⟩ᶜ = ⊥ := by
    rw [← disjoint_iff, disjoint_compl_right_iff]
  rwa [le_iff_intersection, Subtype.ext_iff] at h

/-! ## Points -/

variable (S V) in
/-- A way to tell for every set whether one is in it that respects the operations. -/
structure Point where
  In : S → Prop
  in_complement : ∀ {s : S}, Proper s → (In (complement s) ↔ ¬ In s)
  in_intersection : ∀ {s t : S}, Proper s → Proper t → (In (intersection s t) ↔ In s ∧ In t)

namespace Point

def ofVersion (v : V) : Point S V where
  In s := contains s v = true
  in_complement hs := by simp [contains_complement v hs]
  in_intersection hs ht := by simp [contains_intersection v hs ht]

variable (x : Point S V)

theorem not_in_empty : ¬ x.In empty := by
  rw [← intersection_complement (proper_full (S := S)),
    x.in_intersection proper_full (proper_complement proper_full), x.in_complement proper_full]
  exact fun h => h.2 h.1

theorem in_union (hs : Proper s) (ht : Proper t) : x.In (union s t) ↔ x.In s ∨ x.In t := by
  have hs' := proper_complement hs
  have ht' := proper_complement ht
  rw [union, x.in_complement (proper_intersection hs' ht'), x.in_intersection hs' ht',
    x.in_complement hs, x.in_complement ht]
  tauto

theorem ofVersion_in_singleton (v : V) : (ofVersion v : Point S V).In (singleton v) :=
  (contains_singleton v v).mpr rfl

/-- The points of the set of one version are in the same sets as that version. -/
theorem in_iff_of_in_singleton {v : V} (hx : x.In (singleton v)) (hs : Proper s) :
    x.In s ↔ contains s v = true := by
  have hv : Proper (singleton v : S) := proper_singleton v
  constructor
  · intro h
    by_contra hc
    have hc' : contains (complement s) v = true := by
      rw [contains_complement v hs]
      simpa using hc
    rw [← singleton_intersection (proper_complement hs) hc',
      x.in_intersection hv (proper_complement hs), x.in_complement hs] at hx
    exact hx.2 h
  · intro h
    rw [← singleton_intersection hs h, x.in_intersection hv hs] at hx
    exact hx.2

end Point

/-- The sets that a prime ideal leaves out are the sets that a point is in. -/
noncomputable def pointOfIdeal (I : Order.Ideal (ProperSet S)) [hI : I.IsPrime] : Point S V where
  In s := ∃ hs : Proper s, (⟨s, hs⟩ : ProperSet S) ∉ I
  in_complement := by
    intro s hs
    have hc : (⟨complement s, proper_complement hs⟩ : ProperSet S) = (⟨s, hs⟩ : ProperSet S)ᶜ := rfl
    constructor
    · rintro ⟨_, h⟩ ⟨_, h'⟩
      rcases hI.mem_or_compl_mem (x := ⟨s, hs⟩) with hm | hm
      · exact h' hm
      · exact h hm
    · intro h
      refine ⟨proper_complement hs, fun hm => h ⟨hs, fun hm' => ?_⟩⟩
      have htop : (⟨s, hs⟩ : ProperSet S) ⊔ ⟨complement s, proper_complement hs⟩ ∈ I :=
        Order.Ideal.sup_mem hm' hm
      rw [hc, sup_compl_eq_top] at htop
      exact hI.toIsProper.top_notMem htop
  in_intersection := by
    intro s t hs ht
    constructor
    · rintro ⟨_, h⟩
      exact ⟨⟨hs, fun hm => h (I.lower (inf_le_left : (⟨s, hs⟩ ⊓ ⟨t, ht⟩ : ProperSet S) ≤ _) hm)⟩,
        ⟨ht, fun hm => h (I.lower (inf_le_right : (⟨s, hs⟩ ⊓ ⟨t, ht⟩ : ProperSet S) ≤ _) hm)⟩⟩
    · rintro ⟨⟨_, h⟩, ⟨_, h'⟩⟩
      refine ⟨proper_intersection hs ht, fun hm => ?_⟩
      rcases hI.mem_or_mem (x := ⟨s, hs⟩) (y := ⟨t, ht⟩) hm with hm | hm
      · exact h hm
      · exact h' hm

theorem eq_empty_of_points (hs : Proper s) (h : ∀ x : Point S V, ¬ x.In s) : s = empty := by
  by_contra hne
  have hdisjoint : Disjoint ((Order.PFilter.principal (⟨s, hs⟩ : ProperSet S) : Set (ProperSet S)))
      (Order.Ideal.principal (⊥ : ProperSet S) : Set (ProperSet S)) := by
    rw [Set.disjoint_left]
    intro t ht ht'
    have hle : (⟨s, hs⟩ : ProperSet S) ≤ ⊥ :=
      le_trans (Order.PFilter.mem_principal.mp ht) (Order.Ideal.mem_principal.mp ht')
    exact hne (congrArg Subtype.val (le_bot_iff.mp hle))
  obtain ⟨I, hI, _, hd⟩ := DistribLattice.prime_ideal_of_disjoint_filter_ideal hdisjoint
  have hmem : (⟨s, hs⟩ : ProperSet S) ∉ I :=
    Set.disjoint_left.mp hd (Order.PFilter.mem_principal.mpr le_rfl)
  exact h (pointOfIdeal I) ⟨hs, hmem⟩

theorem eq_of_points (hs : Proper s) (ht : Proper t) (h : ∀ x : Point S V, x.In s ↔ x.In t) :
    s = t := by
  have hle : ∀ {a b : S}, Proper a → Proper b → (∀ x : Point S V, x.In a → x.In b) →
      intersection a (complement b) = empty := by
    intro a b ha hb hab
    refine eq_empty_of_points (proper_intersection ha (proper_complement hb)) fun x hx => ?_
    rw [x.in_intersection ha (proper_complement hb), x.in_complement hb] at hx
    exact hx.2 (hab x hx.1)
  have hst : (⟨s, hs⟩ : ProperSet S) ≤ ⟨t, ht⟩ :=
    disjoint_compl_right_iff.mp
      (disjoint_iff.mpr (Subtype.ext (hle hs ht fun x => (h x).mp)))
  have hts : (⟨t, ht⟩ : ProperSet S) ≤ ⟨s, hs⟩ :=
    disjoint_compl_right_iff.mp
      (disjoint_iff.mpr (Subtype.ext (hle ht hs fun x => (h x).mpr)))
  exact congrArg Subtype.val (le_antisymm hst hts)

/-! ## The union of several sets -/

def unions (sets : List S) : S := sets.foldr union empty

theorem proper_unions {sets : List S} (h : ∀ s ∈ sets, Proper s) : Proper (unions sets) := by
  induction sets with
  | nil => exact proper_empty
  | cons s rest ih =>
    rw [List.forall_mem_cons] at h
    exact proper_union h.1 (ih h.2)

theorem Point.in_unions (x : Point S V) {sets : List S} (h : ∀ s ∈ sets, Proper s) :
    x.In (unions sets) ↔ ∃ s ∈ sets, x.In s := by
  induction sets with
  | nil => simpa [unions] using x.not_in_empty
  | cons s rest ih =>
    rw [List.forall_mem_cons] at h
    change x.In (union s (unions rest)) ↔ _
    rw [x.in_union h.1 (proper_unions h.2), ih h.2, List.exists_mem_cons_iff]

end LawfulVersionSet

end DependencyResolution
