import DependencyResolution.Proofs.OrderedMap
import DependencyResolution.Solver.Store

/-!
# The store

Storing an incompatibility changes nothing that was stored (`get?_alloc`). What is stored can be
registered and dropped (`register_eq_ok`, `unregister_eq_ok`), which changes nothing but the lists of the
packages that it mentions (`idsFor_registered`, `idsFor_unregistered`).

An index is tidy if it lists each number once under every package that is mentioned, or else nowhere. It
stays so as long as only numbers that are listed nowhere are registered (`Tidy.register`).
-/

namespace DependencyResolution

namespace Store

variable {P V S M : Type} {s : Store P V S M} {i : Incompatibility P V S M} {id n : Nat} {p : P}

/-! ## Numbers -/

theorem lt_size (h : s.get? n = some i) : n < s.size :=
  (Array.getElem?_eq_some_iff.mp h).1

theorem get?_alloc (s : Store P V S M) (i : Incompatibility P V S M) (n : Nat) :
    (s.alloc i).1.get? n = if n = s.size then some i else s.get? n := by
  simp only [alloc, get?, Array.getElem?_push]
  rfl

theorem get?_alloc_self (s : Store P V S M) (i : Incompatibility P V S M) :
    (s.alloc i).1.get? s.size = some i := by
  rw [get?_alloc, if_pos rfl]

theorem get?_alloc_of_some (i : Incompatibility P V S M) {j : Incompatibility P V S M}
    (h : s.get? n = some j) : (s.alloc i).1.get? n = some j := by
  rw [get?_alloc, if_neg (Nat.ne_of_lt (lt_size h)), h]

theorem get?_alloc_of_lt (i : Incompatibility P V S M) (hn : n < s.size) :
    (s.alloc i).1.get? n = s.get? n := by
  rw [get?_alloc, if_neg (Nat.ne_of_lt hn)]

theorem get_eq_ok_iff : s.get n = .ok i ↔ s.get? n = some i := by
  unfold get
  cases s.get? n <;> simp

theorem get_eq_ok (h : s.get? n = some i) : s.get n = .ok i := get_eq_ok_iff.mpr h

@[simp] theorem size_alloc (s : Store P V S M) (i : Incompatibility P V S M) :
    (s.alloc i).1.size = s.size + 1 := by
  simp [alloc, size]

def packagesOf (s : Store P V S M) (id : Nat) : List P :=
  match s.get? id with
  | some i => i.terms.keys
  | none => []

theorem packagesOf_eq (h : s.get? id = some i) : s.packagesOf id = i.terms.keys := by
  rw [packagesOf, h]

theorem nodup_packagesOf (s : Store P V S M) (id : Nat) : (s.packagesOf id).Nodup := by
  unfold packagesOf
  split
  · exact Incompatibility.terms _ |>.nodup
  · exact List.nodup_nil

theorem packagesOf_alloc (i : Incompatibility P V S M) (hn : n ≠ s.size) :
    (s.alloc i).1.packagesOf n = s.packagesOf n := by
  unfold packagesOf
  rw [get?_alloc, if_neg hn]

variable [DecidableEq P]

/-! ## Registering -/

def registered (s : Store P V S M) (id : Nat) : Store P V S M := s.enlist id (s.packagesOf id)

def unregistered (s : Store P V S M) (id : Nat) : Store P V S M := s.delist id (s.packagesOf id)

theorem register_eq_ok (h : s.get? id = some i) : s.register id = .ok (s.registered id) := by
  rw [register, get_eq_ok h, registered, packagesOf_eq h]
  rfl

theorem unregister_eq_ok (h : s.get? id = some i) : s.unregister id = .ok (s.unregistered id) := by
  rw [unregister, get_eq_ok h, unregistered, packagesOf_eq h]
  rfl

theorem register_eq_ok_iff {s' : Store P V S M} :
    s.register id = .ok s' ↔ (∃ i, s.get? id = some i) ∧ s' = s.registered id := by
  cases h : s.get? id with
  | none => simp [register, get, h, bind, Except.bind]
  | some i => simp [register_eq_ok h, eq_comm]

@[simp] theorem get?_registered (s : Store P V S M) (id n : Nat) : (s.registered id).get? n = s.get? n := rfl

@[simp] theorem get?_unregistered (s : Store P V S M) (id n : Nat) :
    (s.unregistered id).get? n = s.get? n := rfl

@[simp] theorem size_unregistered (s : Store P V S M) (id : Nat) : (s.unregistered id).size = s.size := rfl

/-! ## The index -/

theorem mem_packagesOf_iff :
    p ∈ s.packagesOf id ↔ ∃ i u, s.get? id = some i ∧ i.get? p = some u := by
  unfold packagesOf
  cases h : s.get? id with
  | none => simp
  | some i => simpa [Incompatibility.get?] using i.terms.mem_keys_iff

@[simp] theorem idsFor_alloc (s : Store P V S M) (i : Incompatibility P V S M) (p : P) :
    (s.alloc i).1.idsFor p = s.idsFor p := rfl

theorem get?_foldl_addToIndex (id : Nat) (ps : List P) (hn : ps.Nodup)
    (index : OrderedMap P (List Nat)) (p : P) :
    ((ps.foldl (addToIndex id) index).get? p).getD [] =
      (index.get? p).getD [] ++ if p ∈ ps then [id] else [] := by
  induction ps generalizing index with
  | nil => simp
  | cons q rest ih =>
    rw [List.nodup_cons] at hn
    rw [List.foldl_cons, ih hn.2, addToIndex, OrderedMap.get?_insert]
    by_cases hq : q = p
    · subst hq
      simp [hn.1]
    · simp [hq, Ne.symm hq]

theorem get?_foldl_removeFromIndex (id : Nat) (ps : List P) (hn : ps.Nodup)
    (index : OrderedMap P (List Nat)) (p : P) :
    ((ps.foldl (removeFromIndex id) index).get? p).getD [] =
      if p ∈ ps then ((index.get? p).getD []).erase id else (index.get? p).getD [] := by
  have hone : ∀ (index : OrderedMap P (List Nat)) (q : P),
      ((removeFromIndex id index q).get? p).getD [] =
        if q = p then ((index.get? p).getD []).erase id else (index.get? p).getD [] := by
    intro index q
    unfold removeFromIndex
    cases h : index.get? q with
    | none =>
      split_ifs with hq
      · subst hq
        simp [h]
      · rfl
    | some ids =>
      dsimp only
      rw [OrderedMap.get?_insert]
      split_ifs with hq
      · subst hq
        simp [h]
      · rfl
  induction ps generalizing index with
  | nil => simp
  | cons q rest ih =>
    rw [List.nodup_cons] at hn
    rw [List.foldl_cons, ih hn.2, hone]
    by_cases hq : q = p
    · subst hq
      simp [hn.1]
    · simp [hq, Ne.symm hq]

/-- Registering adds a number to the lists of the packages that the incompatibility mentions. -/
theorem idsFor_registered (s : Store P V S M) (id : Nat) (p : P) :
    (s.registered id).idsFor p = s.idsFor p ++ if p ∈ s.packagesOf id then [id] else [] :=
  get?_foldl_addToIndex id _ (s.nodup_packagesOf id) s.index p

theorem mem_idsFor_registered :
    n ∈ (s.registered id).idsFor p ↔ n ∈ s.idsFor p ∨
      n = id ∧ ∃ i u, s.get? id = some i ∧ i.get? p = some u := by
  rw [idsFor_registered, List.mem_append, ← mem_packagesOf_iff]
  split_ifs with hp <;> simp [hp]

theorem idsFor_unregistered (s : Store P V S M) (id : Nat) (p : P) :
    (s.unregistered id).idsFor p =
      if p ∈ s.packagesOf id then (s.idsFor p).erase id else s.idsFor p :=
  get?_foldl_removeFromIndex id _ (s.nodup_packagesOf id) s.index p

theorem mem_idsFor_of_mem_unregistered (h : n ∈ (s.unregistered id).idsFor p) : n ∈ s.idsFor p := by
  rw [idsFor_unregistered] at h
  split_ifs at h
  · exact List.mem_of_mem_erase h
  · exact h

theorem mem_unregistered_of_ne (h : n ∈ s.idsFor p) (hne : n ≠ id) : n ∈ (s.unregistered id).idsFor p := by
  rw [idsFor_unregistered]
  split_ifs
  · exact (List.mem_erase_of_ne hne).mpr h
  · exact h

/-! ## A tidy index -/

def Omits (s : Store P V S M) (n : Nat) : Prop := ∀ p, n ∉ s.idsFor p

/-- The number is listed once under every package that the incompatibility mentions, and nowhere else. -/
def Lists (s : Store P V S M) (n : Nat) : Prop :=
  ∀ p, (s.idsFor p).count n = if p ∈ s.packagesOf n then 1 else 0

/-- What is listed at all is listed once under every package that it mentions. -/
def Tidy (s : Store P V S M) : Prop := ∀ n, s.Lists n ∨ s.Omits n

theorem count_idsFor_registered (s : Store P V S M) (id n : Nat) (p : P) :
    ((s.registered id).idsFor p).count n =
      (s.idsFor p).count n + if id = n ∧ p ∈ s.packagesOf id then 1 else 0 := by
  rw [idsFor_registered, List.count_append]
  by_cases hp : p ∈ s.packagesOf id <;> simp [hp, List.count_singleton]

theorem count_idsFor_unregistered (s : Store P V S M) (id n : Nat) (p : P) :
    ((s.unregistered id).idsFor p).count n =
      (s.idsFor p).count n - if id = n ∧ p ∈ s.packagesOf id then 1 else 0 := by
  rw [idsFor_unregistered]
  by_cases hp : p ∈ s.packagesOf id <;> simp [hp, List.count_erase]

theorem Omits.count (h : s.Omits n) (p : P) : (s.idsFor p).count n = 0 :=
  List.count_eq_zero_of_not_mem (h p)

theorem Omits.alloc (h : s.Omits n) (i : Incompatibility P V S M) : (s.alloc i).1.Omits n := h

theorem Omits.unregister (h : s.Omits n) (id : Nat) : (s.unregistered id).Omits n :=
  fun p hn => h p (mem_idsFor_of_mem_unregistered hn)

theorem Lists.count_eq_one (h : s.Lists n) (hi : s.get? n = some i) {u : Term S}
    (hu : i.get? p = some u) : (s.idsFor p).count n = 1 := by
  rw [h p, if_pos (mem_packagesOf_iff.mpr ⟨i, u, hi, hu⟩)]

theorem Omits.lists_registered (h : s.Omits n) : (s.registered n).Lists n := by
  intro p
  rw [count_idsFor_registered, h.count, Nat.zero_add]
  simp only [true_and]
  rfl

namespace Tidy

theorem empty : (Store.empty : Store P V S M).Tidy := fun _ => Or.inr fun _ => List.not_mem_nil

theorem lists (h : s.Tidy) (hn : n ∈ s.idsFor p) : s.Lists n :=
  (h n).resolve_right fun homits => homits p hn

theorem mem_idsFor {q : P} (h : s.Tidy) (hn : n ∈ s.idsFor q) (hi : s.get? n = some i) {u : Term S}
    (hu : i.get? p = some u) : n ∈ s.idsFor p := by
  rw [← List.count_pos_iff, (h.lists hn).count_eq_one hi hu]
  exact Nat.one_pos

theorem omits (h : s.Tidy) (hn : s.size ≤ n) : s.Omits n := by
  have hnone : s.packagesOf n = [] := by
    cases hget : s.get? n with
    | none => rw [packagesOf, hget]
    | some i => exact absurd (lt_size hget) (by omega)
  refine (h n).elim (fun hlists p => ?_) id
  rw [← List.count_eq_zero, hlists p, hnone]
  rfl

theorem alloc (h : s.Tidy) (i : Incompatibility P V S M) : (s.alloc i).1.Tidy := by
  intro n
  by_cases hn : n = s.size
  · exact Or.inr ((h.omits (Nat.le_of_eq hn.symm)).alloc i)
  · refine (h n).imp (fun hlists p => ?_) fun homits => homits.alloc i
    rw [packagesOf_alloc i hn]
    exact hlists p

theorem register (h : s.Tidy) (hid : s.Omits id) : (s.registered id).Tidy := by
  intro n
  by_cases hn : id = n
  · subst hn
    exact Or.inl hid.lists_registered
  · refine (h n).imp (fun hlists p => ?_) fun homits p => ?_
    · rw [count_idsFor_registered, if_neg fun hc => hn hc.1]
      exact hlists p
    · rw [← List.count_eq_zero, count_idsFor_registered, if_neg fun hc => hn hc.1]
      exact homits.count p

theorem unregister (h : s.Tidy) (id : Nat) : (s.unregistered id).Tidy := by
  intro n
  rcases h n with hlists | homits
  · by_cases hn : id = n
    · subst hn
      refine Or.inr fun p => ?_
      rw [← List.count_eq_zero, count_idsFor_unregistered, hlists p]
      simp only [true_and, Nat.sub_self]
    · refine Or.inl fun p => ?_
      rw [count_idsFor_unregistered, if_neg fun hc => hn hc.1]
      exact hlists p
  · exact Or.inr (homits.unregister id)

theorem add (h : s.Tidy) (i : Incompatibility P V S M) : ((s.alloc i).1.registered s.size).Tidy :=
  (h.alloc i).register ((h.omits (Nat.le_refl s.size)).alloc i)

end Tidy

end Store

end DependencyResolution
