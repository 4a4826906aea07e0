import DependencyResolution.Proofs.Solver.Fact
import DependencyResolution.Proofs.Solver.Store

/-!
# The index and the facts

The numbers that were registered and not dropped since make up the index: the list of a package has those
of them that mention it, in the same order (`Store.Filed.idsFor_eq`).

An index that keeps up with the facts that are added says what they say (`Indexed.holdsIn_iff`). A fact that
is no dependency of one package on another is registered as it is. Of the dependencies of a package on another
that allow the same one is registered, for the versions of all. So a new dependency either is registered, if
none was that allows the same, or takes the place of the one that was, joined with it (`Indexed.add`,
`Indexed.join`). What is learned says nothing new, and is registered beside the facts (`Indexed.learn`).
-/

namespace DependencyResolution

open Incompatibility LawfulVersionSet

variable {P V S M : Type} [DecidableEq P]

/-! ## What is registered -/

namespace Store

variable {s : Store P V S M} {live : List Nat} {n : Nat}

/-- The store was built by storing, registering and dropping incompatibilities. The numbers are those that
were registered and not dropped since, oldest first. -/
inductive Filed : Store P V S M → List Nat → Prop
  | empty : Filed .empty []
  | alloc {s : Store P V S M} {live : List Nat} (h : Filed s live) (i : Incompatibility P V S M) :
      Filed (s.alloc i).1 live
  | register {s : Store P V S M} {live : List Nat} {id : Nat} (h : Filed s live) (hid : id < s.size) :
      Filed (s.registered id) (live ++ [id])
  | unregister {s : Store P V S M} {live : List Nat} (h : Filed s live) (id : Nat) :
      Filed (s.unregistered id) (live.erase id)

namespace Filed

theorem lt_size (h : s.Filed live) (hn : n ∈ live) : n < s.size := by
  induction h with
  | empty => cases hn
  | alloc h i ih =>
    have hlt := ih hn
    rw [size_alloc]
    omega
  | register h hid ih =>
    rcases List.mem_append.mp hn with hn | hn
    · exact ih hn
    · rw [List.mem_singleton] at hn
      exact hn ▸ hid
  | unregister h id ih => exact ih (List.mem_of_mem_erase hn)

theorem idsFor_eq (h : s.Filed live) (p : P) :
    s.idsFor p = live.filter fun n => p ∈ s.packagesOf n := by
  induction h with
  | empty => rfl
  | @alloc s live h i ih =>
    rw [idsFor_alloc, ih]
    refine List.filter_congr fun n hn => ?_
    rw [packagesOf_alloc i (Nat.ne_of_lt (h.lt_size hn))]
  | @register s live id h hid ih =>
    rw [idsFor_registered, ih, List.filter_append, List.filter_singleton]
    simp only [decide_eq_true_eq, cond_eq_ite]
    rfl
  | @unregister s live h id ih =>
    rw [idsFor_unregistered, ih]
    change _ = (live.erase id).filter fun n => p ∈ s.packagesOf n
    rw [← List.erase_filter]
    split_ifs with hp
    · rfl
    · rw [List.erase_of_not_mem]
      simp [hp]

theorem lists (h : s.Filed live) (hlive : live.Nodup) (hn : n ∈ live) : s.Lists n := by
  intro p
  rw [h.idsFor_eq p]
  split_ifs with hp
  · exact List.count_eq_one_of_mem (hlive.filter _) (List.mem_filter.mpr ⟨hn, by simpa using hp⟩)
  · exact List.count_eq_zero_of_not_mem fun hmem => hp (by simpa using (List.mem_filter.mp hmem).2)

end Filed

/-- The number is that of an incompatibility that restates the fact. -/
def States (s : Store P V S M) (n : Nat) (f : Fact P V S M) : Prop :=
  ∃ i, s.get? n = some i ∧ i.cause = .fact f

def pairOf (s : Store P V S M) (n : Nat) : Option (P × P) := (s.get? n).bind asDependency

end Store

/-! ## Facts -/

def Told (facts : List (Incompatibility P V S M)) (f : Fact P V S M) : Prop := ∃ i ∈ facts, i.cause = .fact f

omit [DecidableEq P] in
theorem told_append {facts added : List (Incompatibility P V S M)} {f : Fact P V S M} :
    Told (facts ++ added) f ↔ Told facts f ∨ Told added f := by
  simp [Told, or_and_right, exists_or]

omit [DecidableEq P] in
theorem told_singleton {i : Incompatibility P V S M} {f : Fact P V S M} : Told [i] f ↔ i.cause = .fact f := by
  simp [Told]

variable [DecidableEq S] [VersionSet S V] [LawfulVersionSet S V]

namespace Incompatibility

variable {facts : List (Incompatibility P V S M)} {i j k r : Incompatibility P V S M} {p d : P} {v u R : S}

/-- What the constructors of facts build from proper sets. -/
inductive External : Incompatibility P V S M → Prop
  | root (p : P) (v : V) : External (notRoot p v)
  | noVersions {p : P} {t : Term S} {i : Incompatibility P V S M} (ht : t.IsProper)
      (h : Incompatibility.noVersions p t = .ok i) : External i
  | unusable {p : P} {t : Term S} {reason : M} {i : Incompatibility P V S M} (ht : t.IsProper)
      (h : Incompatibility.unusable p t reason = .ok i) : External i
  | unusableVersion (p : P) (v : V) (reason : M) : External (unusableVersion p v reason)
  | dependency {p d : P} {v R : S} {i : Incompatibility P V S M} (hv : Proper v) (hR : Proper R)
      (h : ofDependency p v d R = some i) : External i

namespace External

theorem isProper (h : i.External) : i.IsProper := by
  cases h with
  | root p v => exact isProper_single (Term.isProper_exact v).negate
  | @noVersions _ t _ ht h =>
    cases t <;> cases h
    exact isProper_single ht
  | @unusable _ t _ _ ht h =>
    cases t <;> cases h
    exact isProper_single ht
  | unusableVersion p v reason => exact isProper_single (Term.isProper_exact v)
  | dependency hv hR h => exact isProper_ofDependency hv hR h

theorem exists_fact (h : i.External) : ∃ f, i.cause = .fact f := by
  cases h with
  | root _ _ | unusableVersion _ _ _ => exact ⟨_, rfl⟩
  | @noVersions _ t _ _ h | @unusable _ t _ _ _ h =>
    cases t <;> cases h
    exact ⟨_, rfl⟩
  | dependency _ _ h => exact ⟨_, cause_ofDependency h⟩

theorem ofDependency_of_cause (h : i.External) (hc : i.cause = .fact (.dependency p v d R)) :
    Proper v ∧ Proper R ∧ ofDependency p v d R = some i := by
  cases h with
  | root _ _ => cases hc
  | @noVersions _ t _ _ h =>
    cases t <;> cases h
    cases hc
  | @unusable _ t _ _ _ h =>
    cases t <;> cases h
    cases hc
  | unusableVersion _ _ _ => cases hc
  | dependency hv hR h =>
    cases (cause_ofDependency h).symm.trans hc
    exact ⟨hv, hR, h⟩

end External

/-- What the store may hold once it was told the facts: an incompatibility that they entail, built from proper
sets, and as its constructor does if it is a dependency. -/
structure Founded (facts : List (Incompatibility P V S M)) (i : Incompatibility P V S M) : Prop where
  proper : i.IsProper
  dependency : ∀ {p d : P} {v R : S}, i.cause = .fact (.dependency p v d R) →
    Proper v ∧ Proper R ∧ ofDependency p v d R = some i
  entailed : ∀ w : World P S V, i.HoldsIn w → ∃ f ∈ facts, f.HoldsIn w

namespace Founded

theorem mono (h : i.Founded facts) (added : List (Incompatibility P V S M)) : i.Founded (facts ++ added) where
  proper := h.proper
  dependency hc := h.dependency hc
  entailed w hw := by
    obtain ⟨f, hf, hfw⟩ := h.entailed w hw
    exact ⟨f, List.mem_append_left _ hf, hfw⟩

theorem external (h : i.External) (facts : List (Incompatibility P V S M)) : i.Founded (facts ++ [i]) where
  proper := h.isProper
  dependency hc := h.ofDependency_of_cause hc
  entailed _ hw := ⟨i, by simp, hw⟩

theorem resolvent {first second : Nat} (hi : i.Founded facts) (hj : j.Founded facts)
    (h : i.resolvent j first second p = .ok r) : r.Founded facts where
  proper := isProper_resolvent hi.proper hj.proper h
  dependency hc := by
    obtain ⟨-, -, -, -, hcause, -⟩ := get?_resolvent h
    cases hcause.symm.trans hc
  entailed w hw := (holdsIn_of_resolvent hi.proper hj.proper h hw).elim (hi.entailed w) (hj.entailed w)

theorem join (hi : i.Founded facts) (hj : j.Founded facts) (hne : d ≠ p)
    (hci : i.cause = .fact (.dependency p u d R)) (hcj : j.cause = .fact (.dependency p v d R))
    (h : ofDependency p (VersionSet.union u v) d R = some k) : k.Founded facts := by
  obtain ⟨hu, hR, hi'⟩ := hi.dependency hci
  obtain ⟨hv, -, hj'⟩ := hj.dependency hcj
  have hk : k.External := .dependency (proper_union hu hv) hR h
  refine ⟨hk.isProper, hk.ofDependency_of_cause, fun w hw => ?_⟩
  rw [Joins.holdsIn_iff (.intro hne hu hv hR hi' hj' h)] at hw
  exact hw.elim (hi.entailed w) (hj.entailed w)

end Founded

end Incompatibility

/-! ## What the index says -/

section keeping

variable {facts added : List (Incompatibility P V S M)} {live rest : List Nat} {store store' : Store P V S M}
  {merged merged' : OrderedMap (P × P) (List Nat)} {i k : Incompatibility P V S M} {id : Nat}
  {learned learned' : Nat → Prop}

/-- The registered incompatibilities, those with the numbers `live`, say what the facts say. -/
structure Reflects (facts : List (Incompatibility P V S M)) (live : List Nat) (store : Store P V S M) : Prop where
  /-- A fact that is no dependency of one package on another is registered as it is. -/
  plain : ∀ f ∈ facts, f.asDependency = none → ∃ n ∈ live, store.get? n = some f
  /-- Of the dependencies that allow the same one is registered, -/
  present : ∀ {p d : P} {v R : S}, p ≠ d → Told facts (.dependency p v d R) →
    ∃ n ∈ live, ∃ u, store.States n (.dependency p u d R)
  /-- and no more than one, -/
  unique : ∀ {p d : P} {v u R : S} {n m : Nat}, p ≠ d → n ∈ live → m ∈ live →
    store.States n (.dependency p v d R) → store.States m (.dependency p u d R) → n = m
  /-- which has the versions of all. -/
  union : ∀ {p d : P} {v R : S} {n : Nat}, p ≠ d → n ∈ live → store.States n (.dependency p v d R) →
    ∀ x : Point S V, x.In v ↔ ∃ u, Told facts (.dependency p u d R) ∧ x.In u

omit [DecidableEq S] in
theorem Reflects.of_get?_eq (h : Reflects facts live store)
    (hget : ∀ n ∈ live, store'.get? n = store.get? n) : Reflects facts live store' := by
  have hstates : ∀ n ∈ live, ∀ f, store'.States n f ↔ store.States n f := fun n hn f => by
    rw [Store.States, hget n hn, Store.States]
  refine ⟨fun f hf hd => ?_, fun hne htold => ?_, fun hne hn hm hnv hmu => ?_, fun hne hn hnv => ?_⟩
  · obtain ⟨n, hn, hnf⟩ := h.plain f hf hd
    exact ⟨n, hn, by rw [hget n hn, hnf]⟩
  · obtain ⟨n, hn, u, hu⟩ := h.present hne htold
    exact ⟨n, hn, u, (hstates n hn _).mpr hu⟩
  · exact h.unique hne hn hm ((hstates _ hn _).mp hnv) ((hstates _ hm _).mp hmu)
  · exact h.union hne hn ((hstates _ hn _).mp hnv)

/-- How the facts `added` are registered: `k` is, and of what was registered `rest` stays. -/
structure Settles (facts added : List (Incompatibility P V S M)) (live : List Nat) (store : Store P V S M)
    (rest : List Nat) (k : Incompatibility P V S M) : Prop where
  sublist : rest.Sublist live
  gone : ∀ n ∈ live, n ∈ rest ∨ ∃ p d u w R, p ≠ d ∧ store.States n (.dependency p u d R) ∧
    k.cause = .fact (.dependency p w d R)
  apart : ∀ {p d : P} {u w R : S} {n : Nat}, p ≠ d → n ∈ rest → store.States n (.dependency p u d R) →
    k.cause ≠ .fact (.dependency p w d R)
  same : ∀ f ∈ added, f.asDependency = none → k = f
  stands : ∀ {p d : P} {v R : S}, p ≠ d → Told added (.dependency p v d R) →
    ∃ w, k.cause = .fact (.dependency p w d R)
  union : ∀ {p d : P} {w R : S}, p ≠ d → k.cause = .fact (.dependency p w d R) →
    ∀ x : Point S V, x.In w ↔ ∃ u, Told (facts ++ added) (.dependency p u d R) ∧ x.In u

omit [DecidableEq S] in
/-- If one more incompatibility is registered as described, the index says what all the facts do. -/
theorem Reflects.settle (h : Reflects facts live store) (hsettles : Settles facts added live store rest k)
    (hget : ∀ n ∈ live, store'.get? n = store.get? n) (hk : store'.get? id = some k) :
    Reflects (facts ++ added) (rest ++ [id]) store' := by
  have hlive : ∀ n ∈ live, ∀ f, store'.States n f ↔ store.States n f := fun n hn f => by
    rw [Store.States, hget n hn, Store.States]
  have hold : ∀ n ∈ rest, n ∈ live := fun n hn => hsettles.sublist.subset hn
  have hnew : ∀ f, store'.States id f ↔ k.cause = .fact f := fun f => by
    simp [Store.States, hk]
  refine ⟨?_, ?_, ?_, ?_⟩
  · intro f hf hd
    rcases List.mem_append.mp hf with hf | hf
    · obtain ⟨n, hn, hnf⟩ := h.plain f hf hd
      rcases hsettles.gone n hn with hmem | ⟨p, d, u, w, R, hne, ⟨j, hj, hjc⟩, -⟩
      · exact ⟨n, List.mem_append_left _ hmem, by rw [hget n hn, hnf]⟩
      · -- only a dependency makes way for another one
        cases hnf.symm.trans hj
        rw [asDependency_of_cause hne hjc] at hd
        cases hd
    · exact ⟨id, by simp, hsettles.same f hf hd ▸ hk⟩
  · intro p d v R hne htold
    rcases told_append.mp htold with htold | htold
    · obtain ⟨n, hn, u, hu⟩ := h.present hne htold
      rcases hsettles.gone n hn with hmem | ⟨p', d', u', w, R', -, ⟨j, hj, hjc⟩, hkc⟩
      · exact ⟨n, List.mem_append_left _ hmem, u, (hlive n hn _).mpr hu⟩
      · obtain ⟨j', hj', hjc'⟩ := hu
        cases hj.symm.trans hj'
        cases hjc.symm.trans hjc'
        exact ⟨id, by simp, w, (hnew _).mpr hkc⟩
    · obtain ⟨w, hkc⟩ := hsettles.stands hne htold
      exact ⟨id, by simp, w, (hnew _).mpr hkc⟩
  · intro p d v u R n m hne hn hm hnv hmu
    rw [List.mem_append, List.mem_singleton] at hn hm
    rcases hn with hn | rfl <;> rcases hm with hm | rfl
    · exact h.unique hne (hold n hn) (hold m hm) ((hlive n (hold n hn) _).mp hnv)
        ((hlive m (hold m hm) _).mp hmu)
    · exact absurd ((hnew _).mp hmu) (hsettles.apart hne hn ((hlive n (hold n hn) _).mp hnv))
    · exact absurd ((hnew _).mp hnv) (hsettles.apart hne hm ((hlive m (hold m hm) _).mp hmu))
    · rfl
  · intro p d v R n hne hn hnv x
    rw [List.mem_append, List.mem_singleton] at hn
    rcases hn with hn | rfl
    · have hnv' := (hlive n (hold n hn) _).mp hnv
      rw [h.union hne (hold n hn) hnv' x]
      refine exists_congr fun u => and_congr_left fun _ => ?_
      rw [told_append]
      refine (or_iff_left fun htold => ?_).symm
      obtain ⟨w, hkc⟩ := hsettles.stands hne htold
      exact hsettles.apart hne hn hnv' hkc
    · exact hsettles.union hne ((hnew _).mp hnv) x

/-! ## An index that keeps up -/

/-- The store and the table of dependencies account for the facts. `live` is what is registered, which restates
facts or was learned. -/
structure Indexed (facts : List (Incompatibility P V S M)) (learned : Nat → Prop) (live : List Nat)
    (store : Store P V S M) (merged : OrderedMap (P × P) (List Nat)) : Prop where
  filed : store.Filed live
  ascending : live.Pairwise (· < ·)
  merged : ∀ pair, (merged.get? pair).getD [] = live.filter fun n => store.pairOf n = some pair
  external : ∀ f ∈ facts, f.External
  founded : ∀ n i, store.get? n = some i → i.Founded facts
  origin : ∀ n ∈ live, ∀ i, store.get? n = some i → (∃ f, i.cause = .fact f) ∨ learned n
  reflects : Reflects facts live store

theorem Indexed.settle (h : Indexed facts learned live store merged) (hadded : ∀ f ∈ added, f.External)
    (hsettles : Settles facts added live store rest k) (hfiled : store'.Filed (rest ++ [id]))
    (hlt : ∀ n ∈ live, n < id) (hget : ∀ n ∈ live, store'.get? n = store.get? n)
    (hk : store'.get? id = some k) (horigin : (∃ f, k.cause = .fact f) ∨ learned id)
    (hfounded : ∀ n j, store'.get? n = some j → j.Founded (facts ++ added))
    (hmerged : ∀ pair, (merged'.get? pair).getD [] =
      (rest.filter fun n => store.pairOf n = some pair) ++ if k.asDependency = some pair then [id] else []) :
    Indexed (facts ++ added) learned (rest ++ [id]) store' merged' where
  filed := hfiled
  ascending := by
    refine List.pairwise_append.mpr ⟨h.ascending.sublist hsettles.sublist, List.pairwise_singleton _ _,
      fun n hn m hm => ?_⟩
    rw [List.mem_singleton] at hm
    exact hm ▸ hlt n (hsettles.sublist.subset hn)
  merged pair := by
    have hfilter : (rest.filter fun n => store'.pairOf n = some pair) =
        rest.filter fun n => store.pairOf n = some pair :=
      List.filter_congr fun n hn => by
        rw [Store.pairOf, hget n (hsettles.sublist.subset hn), Store.pairOf]
    have hid : store'.pairOf id = k.asDependency := by
      rw [Store.pairOf, hk, Option.bind_some]
    rw [hmerged pair, List.filter_append, hfilter, List.filter_singleton, hid]
    simp only [decide_eq_true_eq, cond_eq_ite]
  external f hf := (List.mem_append.mp hf).elim (h.external f) (hadded f)
  founded := hfounded
  origin n hn j hj := by
    rcases List.mem_append.mp hn with hn | hn
    · rw [hget n (hsettles.sublist.subset hn)] at hj
      exact h.origin n (hsettles.sublist.subset hn) j hj
    · rw [List.mem_singleton] at hn
      subst hn
      cases hk.symm.trans hj
      exact horigin
  reflects := h.reflects.settle hsettles hget hk

namespace Indexed

theorem nodup (h : Indexed facts learned live store merged) : live.Nodup := h.ascending.imp Nat.ne_of_lt

theorem mono (h : Indexed facts learned live store merged) (hle : ∀ n, learned n → learned' n) :
    Indexed facts learned' live store merged :=
  { h with origin := fun n hn i hi => (h.origin n hn i hi).imp_right (hle n) }

/-- A fact is registered as it is unless a registered dependency allows the same. -/
theorem settles (h : Indexed facts learned live store merged)
    (halone : ∀ {p d : P} {v u R : S} {n : Nat}, p ≠ d → i.cause = .fact (.dependency p v d R) →
      n ∈ live → ¬ store.States n (.dependency p u d R)) :
    Settles facts [i] live store live i where
  sublist := .refl live
  gone _ hn := Or.inl hn
  apart hne hn hst hc := halone hne hc hn hst
  same f hf _ := (List.mem_singleton.mp hf).symm
  stands _ htold := ⟨_, told_singleton.mp htold⟩
  union {p d w R} hne hc x := by
    simp only [told_append, told_singleton]
    constructor
    · exact fun hx => ⟨w, Or.inr hc, hx⟩
    · rintro ⟨u, htold | hc', hx⟩
      · obtain ⟨n, hn, u, hu⟩ := h.reflects.present hne htold
        exact absurd hu (halone hne hc hn)
      · cases hc.symm.trans hc'
        exact hx

/-- A dependency takes the place of the one that allows the same, joined with it. -/
theorem settles_join (h : Indexed facts learned live store merged) (hi : i.External) {p d : P} {u v R : S}
    (hne : p ≠ d) (hc : i.cause = .fact (.dependency p v d R)) {old : Nat} (hold : old ∈ live)
    (hst : store.States old (.dependency p u d R))
    (hk : ofDependency p (VersionSet.union u v) d R = some k) :
    Settles facts [i] live store (live.erase old) k where
  sublist := List.erase_sublist
  gone n hn := by
    by_cases heq : n = old
    · exact Or.inr ⟨p, d, u, VersionSet.union u v, R, hne, heq ▸ hst, cause_ofDependency hk⟩
    · exact Or.inl ((List.mem_erase_of_ne heq).mpr hn)
  apart {p' d' u' w R' n} _ hn hst' hc' := by
    cases (cause_ofDependency hk).symm.trans hc'
    obtain ⟨hn', hmem⟩ := h.nodup.mem_erase_iff.mp hn
    exact hn' (h.reflects.unique hne hmem hold hst' hst)
  same f hf hd := by
    rw [List.mem_singleton.mp hf, asDependency_of_cause hne hc] at hd
    cases hd
  stands _ htold := by
    cases hc.symm.trans (told_singleton.mp htold)
    exact ⟨_, cause_ofDependency hk⟩
  union {p' d' w R'} _ hc' x := by
    cases (cause_ofDependency hk).symm.trans hc'
    have ⟨j, hj, hjc⟩ := hst
    rw [x.in_union ((h.founded old j hj).dependency hjc).1 (hi.ofDependency_of_cause hc).1,
      h.reflects.union hne hold hst x]
    simp only [told_append, told_singleton, or_and_right, exists_or]
    refine or_congr_right ⟨fun hx => ⟨v, hc, hx⟩, ?_⟩
    rintro ⟨v', hc', hx⟩
    cases hc.symm.trans hc'
    exact hx

theorem add (h : Indexed facts learned live store merged) (hi : i.External)
    (halone : ∀ {p d : P} {v u R : S} {n : Nat}, p ≠ d → i.cause = .fact (.dependency p v d R) →
      n ∈ live → ¬ store.States n (.dependency p u d R))
    (hmerged : ∀ pair, (merged'.get? pair).getD [] =
      (merged.get? pair).getD [] ++ if i.asDependency = some pair then [store.size] else []) :
    Indexed (facts ++ [i]) learned (live ++ [store.size]) ((store.alloc i).1.registered store.size) merged' := by
  refine h.settle (by simpa using hi) (h.settles halone) ((h.filed.alloc i).register (by simp))
    (fun n => h.filed.lt_size) (fun n hn => Store.get?_alloc_of_lt i (h.filed.lt_size hn))
    (Store.get?_alloc_self store i) (Or.inl hi.exists_fact) (fun n j hj => ?_) fun pair => ?_
  · rw [Store.get?_registered, Store.get?_alloc] at hj
    split_ifs at hj
    · cases hj
      exact .external hi facts
    · exact (h.founded n j hj).mono [i]
  · rw [hmerged pair, h.merged pair]

theorem join (h : Indexed facts learned live store merged) (hi : i.External) {p d : P} {u v R : S}
    (hne : p ≠ d) (hc : i.cause = .fact (.dependency p v d R)) {old : Nat} (hold : old ∈ live)
    (hst : store.States old (.dependency p u d R))
    (hk : ofDependency p (VersionSet.union u v) d R = some k)
    (hmerged : ∀ pair, (merged'.get? pair).getD [] =
      if pair = (p, d) then ((merged.get? pair).getD []).erase old ++ [store.size + 1]
      else (merged.get? pair).getD []) :
    Indexed (facts ++ [i]) learned (live.erase old ++ [store.size + 1])
      (((((store.alloc i).1).unregistered old).alloc k).1.registered (store.size + 1)) merged' := by
  have ⟨j, hj, hjc⟩ := hst
  have hkd : k.asDependency = some (p, d) := asDependency_ofDependency (Ne.symm hne) hk
  have hsize : (((store.alloc i).1).unregistered old).size = store.size + 1 := by simp
  have hget : ∀ n, (((((store.alloc i).1).unregistered old).alloc k).1.registered (store.size + 1)).get? n =
      if n = store.size + 1 then some k else (store.alloc i).1.get? n := fun n => by
    rw [Store.get?_registered, Store.get?_alloc, hsize, Store.get?_unregistered]
  refine h.settle (by simpa using hi) (h.settles_join hi hne hc hold hst hk)
    ((((h.filed.alloc i).unregister old).alloc k).register (by simp))
    (fun n hn => Nat.lt_succ_of_lt (h.filed.lt_size hn)) (fun n hn => ?_) (by rw [hget, if_pos rfl])
    (Or.inl ⟨_, cause_ofDependency hk⟩) (fun n l hl => ?_) fun pair => ?_
  · have hlt := h.filed.lt_size hn
    rw [hget, if_neg (by omega), Store.get?_alloc_of_lt i hlt]
  · rw [hget, Store.get?_alloc] at hl
    split_ifs at hl
    · cases hl
      exact ((h.founded old j hj).mono [i]).join (.external hi facts) (Ne.symm hne) hjc hc hk
    · cases hl
      exact .external hi facts
    · exact (h.founded n l hl).mono [i]
  · rw [hmerged pair, ← List.erase_filter, h.merged pair, hkd]
    by_cases hpair : pair = (p, d)
    · rw [if_pos hpair, if_pos (by rw [hpair])]
    · rw [if_neg hpair, if_neg fun he => hpair (Option.some.inj he).symm, List.append_nil,
        List.erase_of_not_mem]
      rw [List.mem_filter, Store.pairOf, hj, Option.bind_some, asDependency_of_cause hne hjc]
      simp [Ne.symm hpair]

theorem alloc (h : Indexed facts learned live store merged) {r : Incompatibility P V S M} (hr : r.Founded facts) :
    Indexed facts learned live (store.alloc r).1 merged := by
  have hget : ∀ n ∈ live, (store.alloc r).1.get? n = store.get? n :=
    fun n hn => Store.get?_alloc_of_lt r (h.filed.lt_size hn)
  refine ⟨h.filed.alloc r, h.ascending, fun pair => ?_, h.external, fun n j hj => ?_,
    fun n hn j hj => h.origin n hn j (hget n hn ▸ hj), h.reflects.of_get?_eq hget⟩
  · rw [h.merged pair]
    exact List.filter_congr fun n hn => by rw [Store.pairOf, Store.pairOf, hget n hn]
  · rw [Store.get?_alloc] at hj
    split_ifs at hj
    · cases hj
      exact hr
    · exact h.founded n j hj

/-- What was learned says nothing that the facts do not, and joins the others. -/
theorem learn (h : Indexed facts learned live store merged) (hk : store.get? id = some k) {first second : Nat}
    (hc : k.cause = .derived first second) (hlt : ∀ n ∈ live, n < id) (hlearned : learned id) :
    Indexed facts learned (live ++ [id]) (store.registered id) merged := by
  have hno : ∀ f : Fact P V S M, k.cause ≠ .fact f := fun f hf => by
    rw [hc] at hf
    cases hf
  have hsettles : Settles facts [] live store live k :=
    { sublist := .refl live
      gone := fun _ hn => Or.inl hn
      apart := fun _ _ _ => hno _
      same := by simp
      stands := fun _ htold => by simp [Told] at htold
      union := fun _ hkc => absurd hkc (hno _) }
  have hd : k.asDependency = none := by
    rw [asDependency, hc]
  have h' : Indexed (facts ++ []) learned (live ++ [id]) (store.registered id) merged := by
    refine h.settle (by simp) hsettles (h.filed.register (Store.lt_size hk)) hlt (fun _ _ => rfl) hk
      (Or.inr hlearned) (fun n j hj => ?_) fun pair => ?_
    · rw [List.append_nil]
      exact h.founded n j hj
    · rw [h.merged pair, hd]
      simp
  rwa [List.append_nil] at h'

theorem blank : Indexed ([] : List (Incompatibility P V S M)) learned [] .empty .empty where
  filed := .empty
  ascending := .nil
  merged _ := rfl
  external _ hf := absurd hf List.not_mem_nil
  founded n i hi := by
    simp [Store.get?, Store.empty] at hi
  origin n hn := absurd hn List.not_mem_nil
  reflects := by
    refine ⟨by simp, fun _ htold => ?_, fun _ hn => absurd hn List.not_mem_nil,
      fun _ hn => absurd hn List.not_mem_nil⟩
    simp [Told] at htold

theorem holdsIn_iff (h : Indexed facts learned live store merged) (w : World P S V) :
    (∃ n ∈ live, ∃ i, store.get? n = some i ∧ i.HoldsIn w) ↔ ∃ f ∈ facts, f.HoldsIn w := by
  constructor
  · rintro ⟨n, -, i, hi, hw⟩
    exact (h.founded n i hi).entailed w hw
  · rintro ⟨f, hf, hw⟩
    cases hd : f.asDependency with
    | none =>
      obtain ⟨n, hn, hnf⟩ := h.reflects.plain f hf hd
      exact ⟨n, hn, f, hnf, hw⟩
    | some pair =>
      obtain ⟨hne, v, R, hc⟩ := asDependency_eq_some_iff.mp hd
      obtain ⟨hv, hR, hfv⟩ := (h.external f hf).ofDependency_of_cause hc
      obtain ⟨n, hn, u, i, hi, hic⟩ := h.reflects.present hne ⟨f, hf, hc⟩
      obtain ⟨hu, -, hiu⟩ := (h.founded n i hi).dependency hic
      refine ⟨n, hn, i, hi, ?_⟩
      rw [holdsIn_ofDependency hv hR hfv] at hw
      rw [holdsIn_ofDependency hu hR hiu]
      refine ⟨?_, hw.2⟩
      -- the registered one has the versions of all that allow the same
      cases hx : w pair.1 with
      | none =>
        rw [hx] at hw
        exact hw.1
      | some x =>
        rw [hx] at hw
        exact (h.reflects.union hne hn ⟨i, hi, hic⟩ x).mpr ⟨v, ⟨f, hf, hc⟩, hw.1⟩

/-- The term of a registered dependency for its package is the union of the version sets that were told,
whichever way they are listed. -/
theorem get?_eq_unions (h : Indexed facts learned live store merged) {p d : P} {v R : S} {n : Nat} (hne : p ≠ d)
    (hn : n ∈ live) (hi : store.get? n = some i) (hc : i.cause = .fact (.dependency p v d R))
    {sets : List S} (hsets : ∀ u, u ∈ sets ↔ Told facts (.dependency p u d R)) :
    i.get? p = some (.positive (unions sets)) := by
  obtain ⟨hv, -, hiv⟩ := (h.founded n i hi).dependency hc
  have hproper : ∀ u ∈ sets, Proper u := fun u hu => by
    obtain ⟨f, hf, hfc⟩ := (hsets u).mp hu
    exact ((h.external f hf).ofDependency_of_cause hfc).1
  have heq : v = unions sets := eq_of_points hv (proper_unions hproper) fun x => by
    rw [h.reflects.union hne hn ⟨i, hi, hc⟩ x, x.in_unions hproper]
    simp only [hsets]
  rw [get?_ofDependency (Ne.symm hne) hiv, if_pos rfl, heq]

theorem mem_merged (h : Indexed facts learned live store merged) {p d : P} {v R : S} {n : Nat} (hne : p ≠ d)
    (hn : n ∈ live) (hst : store.States n (.dependency p v d R)) : n ∈ (merged.get? (p, d)).getD [] := by
  obtain ⟨j, hj, hjc⟩ := hst
  rw [h.merged, List.mem_filter, Store.pairOf, hj, Option.bind_some, asDependency_of_cause hne hjc]
  exact ⟨hn, by simp⟩

theorem exists_of_mem_merged (h : Indexed facts learned live store merged) {p d : P} {n : Nat}
    (hn : n ∈ (merged.get? (p, d)).getD []) : n ∈ live ∧ ∃ j v R, store.get? n = some j ∧
      j.cause = .fact (.dependency p v d R) ∧ ofDependency p v d R = some j := by
  rw [h.merged, List.mem_filter, decide_eq_true_eq, Store.pairOf, Option.bind_eq_some_iff] at hn
  obtain ⟨hlive, j, hj, hjd⟩ := hn
  obtain ⟨-, v, R, hjc⟩ := asDependency_eq_some_iff.mp hjd
  exact ⟨hlive, j, v, R, hj, hjc, ((h.founded n j hj).dependency hjc).2.2⟩

end Indexed

end keeping

end DependencyResolution
