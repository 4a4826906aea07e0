import DependencyResolution.OrderedMap
import Mathlib.Data.List.Nodup

/-!
# Ordered maps as relations

An ordered map is the set of its entries: looking up a key finds a value iff the pair is an entry.
-/

namespace DependencyResolution

namespace OrderedMap

variable {K : Type u} {A : Type v} {B : Type w} [DecidableEq K]

omit [DecidableEq K] in
theorem eq_of_entries {m m' : OrderedMap K A} (h : m.entries = m'.entries) : m = m' := by
  obtain ⟨entries, _⟩ := m
  obtain ⟨entries', _⟩ := m'
  cases h
  rfl

theorem lookup_eq_some_iff {entries : List (K × A)} (h : (entries.map Prod.fst).Nodup) (k : K) (a : A) :
    lookup k entries = some a ↔ (k, a) ∈ entries := by
  induction entries with
  | nil => simp [lookup]
  | cons e rest ih =>
    obtain ⟨k', b⟩ := e
    simp only [List.map_cons, List.nodup_cons, List.mem_map, not_exists, not_and] at h
    by_cases hk : k' = k
    · subst hk
      have hnot : (k', a) ∉ rest := fun hm => h.1 _ hm rfl
      simp [lookup, hnot, eq_comm]
    · have hne : (k, a) ≠ (k', b) := fun he => hk (congrArg Prod.fst he).symm
      rw [lookup, if_neg hk, ih h.2]
      simp [hne]

theorem lookup_eq_none_iff {entries : List (K × A)} (k : K) :
    lookup k entries = none ↔ k ∉ entries.map Prod.fst := by
  induction entries with
  | nil => simp [lookup]
  | cons e rest ih =>
    obtain ⟨k', b⟩ := e
    by_cases hk : k' = k
    · simp [lookup, hk]
    · have hne : k ≠ k' := fun he => hk he.symm
      rw [lookup, if_neg hk, ih]
      simp [hne]

variable (m : OrderedMap K A)

theorem get?_eq_some_iff {k : K} {a : A} : m.get? k = some a ↔ (k, a) ∈ m.entries :=
  lookup_eq_some_iff m.nodup k a

theorem get?_eq_none_iff {k : K} : m.get? k = none ↔ k ∉ m.keys := lookup_eq_none_iff k

theorem mem_keys_iff {k : K} : k ∈ m.keys ↔ ∃ a, m.get? k = some a := by
  rw [← Option.isSome_iff_exists, ← Option.ne_none_iff_isSome, Ne, get?_eq_none_iff, not_not]

theorem contains_iff {k : K} : m.contains k = true ↔ ∃ a, m.get? k = some a :=
  Option.isSome_iff_exists

@[simp] theorem get?_single (key k : K) (a : A) :
    (single key a).get? k = if key = k then some a else none := rfl

theorem get?_filter (keep : K × A → Bool) (k : K) :
    (m.filter keep).get? k = (m.get? k).filter fun a => keep (k, a) := by
  refine Option.ext fun a => ?_
  rw [get?_eq_some_iff, Option.filter_eq_some_iff, get?_eq_some_iff]
  exact List.mem_filter

theorem get?_mapValues (f : A → B) (k : K) : (m.mapValues f).get? k = (m.get? k).map f := by
  obtain ⟨entries, hn⟩ := m
  simp only [get?, mapValues]
  clear hn
  induction entries with
  | nil => rfl
  | cons e rest ih =>
    rw [List.map_cons, lookup, lookup, ih]
    split_ifs <;> rfl

theorem write_of_not_mem {k : K} (a : A) {entries : List (K × A)} (h : k ∉ entries.map Prod.fst) :
    write k a entries = entries ++ [(k, a)] := by
  induction entries with
  | nil => rfl
  | cons e rest ih =>
    obtain ⟨k', b⟩ := e
    simp only [List.map_cons, List.mem_cons, not_or] at h
    simp [write, Ne.symm h.1, ih h.2]

/-- A key that is written comes last if it is new, and keeps its place if it is not. -/
theorem keys_insert (k : K) (a : A) :
    (m.insert k a).keys = if k ∈ m.keys then m.keys else m.keys ++ [k] := by
  have hmem : ∀ {entries : List (K × A)}, k ∈ entries.map Prod.fst →
      (write k a entries).map Prod.fst = entries.map Prod.fst := by
    intro entries hk
    induction entries with
    | nil => cases hk
    | cons e rest ih =>
      obtain ⟨k', b⟩ := e
      by_cases h : k' = k
      · simp [write, h]
      · have hrest : k ∈ rest.map Prod.fst := (List.mem_cons.mp hk).resolve_left (Ne.symm h)
        simp only [write, h, if_false, List.map_cons, ih hrest]
  split_ifs with hk
  · exact hmem hk
  · have hentries : (m.insert k a).entries = m.entries ++ [(k, a)] := write_of_not_mem a hk
    rw [keys, keys, hentries, List.map_append, List.map_singleton]

/-! ## Maps from lists -/

theorem entries_foldl_insert (entries : List (K × A)) (m : OrderedMap K A)
    (h : ((m.entries ++ entries).map Prod.fst).Nodup) :
    (entries.foldl (fun m e => m.insert e.1 e.2) m).entries = m.entries ++ entries := by
  induction entries generalizing m with
  | nil => simp
  | cons e rest ih =>
    have hnot : e.1 ∉ m.entries.map Prod.fst := by
      rw [List.map_append, List.map_cons] at h
      intro hm
      exact (List.nodup_append.mp h).2.2 _ hm _ (by simp) rfl
    have hentries : (m.insert e.1 e.2).entries = m.entries ++ [e] := write_of_not_mem e.2 hnot
    rw [List.foldl_cons, ih (m.insert e.1 e.2) (by rw [hentries]; simpa using h), hentries]
    simp

theorem entries_ofList {entries : List (K × A)} (h : (entries.map Prod.fst).Nodup) :
    (ofList entries).entries = entries := by
  have hfold := entries_foldl_insert entries empty (by simpa [empty] using h)
  simpa [ofList, empty] using hfold

end OrderedMap

end DependencyResolution
