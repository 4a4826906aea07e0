/-!
# Maps that remember insertion order

A finite map as the list of its entries. Each key occurs once, new keys go to the end, and writing to
a key that is present keeps its place. The view is `get?`; what each operation does to it is stated
beside the operation.
-/

namespace DependencyResolution

/-- A finite map whose entries keep the order in which their keys first came. -/
structure OrderedMap (K : Type u) (A : Type v) where
  /-- The entries, oldest key first. -/
  entries : List (K × A)
  /-- No key occurs twice. -/
  nodup : (entries.map Prod.fst).Nodup
  deriving DecidableEq

namespace OrderedMap

variable {K : Type u} {A : Type v} {B : Type w} [DecidableEq K]

/-! ## Entries -/

def lookup (key : K) : List (K × A) → Option A
  | [] => none
  | (k, a) :: rest => if k = key then some a else lookup key rest

/-- The entries with the key's value replaced, or with a new entry at the end. -/
def write (key : K) (a : A) : List (K × A) → List (K × A)
  | [] => [(key, a)]
  | (k, b) :: rest => if k = key then (k, a) :: rest else (k, b) :: write key a rest

omit [DecidableEq K] in
theorem keys_filter_nodup {entries : List (K × A)} (keep : K × A → Bool)
    (h : (entries.map Prod.fst).Nodup) : ((entries.filter keep).map Prod.fst).Nodup :=
  h.sublist (List.filter_sublist.map _)

theorem mem_keys_write {key k : K} {a : A} {entries : List (K × A)} :
    k ∈ (write key a entries).map Prod.fst ↔ k = key ∨ k ∈ entries.map Prod.fst := by
  induction entries with
  | nil => simp [write]
  | cons e rest ih =>
    obtain ⟨k', b⟩ := e
    by_cases h : k' = key
    · subst h; simp [write]
    · simp only [write, h, if_false, List.map_cons, List.mem_cons, ih]; grind

theorem write_nodup (key : K) (a : A) {entries : List (K × A)}
    (h : (entries.map Prod.fst).Nodup) : ((write key a entries).map Prod.fst).Nodup := by
  induction entries with
  | nil => simp [write]
  | cons e rest ih =>
    obtain ⟨k, b⟩ := e
    simp only [List.map_cons, List.nodup_cons] at h
    unfold write
    split
    · exact List.nodup_cons.mpr h
    · next hk =>
      exact List.nodup_cons.mpr ⟨fun hm => (mem_keys_write.mp hm).elim hk h.1, ih h.2⟩

/-! ## Operations -/

def empty : OrderedMap K A := ⟨[], by simp⟩

instance : EmptyCollection (OrderedMap K A) := ⟨empty⟩

instance : Inhabited (OrderedMap K A) := ⟨empty⟩

def get? (m : OrderedMap K A) (key : K) : Option A := lookup key m.entries

def contains (m : OrderedMap K A) (key : K) : Bool := (m.get? key).isSome

/-- The map with the key's value set: in place if the key is present, else at the end. -/
def insert (m : OrderedMap K A) (key : K) (a : A) : OrderedMap K A :=
  ⟨write key a m.entries, write_nodup key a m.nodup⟩

def filter (m : OrderedMap K A) (keep : K × A → Bool) : OrderedMap K A :=
  ⟨m.entries.filter keep, keys_filter_nodup keep m.nodup⟩

def erase (m : OrderedMap K A) (key : K) : OrderedMap K A := m.filter fun e => !decide (e.1 = key)

def single (key : K) (a : A) : OrderedMap K A := ⟨[(key, a)], by simp⟩

def ofList (entries : List (K × A)) : OrderedMap K A :=
  entries.foldl (fun m e => m.insert e.1 e.2) empty

/-- The keys, oldest first. -/
def keys (m : OrderedMap K A) : List K := m.entries.map Prod.fst

def size (m : OrderedMap K A) : Nat := m.entries.length

def isEmpty (m : OrderedMap K A) : Bool := m.entries.isEmpty

def mapValues (m : OrderedMap K A) (f : A → B) : OrderedMap K B :=
  ⟨m.entries.map fun e => (e.1, f e.2), by
    have h := m.nodup
    simpa [List.map_map, Function.comp_def] using h⟩

/-! ## The view -/

theorem lookup_write (key k : K) (a : A) (entries : List (K × A)) :
    lookup k (write key a entries) = if key = k then some a else lookup k entries := by
  induction entries with
  | nil => simp [write, lookup]
  | cons e rest ih =>
    obtain ⟨k', b⟩ := e
    by_cases h : k' = key <;> by_cases h' : key = k <;> grind [write, lookup]

@[simp] theorem get?_empty (k : K) : (empty : OrderedMap K A).get? k = none := rfl

theorem get?_insert (m : OrderedMap K A) (key k : K) (a : A) :
    (m.insert key a).get? k = if key = k then some a else m.get? k :=
  lookup_write key k a m.entries

theorem mem_keys_insert (m : OrderedMap K A) (key k : K) (a : A) :
    k ∈ (m.insert key a).keys ↔ k = key ∨ k ∈ m.keys := mem_keys_write

theorem get?_erase (m : OrderedMap K A) (key k : K) :
    (m.erase key).get? k = if key = k then none else m.get? k := by
  obtain ⟨entries, h⟩ := m
  simp only [erase, filter, get?]
  clear h
  induction entries with
  | nil => simp [lookup]
  | cons e rest ih => grind [lookup]

end OrderedMap

end DependencyResolution
