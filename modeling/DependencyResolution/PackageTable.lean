import DependencyResolution.Solver.Resolve

/-!
# Tables of packages

A table lists packages, their versions, and what each version depends on, in the order in which the
entries were added. As a provider it chooses the highest version in the set and decides the package
with the fewest such versions first, which keeps backtracking small.
-/

namespace DependencyResolution

/-- Packages, their versions, and what each depends on. -/
structure PackageTable (P V S : Type) [DecidableEq P] [DecidableEq V] where
  entries : OrderedMap P (OrderedMap V (OrderedMap P S))

namespace PackageTable

variable {P V S : Type} [DecidableEq P] [DecidableEq V]

def empty : PackageTable P V S := ⟨.empty⟩

/-- The table with an entry for a version of a package, in place of the one it may have had. -/
def add (t : PackageTable P V S) (package : P) (version : V) (requirements : OrderedMap P S) :
    PackageTable P V S :=
  ⟨t.entries.insert package (((t.entries.get? package).getD .empty).insert version requirements)⟩

def packages (t : PackageTable P V S) : List P := t.entries.keys

def listed (t : PackageTable P V S) (package : P) : List V :=
  ((t.entries.get? package).getD .empty).keys

/-- The versions of a package, ascending. -/
def versions [LT V] [DecidableLT V] (t : PackageTable P V S) (package : P) : List V :=
  (t.listed package).mergeSort fun v w => !(decide (w < v))

def dependencies? (t : PackageTable P V S) (package : P) (version : V) : Option (OrderedMap P S) :=
  ((t.entries.get? package).getD .empty).get? version

/-! ## Answers -/

variable [VersionSet S V]

/-- How urgent it is to decide a package: the more so the fewer of its versions are in the set. -/
def prioritize (t : PackageTable P V S) (package : P) (versions : S) : Int :=
  -((t.listed package).countP (VersionSet.contains versions) : Int)

/-- The highest version of a package in the set. -/
def highest [LT V] [DecidableLT V] (t : PackageTable P V S) (package : P) (versions : S) : Option V :=
  (t.versions package).reverse.find? (VersionSet.contains versions)

/-- What a version of a package depends on; a version that is not in the table is unavailable. -/
def dependencies (t : PackageTable P V S) (package : P) (version : V) :
    Dependencies P S String :=
  match t.dependencies? package version with
  | some requirements => .available requirements
  | none => .unavailable "its metadata is unknown"

/-- The table as a provider, which keeps no state and never fails. -/
def provider [LT V] [DecidableLT V] (t : PackageTable P V S) :
    Provider Unit P V S String Int Empty where
  prioritize package versions s := (.ok (t.prioritize package versions), s)
  chooseVersion package versions s := (.ok (t.highest package versions), s)
  dependencies package version s := (.ok (t.dependencies package version), s)
  shouldCancel s := (.ok false, s)

end PackageTable

end DependencyResolution
