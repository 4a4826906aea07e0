import DependencyResolution.Data.Datum
import DependencyResolution.PackageTable
import DependencyResolution.Version.Constraint

/-!
# Indexes

An index is a table of packages with semantic versions. As data it is a mapping from packages to
mappings from versions to dependencies, and dependencies are a mapping from packages to constraints, or
null for none. Keys and constraints are read from the text of whatever scalar stands there, so the
number `1.10` means the version `1.1`. A number that is too long, in a version or in the text of a key, is
an error of its own, which comes before any other that would show it.
-/

namespace DependencyResolution

open Text

/-- A table of packages with semantic versions. -/
abbrev Index := PackageTable String SemanticVersion (Ranges SemanticVersion)

/-- Why data or a file is no index. -/
inductive IndexError where
  /-- The data is not a mapping. -/
  | notMapping
  /-- What stands under a package is not a mapping. -/
  | versionsNotMapping (package : Scalar)
  /-- What stands under a version is neither a mapping nor null. -/
  | dependenciesNotMapping (package version : Scalar)
  /-- A version, or the constraint of one of its dependencies, cannot be read. -/
  | unreadableVersion (package version : Scalar) (cause : ConstraintError)
  /-- Two keys of a package denote the same version. -/
  | repeatedVersion (package key : Scalar) (version : SemanticVersion)
  /-- The file is not there, or is not a text. -/
  | unreadableFile (path : String)
  /-- The text of the file denotes no data. -/
  | malformedFile (path : String)
  /-- A number is not read or not written. -/
  | number (cause : NumberError)

def IndexError.message : IndexError → String
  | notMapping => "Index must map package names to versions"
  | versionsNotMapping package =>
    s!"Package {Shown.literal package} must map versions to dependencies"
  | dependenciesNotMapping package version =>
    s!"Dependencies of {Shown.text package} {Shown.text version} must be a mapping"
  | unreadableVersion package version cause =>
    s!"{Shown.text package} {Shown.text version}: {cause.message}"
  | repeatedVersion package key version =>
    s!"{Shown.text package} {Shown.text key}: " ++
      s!"version {Shown.text version} is listed more than once"
  | unreadableFile path => s!"Cannot read index {path}"
  | malformedFile path => s!"Malformed index {path}"
  | number cause => cause.message

namespace Index

/-- The text of a part of the data. -/
def textOf {α : Type} [Shown α] (a : α) : Except IndexError String :=
  (Shown.written a).mapError .number

/-- The answer to what stands under a package and is no index, in a message that shows the package. -/
def refuse {α : Type} (package : Scalar) (e : IndexError) : Except IndexError α :=
  match textOf package with
  | .ok _ => .error e
  | .error cause => .error cause

def versionOf (package key : Scalar) : Except IndexError SemanticVersion := do
  let text ← textOf key
  match SemanticVersion.parse text with
  | .ok version => .ok version
  | .error (.notSemantic text) => refuse package (.unreadableVersion package key (.notSemantic text))
  | .error (.number cause) => .error (.number cause)

/-- The requirements with one more entry of the data. -/
def addRequirement (package version : Scalar)
    (requirements : OrderedMap String (Ranges SemanticVersion)) (entry : Scalar × Datum) :
    Except IndexError (OrderedMap String (Ranges SemanticVersion)) := do
  let needed ← textOf entry.1
  let constraint ← textOf entry.2
  match Constraint.parse .semantic constraint with
  | .ok allowed => .ok (requirements.insert needed allowed)
  | .error cause => refuse package (.unreadableVersion package version cause)

/-- The requirements that stand under a version. -/
def requirements (package version : Scalar) :
    Datum → Except IndexError (OrderedMap String (Ranges SemanticVersion))
  | .scalar .null => .ok .empty
  | .mapping entries => entries.foldlM (addRequirement package version) .empty
  | _ => refuse package (.dependenciesNotMapping package version)

def addVersion (package : Scalar) (index : Index) (entry : Scalar × Datum) :
    Except IndexError Index := do
  let (key, dependencies) := entry
  let version ← versionOf package key
  let needed ← requirements package key dependencies
  let name ← textOf package
  if (index.dependencies? name version).isSome then
    .error (.repeatedVersion package key version)
  else .ok (index.add name version needed)

def addPackage (index : Index) (entry : Scalar × Datum) : Except IndexError Index :=
  match entry with
  | (package, .mapping versions) => versions.foldlM (addVersion package) index
  | (package, _) => refuse package (.versionsNotMapping package)

/-- The index that data denotes. -/
def ofDatum : Datum → Except IndexError Index
  | .mapping packages => packages.foldlM addPackage PackageTable.empty
  | _ => .error .notMapping

end Index

end DependencyResolution
