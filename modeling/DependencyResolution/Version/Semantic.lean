import DependencyResolution.Text.Digit

/-!
# Semantic versions

A version is three numbers, ordered by the first that differs. Its text may leave out the last one or
two numbers, which are then zero, and may carry a pre-release and a build suffix, which are read and
dropped. Versions that are read have no negative numbers, but such versions can be made.
-/

namespace DependencyResolution

open Text

/-- A version of three numbers. -/
structure SemanticVersion where
  major : Int
  minor : Int
  patch : Int
  deriving DecidableEq

namespace SemanticVersion

/-! ## Order and successors -/

/-- The order by the first number that differs. -/
instance : LT SemanticVersion where
  lt a b := a.major < b.major ∨ a.major = b.major ∧
    (a.minor < b.minor ∨ a.minor = b.minor ∧ a.patch < b.patch)

instance : DecidableLT SemanticVersion := fun a b =>
  inferInstanceAs (Decidable (a.major < b.major ∨ a.major = b.major ∧
    (a.minor < b.minor ∨ a.minor = b.minor ∧ a.patch < b.patch)))

/-- The next version with the same major and minor number. -/
def nextPatch (v : SemanticVersion) : SemanticVersion := ⟨v.major, v.minor, v.patch + 1⟩

/-- The version with the next minor number and patch number zero. -/
def nextMinor (v : SemanticVersion) : SemanticVersion := ⟨v.major, v.minor + 1, 0⟩

/-- The version with the next major number and zeros after it. -/
def nextMajor (v : SemanticVersion) : SemanticVersion := ⟨v.major + 1, 0, 0⟩

instance : Shown SemanticVersion where
  text v := s!"{v.major}.{v.minor}.{v.patch}"
  literal v := s!"SemanticVersion(major={v.major}, minor={v.minor}, patch={v.patch})"
  isWritable v := isShort v.major && isShort v.minor && isShort v.patch

/-! ## Reading -/

/-- Whether a character may occur in a pre-release or build suffix. -/
def isSuffixChar (c : Char) : Bool := c.isAlphanum || c == '-' || c == '.'

/-- The digits of a number at the start of a text, and the rest: a lone zero, or digits of any script
after a first digit from `1` to `9`. -/
def takeNumber : List Char → Option (List Char × List Char)
  | [] => none
  | c :: rest =>
    if c = '0' then some (['0'], rest)
    else if '1' ≤ c ∧ c ≤ '9' then
      some (c :: rest.takeWhile isDecimalDigit, rest.dropWhile isDecimalDigit)
    else none

/-- The digits of a number after a point at the start of a text, and the rest; without a point, those of
zero and the whole text. -/
def takeNextNumber : List Char → Option (List Char × List Char)
  | '.' :: rest => takeNumber rest
  | cs => some (['0'], cs)

/-- The rest of a text after a mark and a suffix that is not empty; without the mark, the whole
text. -/
def dropSuffix (mark : Char) : List Char → Option (List Char)
  | [] => some []
  | c :: rest =>
    if c ≠ mark then some (c :: rest)
    else if (rest.takeWhile isSuffixChar).isEmpty then none
    else some (rest.dropWhile isSuffixChar)

/-- The numbers of a version, digit for digit. -/
structure Numerals where
  major : List Char
  minor : List Char
  patch : List Char

/-- The numbers of the version that a text without blanks around it denotes. -/
def numerals? (cs : List Char) : Option Numerals := do
  let (major, cs) ← takeNumber cs
  let (minor, cs) ← takeNextNumber cs
  let (patch, cs) ← takeNextNumber cs
  let cs ← dropSuffix '-' cs
  let cs ← dropSuffix '+' cs
  if cs.isEmpty then some ⟨major, minor, patch⟩ else none

/-- The version of these numbers, of which the first that is too long is refused. -/
def ofNumerals (ns : Numerals) : Except NumberError SemanticVersion := do
  let major ← readNatural ns.major
  let minor ← readNatural ns.minor
  let patch ← readNatural ns.patch
  return ⟨major, minor, patch⟩

end SemanticVersion

/-- Why a text is not read as a version. -/
inductive VersionError where
  | notSemantic (text : String)
  /-- A number is not read. -/
  | number (cause : NumberError)
  deriving DecidableEq

/-- The version that a text denotes; blanks around it are ignored. -/
def SemanticVersion.parse (s : String) : Except VersionError SemanticVersion :=
  match numerals? (trimBlanks s.toList) with
  | none => .error (.notSemantic s)
  | some ns => (ofNumerals ns).mapError .number

end DependencyResolution
