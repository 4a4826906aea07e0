import DependencyResolution.Text.Shown
import DependencyResolution.Version.Ranges.Basic

/-!
# The text of a set of versions

A set is written as its intervals with ` | ` between them; an interval as its bounds with `, ` between
them, `==` for one version, `*` without bounds. The empty set is `∅`, and a set that leaves out one
version `v` and nothing else is `!=v`.
-/

namespace DependencyResolution.Ranges

open Text

variable {V : Type u} [DecidableEq V] [Shown V]

def segmentText (s : Segment V) : String :=
  match s.lower, s.upper with
  | none, none => "*"
  | some lower, none => lowerText lower
  | none, some upper => upperText upper
  | some lower, some upper =>
    if lower = upper then s!"=={Shown.text lower.version}"
    else s!"{lowerText lower}, {upperText upper}"
where
  lowerText (e : Endpoint V) : String := (if e.inclusive then ">=" else ">") ++ Shown.text e.version
  upperText (e : Endpoint V) : String := (if e.inclusive then "<=" else "<") ++ Shown.text e.version

/-- The version that a set of two half-lines leaves out between them, if it is only one. -/
def leftOut? (r : Ranges V) : Option V :=
  match r.segments with
  | [⟨none, some upper⟩, ⟨some lower, none⟩] =>
    if upper = lower ∧ upper.inclusive = false then some upper.version else none
  | _ => none

def text (r : Ranges V) : String :=
  match r.segments, leftOut? r with
  | [], _ => "∅"
  | _, some v => s!"!={Shown.text v}"
  | segments, none => " | ".intercalate (segments.map segmentText)

instance : Shown (Ranges V) where
  text := text
  literal r := s!"Ranges({quoted (text r)})"
  isWritable r := r.segments.all fun s =>
    s.lower.all (Shown.isWritable ·.version) && s.upper.all (Shown.isWritable ·.version)

end DependencyResolution.Ranges
