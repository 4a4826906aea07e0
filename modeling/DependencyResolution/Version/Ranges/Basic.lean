import DependencyResolution.Version.Bound
import DependencyResolution.Version.Set

/-!
# Unions of intervals of versions

`Ranges V` is a set of versions of an ordered type as a list of intervals. Sets that are built by the
constructors and operations here are in canonical form: the intervals are inhabited, ascend, and leave
a gap between neighbours, so that equality of lists is equality of sets. `complement` reads off the
gaps, `intersection` sweeps both lists once, and `simplify` gives the least number of intervals that
agrees with a set on a list of known versions.
-/

namespace DependencyResolution

/-- An interval of versions. -/
structure Segment (V : Type u) where
  lower : Bound V
  upper : Bound V
  deriving DecidableEq

/-- A set of versions, as ascending intervals. -/
structure Ranges (V : Type u) where
  segments : List (Segment V)
  deriving DecidableEq

namespace Ranges

variable {V : Type u}

/-! ## Constructors -/

def empty : Ranges V := ⟨[]⟩

def full : Ranges V := ⟨[⟨none, none⟩]⟩

def singleton (v : V) : Ranges V := ⟨[⟨some ⟨v, true⟩, some ⟨v, true⟩⟩]⟩

def atLeast (v : V) : Ranges V := ⟨[⟨some ⟨v, true⟩, none⟩]⟩

def above (v : V) : Ranges V := ⟨[⟨some ⟨v, false⟩, none⟩]⟩

def atMost (v : V) : Ranges V := ⟨[⟨none, some ⟨v, true⟩⟩]⟩

def below (v : V) : Ranges V := ⟨[⟨none, some ⟨v, false⟩⟩]⟩

section order

variable [LT V] [DecidableLT V]

/-- One step of normalization: the next interval, by lower bound, joins the last one that was kept if
they touch. The intervals kept so far come newest first. -/
def joinNext : List (Segment V) → Segment V → List (Segment V)
  | [], s => [s]
  | last :: kept, s =>
    if Bound.touches last.upper s.lower then
      ⟨last.lower, Bound.maxUpper last.upper s.upper⟩ :: kept
    else s :: last :: kept

/-- The set of the versions in any of the given intervals, which may be empty, overlap and come in any
order. -/
def ofSegments (segments : List (Segment V)) : Ranges V :=
  let inhabited := segments.filter fun s => Bound.isInhabited s.lower s.upper
  let ordered := inhabited.mergeSort fun s t => !Bound.startsBefore t.lower s.lower
  ⟨(ordered.foldl joinNext []).reverse⟩

/-- The versions from `lower` on and below `upper`. -/
def between (lower upper : V) : Ranges V := ofSegments [⟨some ⟨lower, true⟩, some ⟨upper, false⟩⟩]

end order

/-! ## Inspection -/

/-- The lowest lower and the highest upper bound of a set that holds something. -/
def boundingRange (r : Ranges V) : Option (Segment V) :=
  match r.segments with
  | [] => none
  | s :: rest => some ⟨s.lower, ((s :: rest).getLast (by simp)).upper⟩

/-- The version of a set that holds exactly one. -/
def asSingleton [DecidableEq V] (r : Ranges V) : Option V :=
  match r.segments with
  | [⟨some lower, some upper⟩] =>
    if lower = upper ∧ lower.inclusive = true then some lower.version else none
  | _ => none

/-- Whether a version is in one of the intervals, which ascend: below the lower bound of one it is in
no later one either. -/
def segmentsContain [LT V] [DecidableLT V] [DecidableEq V] (v : V) : List (Segment V) → Bool
  | [] => false
  | s :: rest =>
    if Bound.excludesBelow s.lower v then false
    else if Bound.admitsAbove s.upper v then true
    else segmentsContain v rest

def contains [LT V] [DecidableLT V] [DecidableEq V] (r : Ranges V) (v : V) : Bool :=
  segmentsContain v r.segments

/-! ## Algebra -/

/-- The gaps above an upper bound, between the intervals that follow it. -/
def gapsAbove (upper : Bound V) : List (Segment V) → List (Segment V)
  | [] =>
    match upper with
    | none => []
    | some _ => [⟨upper.flip, none⟩]
  | s :: rest => ⟨upper.flip, s.lower.flip⟩ :: gapsAbove s.upper rest

/-- The versions outside the set. -/
def complement (r : Ranges V) : Ranges V :=
  match r.segments with
  | [] => full
  | s :: rest =>
    let gaps := gapsAbove s.upper rest
    match s.lower with
    | none => ⟨gaps⟩
    | some _ => ⟨⟨none, s.lower.flip⟩ :: gaps⟩

section order

variable [LT V] [DecidableLT V]

/-- What two intervals have in common, if anything. -/
def meet (s t : Segment V) : List (Segment V) :=
  let lower := Bound.maxLower s.lower t.lower
  let upper := Bound.minUpper s.upper t.upper
  if Bound.isInhabited lower upper then [⟨lower, upper⟩] else []

/-- What the interval `s` has in common with a list of intervals. When `s` ends first, `next` goes on
with the interval that was met last. -/
def sweepOne (s : Segment V) (next : List (Segment V) → List (Segment V)) :
    List (Segment V) → List (Segment V)
  | [] => []
  | t :: rest =>
    meet s t ++
      if Bound.endsBefore s.upper t.upper then next (t :: rest) else sweepOne s next rest

/-- What two ascending lists of intervals have in common, in one sweep over both. -/
def sweep : List (Segment V) → List (Segment V) → List (Segment V)
  | [], _ => []
  | s :: rest, ts => sweepOne s (sweep rest) ts

def intersection (r s : Ranges V) : Ranges V := ⟨sweep r.segments s.segments⟩

end order

/-- The runs of consecutive known versions in `r`, as intervals between the known versions that frame
them. `before` is the bound at the last known version, `opened` the lower bound of the current run. -/
def runs [LT V] [DecidableLT V] [DecidableEq V] (r : Ranges V) :
    (before : Bound V) → (opened : Option (Bound V)) → List V → List (Segment V)
  | _, none, [] => []
  | _, some lower, [] => [⟨lower, none⟩]
  | before, none, v :: rest =>
    if r.contains v then runs r (some ⟨v, false⟩) (some before) rest
    else runs r (some ⟨v, false⟩) none rest
  | _, some lower, v :: rest =>
    if r.contains v then runs r (some ⟨v, false⟩) (some lower) rest
    else ⟨lower, some ⟨v, false⟩⟩ :: runs r (some ⟨v, false⟩) none rest

/-- A set of few intervals that holds the same of the known versions, which ascend. A set that holds
none of them stays as it is. -/
def simplify [LT V] [DecidableLT V] [DecidableEq V] (r : Ranges V) (known : List V) : Ranges V :=
  match runs r none none known with
  | [] => r
  | segments => ⟨segments⟩

instance [LT V] [DecidableLT V] [DecidableEq V] : VersionSet (Ranges V) V where
  empty := empty
  full := full
  singleton := singleton
  complement := complement
  intersection := intersection
  contains := contains
  simplify := simplify

end Ranges

end DependencyResolution
