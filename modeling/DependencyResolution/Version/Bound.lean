/-!
# Bounds of intervals of versions

An interval of versions has a lower and an upper bound. A bound is absent, or a version that the
interval includes or excludes. The functions here compare bounds: which of two lower bounds lets less
in, whether one upper bound ends before another, whether the interval between two bounds holds
anything, whether two intervals leave a gap.
-/

namespace DependencyResolution

/-- The version at which an interval ends, and whether the interval includes it. -/
structure Endpoint (V : Type u) where
  version : V
  inclusive : Bool
  deriving DecidableEq

/-- A bound of an interval; without an endpoint the interval is unbounded on that side. -/
abbrev Bound (V : Type u) := Option (Endpoint V)

namespace Bound

variable {V : Type u}

/-- The bound on the other side of the same point: what one interval includes the next excludes. -/
def flip (b : Bound V) : Bound V := b.map fun e => ⟨e.version, !e.inclusive⟩

variable [LT V] [DecidableLT V]

/-- The lower bound that lets less in. -/
def maxLower : Bound V → Bound V → Bound V
  | none, b => b
  | some a, none => some a
  | some a, some b =>
    if a.version < b.version then some b
    else if b.version < a.version then some a
    else some ⟨a.version, a.inclusive && b.inclusive⟩

/-- The upper bound that lets less in. -/
def minUpper : Bound V → Bound V → Bound V
  | none, b => b
  | some a, none => some a
  | some a, some b =>
    if a.version < b.version then some a
    else if b.version < a.version then some b
    else some ⟨a.version, a.inclusive && b.inclusive⟩

/-- The upper bound that lets more in. -/
def maxUpper : Bound V → Bound V → Bound V
  | none, _ => none
  | some _, none => none
  | some a, some b =>
    if a.version < b.version then some b
    else if b.version < a.version then some a
    else some ⟨a.version, a.inclusive || b.inclusive⟩

/-- Whether the first of two upper bounds ends strictly before the second. -/
def endsBefore : Bound V → Bound V → Bool
  | none, _ => false
  | some _, none => true
  | some a, some b =>
    if a.version < b.version then true
    else if b.version < a.version then false
    else !a.inclusive && b.inclusive

/-- Whether something can lie between a lower and an upper bound. -/
def isInhabited : (lower upper : Bound V) → Bool
  | none, _ => true
  | some _, none => true
  | some a, some b =>
    if a.version < b.version then true
    else if b.version < a.version then false
    else a.inclusive && b.inclusive

/-- Whether an interval that ends at the first bound overlaps or abuts one that starts at the
second. -/
def touches : (upper lower : Bound V) → Bool
  | none, _ => true
  | some _, none => true
  | some a, some b =>
    if b.version < a.version then true
    else if a.version < b.version then false
    else a.inclusive || b.inclusive

/-- Whether the first of two lower bounds comes strictly before the second. -/
def startsBefore : Bound V → Bound V → Bool
  | none, none => false
  | none, some _ => true
  | some _, none => false
  | some a, some b =>
    if a.version < b.version then true
    else if b.version < a.version then false
    else a.inclusive && !b.inclusive

/-- Whether a version lies below a lower bound. -/
def excludesBelow [DecidableEq V] : Bound V → V → Bool
  | none, _ => false
  | some e, v => decide (v < e.version) || (decide (v = e.version) && !e.inclusive)

/-- Whether a version lies within an upper bound. -/
def admitsAbove [DecidableEq V] : Bound V → V → Bool
  | none, _ => true
  | some e, v => decide (v < e.version) || (decide (v = e.version) && e.inclusive)

end Bound

end DependencyResolution
