import DependencyResolution.Number.Shortest
import DependencyResolution.Text.Shown

/-!
# Data trees

What a data file holds: scalars, lists, and mappings from scalars to data. A mapping keeps the order in
which its keys first came. Truth values and numbers are the same key when they are the same number: `1`,
`1.0` and `true` are one key. The float that stands for no number is the same key as itself.
-/

namespace DependencyResolution

open Text

/-- A value without parts. -/
inductive Scalar where
  | null
  | bool (b : Bool)
  | integer (n : Int)
  | float (x : Double)
  | text (s : String)
  deriving DecidableEq

/-- A value. -/
inductive Datum where
  | scalar (s : Scalar)
  | list (items : List Datum)
  | mapping (entries : List (Scalar × Datum))

namespace Scalar

/-- The whole number that a truth value or number equals, if any. -/
def toInt? : Scalar → Option Int
  | bool b => some (if b then 1 else 0)
  | integer n => some n
  | float x => x.toInt?
  | _ => none

/-- Whether two scalars are the same key. -/
def same : Scalar → Scalar → Bool
  | null, null => true
  | text s, text t => decide (s = t)
  | float x, float y => x.sameKey y
  | s, t =>
    match s.toInt?, t.toInt? with
    | some m, some n => decide (m = n)
    | _, _ => false

instance : Shown Scalar where
  text
    | null => "None"
    | bool b => if b then "True" else "False"
    | integer n => Shown.text n
    | float x => x.text
    | text s => s
  literal
    | null => "None"
    | bool b => if b then "True" else "False"
    | integer n => Shown.text n
    | float x => x.text
    | text s => quoted s
  isWritable
    | integer n => isShort n
    | _ => true

end Scalar

namespace Datum

def null : Datum := scalar .null

def ofString (s : String) : Datum := scalar (.text s)

/-- The entries with the value of a key set: in place if the key is there, else at the end. -/
def write (key : Scalar) (value : Datum) : List (Scalar × Datum) → List (Scalar × Datum)
  | [] => [(key, value)]
  | (k, v) :: rest => if k.same key then (k, value) :: rest else (k, v) :: write key value rest

/-- The mapping that results from writing the given entries in order. -/
def ofEntries (entries : List (Scalar × Datum)) : Datum :=
  mapping (entries.foldl (fun m e => write e.1 e.2 m) [])

mutual

def literal : Datum → String
  | scalar s => Shown.literal s
  | list items => "[" ++ ", ".intercalate (literals items) ++ "]"
  | mapping entries => "\x7b" ++ ", ".intercalate (entryLiterals entries) ++ "\x7d"

def literals : List Datum → List String
  | [] => []
  | d :: rest => literal d :: literals rest

def entryLiterals : List (Scalar × Datum) → List String
  | [] => []
  | (k, d) :: rest => (Shown.literal k ++ ": " ++ literal d) :: entryLiterals rest

end

mutual

/-- Whether the numbers in the data have few enough digits to be written. -/
def isWritable : Datum → Bool
  | scalar s => Shown.isWritable s
  | list items => areWritable items
  | mapping entries => areEntriesWritable entries

def areWritable : List Datum → Bool
  | [] => true
  | d :: rest => isWritable d && areWritable rest

def areEntriesWritable : List (Scalar × Datum) → Bool
  | [] => true
  | (k, d) :: rest => Shown.isWritable k && isWritable d && areEntriesWritable rest

end

instance : Shown Datum where
  text
    | scalar s => Shown.text s
    | d => d.literal
  literal := literal
  isWritable := isWritable

end Datum

end DependencyResolution
