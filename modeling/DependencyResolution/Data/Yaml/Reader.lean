import DependencyResolution.Data.Yaml.Scalar
import DependencyResolution.Data.Yaml.Token

/-!
# Reading YAML

The data tree that the tokens of a YAML text denote. Each function takes a part off the front of a list
of tokens and gives the rest. What is left out, a key or a value or an item, is null. Keys are scalars,
and of several entries with one key the last value counts, in the place of the first. The key `<<`
stands for the entries of other mappings, which come before the entries that are written out.
-/

namespace DependencyResolution.Yaml

/-- Whether a text goes on behind a part of a block that is left out. -/
def endsBlockPart : List Token → Bool
  | .key :: _ => true
  | .value :: _ => true
  | .blockEnd :: _ => true
  | _ => false

/-- Whether a text goes on behind an entry between brackets. -/
def endsFlowEntry : List Token → Bool
  | .comma :: _ => true
  | .closeBrace :: _ => true
  | .closeBracket :: _ => true
  | _ => false

/-- The value of a scalar token. -/
def scalarValue? (text : String) (plain : Bool) : Option Scalar :=
  if plain then plain? text else some (.text text)

/-! ## Entries -/

/-- The key of an entry as it is written. -/
inductive WrittenKey where
  | scalar (s : Scalar)
  /-- The entries of the mappings that are the value are meant. -/
  | merge
  deriving DecidableEq

/-- The key that a scalar token is. -/
def writtenKey? (text : String) (plain : Bool) : Option WrittenKey :=
  if plain && text == mergeKey then some .merge
  else if plain && text == valueKey then some (.scalar (.text text))
  else (scalarValue? text plain).map .scalar

/-- A key, and the rest; it is null if it is left out. What has parts is no key. -/
def takeKey (isLeftOut : Bool) (tokens : List Token) : Option (WrittenKey × List Token) :=
  if isLeftOut then some (.scalar .null, tokens)
  else
    match tokens with
    | .scalar text plain :: rest => (writtenKey? text plain).map (·, rest)
    | _ => none

def entriesOf? : Datum → Option (List (Scalar × Datum))
  | .mapping entries => some entries
  | _ => none

/-- The entries that the value of a merge key stands for: those of a mapping, or those of a list of
mappings, in which the first of several with one key counts. -/
def mergedEntries? : Datum → Option (List (Scalar × Datum))
  | .list items => (items.mapM entriesOf?).map fun mappings => mappings.reverse.flatten
  | value => entriesOf? value

def mappingOf? (entries : List (WrittenKey × Datum)) : Option Datum := do
  let merged ← entries.mapM fun (key, value) =>
    if key = .merge then mergedEntries? value else some []
  let written := entries.filterMap fun (key, value) =>
    match key with
    | .scalar s => some (s, value)
    | .merge => none
  some (.ofEntries (merged.flatten ++ written))

/-! ## Parts of a text -/

mutual

/-- A value, and the rest; `depth` bounds the calls. -/
def takeNode : (depth : Nat) → List Token → Option (Datum × List Token)
  | 0, _ => none
  | depth + 1, tokens =>
    match tokens with
    | .scalar text plain :: rest => (scalarValue? text plain).map fun s => (.scalar s, rest)
    | .mappingStart :: rest => do
      let (entries, rest) ← takeEntries depth rest
      (mappingOf? entries).map (·, rest)
    | .sequenceStart :: rest =>
      match takeItems depth rest with
      | some (items, .blockEnd :: rest) => some (.list items, rest)
      | _ => none
    | .openBracket :: .closeBracket :: rest => some (.list [], rest)
    | .openBracket :: rest =>
      (takeFlowItems depth rest).map fun (items, rest) => (.list items, rest)
    | .openBrace :: .closeBrace :: rest => some (.mapping [], rest)
    | .openBrace :: rest => do
      let (entries, rest) ← takeFlowEntries depth rest
      (mappingOf? entries).map (·, rest)
    | _ => none

/-- A value in a block mapping, and the rest; the items of a list may stand there without a column of
their own. -/
def takePart : (depth : Nat) → List Token → Option (Datum × List Token)
  | 0, _ => none
  | depth + 1, tokens =>
    if endsBlockPart tokens then some (.null, tokens)
    else if tokens.head? = some .item then
      (takeItems depth tokens).map fun (items, rest) => (.list items, rest)
    else takeNode depth tokens

/-- The entries of a block mapping up to its end, and the rest. -/
def takeEntries : (depth : Nat) → List Token → Option (List (WrittenKey × Datum) × List Token)
  | 0, _ => none
  | depth + 1, tokens =>
    match tokens with
    | .blockEnd :: rest => some ([], rest)
    | .key :: rest => do
      let (key, rest) ← takeKey (endsBlockPart rest) rest
      let (value, rest) ←
        match rest with
        | .value :: rest => takePart depth rest
        | rest => some (.null, rest)
      let (entries, rest) ← takeEntries depth rest
      some ((key, value) :: entries, rest)
    | _ => none

/-- The items of a block list, and the rest. -/
def takeItems : (depth : Nat) → List Token → Option (List Datum × List Token)
  | 0, _ => none
  | depth + 1, tokens =>
    match tokens with
    | .item :: rest => do
      let (item, rest) ←
        if endsBlockPart rest || rest.head? = some .item then some (.null, rest)
        else takeNode depth rest
      let (items, rest) ← takeItems depth rest
      some (item :: items, rest)
    | _ => some ([], tokens)

/-- An entry between brackets that starts with a key, and the rest. -/
def takeFlowEntry : (depth : Nat) → List Token → Option ((WrittenKey × Datum) × List Token)
  | 0, _ => none
  | depth + 1, tokens => do
    let (key, rest) ← takeKey (endsFlowEntry tokens || tokens.head? = some .value) tokens
    match rest with
    | .value :: rest =>
      let (value, rest) ←
        if endsFlowEntry rest then some (.null, rest) else takeNode depth rest
      some ((key, value), rest)
    | rest => some ((key, .null), rest)

/-- The items between square brackets up to the closing one, and the rest. An entry with a key is a
mapping of its own. -/
def takeFlowItems : (depth : Nat) → List Token → Option (List Datum × List Token)
  | 0, _ => none
  | depth + 1, tokens => do
    let (item, rest) ←
      match tokens with
      | .key :: rest => do
        let (entry, rest) ← takeFlowEntry depth rest
        (mappingOf? [entry]).map (·, rest)
      | tokens => takeNode depth tokens
    match rest with
    | .comma :: .closeBracket :: rest => some ([item], rest)
    | .comma :: rest =>
      let (items, rest) ← takeFlowItems depth rest
      some (item :: items, rest)
    | .closeBracket :: rest => some ([item], rest)
    | _ => none

/-- The entries between braces up to the closing one, and the rest. -/
def takeFlowEntries : (depth : Nat) → List Token → Option (List (WrittenKey × Datum) × List Token)
  | 0, _ => none
  | depth + 1, tokens => do
    let (entry, rest) ←
      match tokens with
      | .key :: rest => takeFlowEntry depth rest
      | tokens => (takeKey false tokens).map fun (key, rest) => ((key, .null), rest)
    match rest with
    | .comma :: .closeBrace :: rest => some ([entry], rest)
    | .comma :: rest =>
      let (entries, rest) ← takeFlowEntries depth rest
      some (entry :: entries, rest)
    | .closeBrace :: rest => some ([entry], rest)
    | _ => none

end

/-- The value of a document, and the rest. Behind a start marker it may be left out. -/
def takeDocument (depth : Nat) : List Token → Option (Datum × List Token)
  | [] => some (.null, [])
  | .documentStart :: rest =>
    match rest with
    | [] => some (.null, [])
    | .documentStart :: _ => none
    | .documentEnd :: _ => some (.null, rest)
    | _ => takeNode depth rest
  | tokens => takeNode depth tokens

/-- The value that a text of at most one document denotes; without one it is null. Each call takes a
token, or the call that it makes does. -/
def read? (s : String) : Option Datum := do
  let tokens ← Token.scan s.toList
  let (value, rest) ← takeDocument (2 * tokens.length + 2) tokens
  if rest.all (· = .documentEnd) then some value else none

end DependencyResolution.Yaml
