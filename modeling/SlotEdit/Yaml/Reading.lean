import SlotEdit.Yaml.Node
import SlotEdit.Yaml.Scalar
import SlotEdit.Yaml.Loaded

/-!
# Yaml/Reading — the value of a YAML text

`read` gives the value of a text that holds one document at most, or says why it has none.  A merge
key puts the entries of other mappings in front of the mapping's own (`merged`), so that of two
entries of one key its own wins.
-/

namespace SlotEdit.Yaml

variable [Interpreter]

/-! ## Merge keys -/

/-- A scalar has one of the types for which texts stand. -/
def Node.hasType (t : ScalarType) : Node → Bool
  | .scalar none text => text.toString?.bind typeOf? = some t
  | .scalar (some tag) _ => tag = standardPrefix ++ t.name
  | _ => false

/-- The entries a merge key brings: those of a mapping, or of the mappings of a sequence, the last
one first. -/
def mergeEntries : Node → Except Fault (List (Node × Node))
  | .mapping _ _ entries => .ok entries
  | .sequence _ _ items => do
    let parts ← items.mapM fun item =>
      match item with
      | .mapping _ _ entries => .ok entries
      | _ => invalid .mergeOfNoMapping
    pure parts.reverse.flatten
  | _ => invalid .mergeOfNoMapping

/-- A key that is an equals sign is a text. -/
def plainKey (key : Node) : Node :=
  match key with
  | .scalar _ text => if key.hasType .value then .scalar (some textTag) text else key
  | _ => key

mutual
/-- **A node without merge keys**: the entries they bring come first. -/
def merged : Node → Except Fault Node
  | .scalar tag text => .ok (.scalar tag text)
  | .sequence tag name items => (mergedItems items).map (.sequence tag name)
  | .mapping tag name entries => do
    let (brought, own) ← mergedEntries entries
    pure (.mapping tag name (brought ++ own))
  | .again name => .ok (.again name)

/-- Each of some nodes without merge keys. -/
def mergedItems : List Node → Except Fault (List Node)
  | [] => .ok []
  | n :: rest => do
    let head ← merged n
    let tail ← mergedItems rest
    pure (head :: tail)

/-- The entries that merge keys bring, and the others. -/
def mergedEntries :
    List (Node × Node) → Except Fault (List (Node × Node) × List (Node × Node))
  | [] => .ok ([], [])
  | (key, value) :: rest => do
    let k ← merged key
    let v ← merged value
    let (brought, own) ← mergedEntries rest
    if key.hasType .merge then do
      let entries ← mergeEntries v
      pure (entries ++ brought, own)
    else pure (brought, (plainKey k, v) :: own)
end

/-! ## Values -/

/-- The value of a text of a known type. -/
def valueOfType (t : ScalarType) (text : String) : Except Fault Value :=
  match t with
  | .bool => (booleanOf text).map .bool
  | .float => (floatOf text).map .float
  | .int => (intOf text).map .int
  | .null => .ok .null
  | .timestamp => (momentOf text).map .moment
  | .merge => invalid (.unknownTag (standardPrefix ++ "merge"))
  | .value => invalid (.unknownTag (standardPrefix ++ "value"))

/-- The types a tag may ask for. -/
def scalarTypes : List ScalarType := [.bool, .float, .int, .null, .timestamp]

/-- The value of a scalar with a tag. -/
def taggedScalar (tag : String) (text : LooseText) : Except Fault Value :=
  if tag = textTag then .ok (.ofText text)
  else if tag = standardPrefix ++ "binary" then (bytesOf text.shown).map .bytes
  else match scalarTypes.find? fun t => standardPrefix ++ t.name = tag with
    | some t => valueOfType t text.shown
    | none => invalid (.unknownTag tag)

/-- The value of a scalar. -/
def scalarValue (tag : Option String) (text : LooseText) : Except Fault Value :=
  match tag, text.toString?.bind typeOf? with
  | some tag, _ => taggedScalar tag text
  | none, some t => valueOfType t text.shown
  | none, none => .ok (.ofText text)

/-- A collection has one of the tags of its kind, the first of them if it has none. -/
def kindOf (kinds : List String) (tag : Option String) : Except Fault String :=
  match tag with
  | none => .ok (kinds.headD "")
  | some tag =>
    match kinds.find? fun kind => tag = standardPrefix ++ kind with
    | some kind => .ok kind
    | none => invalid (.unsuitableTag tag)

/-- A value that may be a key. -/
def asKey : Loaded → Except Fault Value
  | .scalar v => .ok v
  | _ => invalid .collectionAsKey

/-- Entries as those of a mapping, a later one of the same key winning. -/
def distinctEntries (entries : List (Value × Loaded)) : List (Value × Loaded) :=
  entries.foldl (fun d e => Value.insertEntry d e.1 e.2) []

mutual
/-- **The value of a node** without merge keys. -/
def valueOf : Node → Except Fault Loaded
  | .scalar tag text => (scalarValue tag text).map .scalar
  | .sequence tag name items => do
    if (← kindOf ["seq", "omap", "pairs"] tag) = "seq" then (valuesOf items).map (.list name)
    else (pairsOf items).map (.list name)
  | .mapping tag name entries => do
    let kind ← kindOf ["map", "set"] tag
    let entries ← entriesOf entries
    let entries := distinctEntries entries
    pure (if kind = "map" then .dict name entries else .set (entries.map Prod.fst))
  | .again name => .ok (.again name)

/-- The value of each of some nodes. -/
def valuesOf : List Node → Except Fault (List Loaded)
  | [] => .ok []
  | n :: rest => do
    let head ← valueOf n
    let tail ← valuesOf rest
    pure (head :: tail)

/-- The pairs of a sequence of mappings that have one entry each. -/
def pairsOf : List Node → Except Fault (List Loaded)
  | [] => .ok []
  | .mapping _ _ [(k, v)] :: rest => do
    let first ← valueOf k
    let second ← valueOf v
    let tail ← pairsOf rest
    pure (.pair first second :: tail)
  | _ :: _ => invalid .pairOfNoMapping

/-- The entries of a mapping; collections are no keys. -/
def entriesOf : List (Node × Node) → Except Fault (List (Value × Loaded))
  | [] => .ok []
  | (k, v) :: rest => do
    let key ← valueOf k
    let key ← asKey key
    let value ← valueOf v
    let tail ← entriesOf rest
    pure ((key, value) :: tail)
end

/-- **The value of a text**; one without a document is null. -/
def read (text : String) : Except Fault Loaded := do
  let tokens ← tokens text
  match ← Node.ofTokens? tokens with
  | none => pure (.scalar .null)
  | some n =>
    let n ← merged n
    valueOf n

end SlotEdit.Yaml
