import SlotEdit.Syntax.Node
import SlotEdit.Syntax.GrammarTree
import SlotEdit.Json.Grammar
import SlotEdit.Json.Decode

/-!
# Json/Tree — JSON texts as syntax trees

`ofGrammar` makes a syntax tree of the concrete one, whatever has read that, when it holds exactly one
value and no comment; each literal carries the value it decodes to.  `keys`, `property?` and `value?`
read objects off the tree, the last of several properties of one key winning.
-/

namespace SlotEdit.Json

variable [Interpreter]

/-- Why a text has no JSON tree. -/
inductive TreeFault
  | invalid
  | comment (offset : Nat)
  | noValue (offset : Nat)
  | trailing (text : String) (offset : Nat)
  | unexpected (construct : String) (offset : Nat)
  | noProperty (offset : Nat)
  | keyNoString (offset : Nat)
  | badLiteral (kind text : String) (fault : Fault) (offset : Nat)
  | tooDeep

/-- The wording of a refused text. -/
def TreeFault.message : TreeFault → String
  | .invalid => "Invalid JSON"
  | .comment offset => "Comments are not allowed in JSON" ++ atOffset offset
  | .noValue offset => "Expected a value" ++ atOffset offset
  | .trailing text offset => "Unexpected trailing " ++ quoted (slice text 0 20) ++ atOffset offset
  | .unexpected construct offset => "Unexpected " ++ construct ++ atOffset offset
  | .noProperty offset => "Expected a property" ++ atOffset offset
  | .keyNoString offset => "Property keys must be strings" ++ atOffset offset
  | .badLiteral kind text fault offset =>
    "Invalid " ++ kind ++ " literal " ++ slice text 0 40 ++ ": " ++ fault.message text
      ++ atOffset offset
  | .tooDeep => "maximum recursion depth exceeded"

/-- The frames for a tree.  A list takes two of them, one for itself and one for its items; an object
takes one more, for the property. -/
def treeFrames : Nat := Interpreter.jsonFrames

/-- A literal decoded on its own. -/
def literalValue (text : List Char) (kind : String) (span : Span) : Except TreeFault Value :=
  let literal := String.ofList (span.of text)
  match decode literal with
  | .ok v => .ok v
  | .error fault => .error (.badLiteral kind literal fault span.start)

/-- A string literal as a node. -/
def stringNode (text : List Char) (span : Span) : Except TreeFault Node := do
  match (← literalValue text "string" span).text? with
  | some t => pure (.mk (.json (.string t)) span [])
  | none => .error .invalid

/-- A member of an object as a node, from its key to the end of its value. -/
def propertyNode (text : List Char) (value : GrammarTree → Except TreeFault Node)
    (pair : GrammarTree) : Except TreeFault Node :=
  match pair.childWithRole? "key", pair.childWithRole? "value" with
  | some key, some v =>
    if pair.construct != "pair" then .error (.noProperty pair.span.start)
    else if key.construct != "string" then .error (.keyNoString key.span.start)
    else do
      let keyNode ← stringNode text key.span
      let valueNode ← value v
      pure (.mk (.json .property) ⟨key.span.start, valueNode.span.stop⟩ [keyNode, valueNode])
  | _, _ => .error (.noProperty pair.span.start)

/-- **A value of the grammar as a node**, with `frames` left for what nests in it. -/
def valueNode (text : List Char) (frames : Nat) (tree : GrammarTree) : Except TreeFault Node :=
  match tree.construct with
  | "object" =>
    match frames with
    | frames + 3 => do
      let properties ← tree.namedChildren.mapM (propertyNode text (valueNode text frames))
      pure (.mk (.json .object) tree.span properties)
    | _ => .error .tooDeep
  | "array" =>
    match frames with
    | frames + 2 => do
      let items ← tree.namedChildren.mapM (valueNode text frames)
      pure (.mk (.json .array) tree.span items)
    | _ => .error .tooDeep
  | "string" => stringNode text tree.span
  | "number" => do
    let v ← literalValue text "number" tree.span
    pure (.mk (.json (.number v)) tree.span [])
  | "true" => pure (.mk (.json (.boolean true)) tree.span [])
  | "false" => pure (.mk (.json (.boolean false)) tree.span [])
  | "null" => pure (.mk (.json .null) tree.span [])
  | construct => .error (.unexpected construct tree.span.start)

/-- The tree of a document of the grammar: no comment anywhere, and exactly one value. -/
def ofGrammar (text : String) (document : GrammarTree) : Except TreeFault Node :=
  match document.walk.find? fun t => t.construct == "comment" with
  | some comment => .error (.comment comment.span.start)
  | none =>
    match document.namedChildren with
    | [] => .error (.noValue text.length)
    | [value] => valueNode text.toList treeFrames value
    | _ :: second :: _ =>
      .error (.trailing (slice text second.span.start second.span.stop) second.span.start)

/-- The tree of a text whose concrete tree some reader gives. -/
def ofTextBy (read : String → Option GrammarTree) (text : String) : Except TreeFault Node :=
  match read text with
  | none => .error .invalid
  | some document => ofGrammar text document

/-- **The syntax tree of a JSON text.** -/
def ofText (text : String) : Except TreeFault Node := ofTextBy Grammar.grammarTree? text

/-! ## Reading objects -/

/-- The node is an object. -/
def isObject (n : Node) : Bool := n.form matches .json .object

/-- The key of a property. -/
def key? (n : Node) : Option LooseText :=
  match n with
  | .mk (.json .property) _ (.mk (.json (.string key)) _ _ :: _) => some key
  | _ => none

/-- The value node of a property. -/
def propertyValue? (n : Node) : Option Node :=
  match n with
  | .mk (.json .property) _ [_, value] => some value
  | _ => none

/-- The property has a key. -/
def hasKey (key : LooseText) (property : Node) : Bool := key? property == some key

/-- The keys of an object, in source order. -/
def keys (object : Node) : List LooseText := object.children.filterMap key?

/-- **The last property with a key.** -/
def property? (object : Node) (key : String) : Option Node :=
  object.children.reverse.find? (hasKey key)

mutual
/-- **The value a node stands for**; properties have none. -/
def value? : Node → Option Value
  | .mk (.json .object) _ properties => (entries? properties).map Value.dictOfEntries
  | .mk (.json .array) _ items => (values? items).map .list
  | .mk (.json (.string t)) _ _ => some (.ofText t)
  | .mk (.json (.number v)) _ _ => some v
  | .mk (.json (.boolean b)) _ _ => some (.bool b)
  | .mk (.json .null) _ _ => some .null
  | _ => none

/-- The values of a list of nodes. -/
def values? : List Node → Option (List Value)
  | [] => some []
  | n :: rest => do
    let v ← value? n
    let vs ← values? rest
    pure (v :: vs)

/-- The keys and values of a list of properties. -/
def entries? : List Node → Option (List (Value × Value))
  | [] => some []
  | .mk (.json .property) _ [.mk (.json (.string key)) _ _, value] :: rest => do
    let v ← value? value
    let es ← entries? rest
    pure ((.ofText key, v) :: es)
  | _ :: _ => none
end

end SlotEdit.Json
