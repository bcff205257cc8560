import SlotEdit.Value
import SlotEdit.Text.Lines
import SlotEdit.Syntax.Span

/-!
# Syntax/Node — syntax trees of all languages

A `Node` is a place in a document with a `Form`, what it stands for in its language, and children
in source order.  `walk` lists a tree parents first; `text` and `range` read a node against the
text it came from.
-/

namespace SlotEdit

/-- The forms of JSON nodes; literals carry the value they are read as. -/
inductive JsonForm
  | object
  | array
  | property
  | string (value : LooseText)
  | number (value : Value)
  | boolean (value : Bool)
  | null
deriving Repr, Inhabited

/-- The forms of style sheet nodes. -/
inductive CssForm
  | stylesheet
  | rule
  | selector
  | declarationBlock
  | declaration (hasSemicolon : Bool)
  | propertyName
  | propertyValue
  | atRule (name : String)
  | atRulePrelude
  | ruleList
deriving DecidableEq, Repr, Inhabited

/-- The forms of arithmetic nodes. -/
inductive MathForm
  | number (value : Value)
  | variable (name : String)
  | sum
  | difference
  | multiplication
  | division
  | exponent
  | negation
  | parenthesis
  | functionCall
deriving Repr, Inhabited

/-- The forms of Python nodes.  Definitions and keyword arguments carry their name; constructs
outside the set are `other` and carry the name of the grammar's construct. -/
inductive PythonForm
  | module
  | assignment
  | functionDefinition (name : String)
  | classDefinition (name : String)
  | returnStatement
  | importStatement
  | functionCall
  | keywordArgument (name : String)
  | namedAccess
  | indexedAccess
  | identifier (name : String)
  | string (value : Value)
  | number (value : Value)
  | boolean (value : Bool)
  | none
  | list
  | tuple
  | dictionary
  | binaryOperation
  | comparison
  | other (construct : String)
deriving Repr, Inhabited

/-- What a node stands for. -/
inductive Form
  | error (message : String)
  | text
  | line (index : Nat)
  | json (form : JsonForm)
  | css (form : CssForm)
  | math (form : MathForm)
  | python (form : PythonForm)
deriving Repr, Inhabited

/-- The type name of a JSON form. -/
def JsonForm.typeName : JsonForm → String
  | .object => "Object"
  | .array => "Array"
  | .property => "Property"
  | .string _ => "String"
  | .number _ => "Number"
  | .boolean _ => "Boolean"
  | .null => "Null"

/-- The type name of a style sheet form. -/
def CssForm.typeName : CssForm → String
  | .stylesheet => "Stylesheet"
  | .rule => "Rule"
  | .selector => "Selector"
  | .declarationBlock => "DeclarationBlock"
  | .declaration _ => "Declaration"
  | .propertyName => "PropertyName"
  | .propertyValue => "PropertyValue"
  | .atRule _ => "AtRule"
  | .atRulePrelude => "AtRulePrelude"
  | .ruleList => "RuleList"

/-- The type name of an arithmetic form. -/
def MathForm.typeName : MathForm → String
  | .number _ => "Number"
  | .variable _ => "Variable"
  | .sum => "Sum"
  | .difference => "Difference"
  | .multiplication => "Multiplication"
  | .division => "Division"
  | .exponent => "Exponent"
  | .negation => "Negation"
  | .parenthesis => "Parenthesis"
  | .functionCall => "FunctionCall"

/-- The type name of a Python form. -/
def PythonForm.typeName : PythonForm → String
  | .module => "Module"
  | .assignment => "Assignment"
  | .functionDefinition _ => "FunctionDefinition"
  | .classDefinition _ => "ClassDefinition"
  | .returnStatement => "Return"
  | .importStatement => "Import"
  | .functionCall => "FunctionCall"
  | .keywordArgument _ => "KeywordArgument"
  | .namedAccess => "NamedAccess"
  | .indexedAccess => "IndexedAccess"
  | .identifier _ => "Identifier"
  | .string _ => "String"
  | .number _ => "Number"
  | .boolean _ => "Boolean"
  | .none => "None"
  | .list => "List"
  | .tuple => "Tuple"
  | .dictionary => "Dictionary"
  | .binaryOperation => "BinaryOperation"
  | .comparison => "Comparison"
  | .other _ => "Other"

/-- The type name that patterns ask for. -/
def Form.typeName : Form → String
  | .error _ => "Error"
  | .text => "Text"
  | .line _ => "Line"
  | .json f => f.typeName
  | .css f => f.typeName
  | .math f => f.typeName
  | .python f => f.typeName

/-- **A node of a syntax tree**: its form, the offsets it stands on, and its children in source
order. -/
inductive Node
  | mk (form : Form) (span : Span) (children : List Node)
deriving Repr, Inhabited

namespace Node

/-- What the node stands for. -/
def form : Node → Form
  | .mk f _ _ => f

/-- The offsets the node stands on. -/
def span : Node → Span
  | .mk _ s _ => s

/-- The children in source order. -/
def children : Node → List Node
  | .mk _ _ cs => cs

/-- The type name that patterns ask for. -/
def typeName (n : Node) : String := n.form.typeName

/-- A node without children. -/
def isLeaf (n : Node) : Bool := n.children.isEmpty

/-- The text the node stands on. -/
def text (source : String) (n : Node) : String := slice source n.span.start n.span.stop

/-- The rows and columns the node stands on. -/
def range (lines : LineTable) (n : Node) : TextRange := lines.rangeOf n.span.start n.span.stop

mutual
/-- **The node and all its descendants, parents first.** -/
def walk : Node → List Node
  | .mk f s cs => .mk f s cs :: walkAll cs

/-- The nodes of a list of trees, in order. -/
def walkAll : List Node → List Node
  | [] => []
  | n :: rest => walk n ++ walkAll rest
end

/-- The name a node goes by, for the forms that have one; property names of a style sheet are
named by their text. -/
def name? (source : String) (n : Node) : Option String :=
  match n.form with
  | .math (.variable name) => some name
  | .css .propertyName => some (n.text source)
  | .css (.atRule name) => some name
  | .python (.identifier name) => some name
  | .python (.functionDefinition name) => some name
  | .python (.classDefinition name) => some name
  | .python (.keywordArgument name) => some name
  | _ => none

/-- The words of a text with one space between each two. -/
def collapseBlanks (s : String) : String :=
  " ".intercalate ((s.toList.splitBy fun a b => isBlank a == isBlank b).filterMap fun word =>
    match word with
    | c :: _ => if isBlank c then none else some (String.ofList word)
    | [] => none)

end Node

end SlotEdit
