import SlotEdit.Interpreter
import SlotEdit.Syntax.Node
import SlotEdit.Script.Block
import SlotEdit.Script.Literal

/-!
# Script/Tree — Python texts as syntax trees

`ofGrammar` makes a tree of a small set of forms from the concrete syntax, whatever has read that.
Comments have no node, and constructs that only group others give way to their children; names of
definitions and keyword arguments become part of the form; decorators become the first children of
what they decorate; literals are read as values.
-/

namespace SlotEdit.Script

variable [Interpreter]

/-- Why a text has no tree. -/
inductive TreeFault
  | invalid
  | literal (text : String) (fault : LiteralFault) (offset : Nat)
  | undecorated (offset : Nat)
  | tooDeep
deriving DecidableEq, Repr

/-- The wording of a refused text. -/
def TreeFault.message : TreeFault → String
  | .invalid => "Invalid Python"
  | .literal text fault offset =>
    "Invalid literal " ++ String.ofList (text.toList.take 40) ++ ": " ++ fault.message
      ++ atOffset offset
  | .undecorated offset => "Decorators without a definition" ++ atOffset offset
  | .tooDeep => "maximum recursion depth exceeded"

/-- How many levels a tree may have; a construct that makes a node takes two, one that gives way to
its children takes one. -/
def levelLimit : Nat := Interpreter.scriptFrames

/-- The constructs that give way to their children. -/
def givesWay (construct : String) : Bool :=
  ["expression_statement", "block", "parameters", "lambda_parameters", "argument_list",
   "decorator", "parenthesized_expression", "pair", "type"].contains construct

/-- The constructs that have no node, wherever they stand. -/
def isSkipped (construct : String) : Bool := construct == "comment" || construct == "line_continuation"

/-- The constructs whose name is part of their form. -/
def isNamedConstruct (construct : String) : Bool :=
  ["function_definition", "class_definition", "keyword_argument"].contains construct

/-- The form of a construct, given the name it has if it has one. -/
def formOf (construct name : String) : PythonForm :=
  match construct with
  | "module" => .module
  | "assignment" | "augmented_assignment" => .assignment
  | "function_definition" => .functionDefinition name
  | "class_definition" => .classDefinition name
  | "return_statement" => .returnStatement
  | "import_statement" | "import_from_statement" | "future_import_statement" => .importStatement
  | "call" => .functionCall
  | "keyword_argument" => .keywordArgument name
  | "attribute" => .namedAccess
  | "subscript" => .indexedAccess
  | "identifier" => .identifier name
  | "list" => .list
  | "tuple" | "expression_list" | "pattern_list" => .tuple
  | "dictionary" => .dictionary
  | "binary_operator" => .binaryOperation
  | "comparison_operator" => .comparison
  | _ => .other construct

/-- A literal with a formatted part has no value of its own. -/
def isFormatted (source : String) (tree : GrammarTree) : Bool :=
  tree.walk.any fun t => t.construct == "string_start"
    && (slice source t.span.start t.span.stop).toList.any fun c => c == 'f' || c == 'F'

/-- The value of a literal construct. -/
def valueOf (source : String) (tree : GrammarTree) : Except TreeFault Value :=
  let text := slice source tree.span.start tree.span.stop
  (literalValue text).mapError fun fault => .literal text fault tree.span.start

/-- The smallest span that holds a span and the spans of nodes. -/
def covering (span : Span) (nodes : List Node) : Span :=
  nodes.foldl (fun s n => s.join n.span) span

/-- The text that names a construct: that of its name, if it has one, or all of it. -/
def nameText (source : String) (t : GrammarTree) : String :=
  let name := if isNamedConstruct t.construct then t.childWithRole? "name" else none
  let span := (name.map GrammarTree.span).getD t.span
  slice source span.start span.stop

/-- Which children of a construct have nodes. -/
inductive Kept
  | all
  | allButName
  | decorators
deriving DecidableEq, Repr

namespace Kept

/-- A construct keeps its children, but for the name that is part of its form. -/
def ofConstruct (construct : String) : Kept := if isNamedConstruct construct then .allButName else .all

/-- The child has a node. -/
def keeps (k : Kept) (t : GrammarTree) : Bool :=
  t.isNamed && !isSkipped t.construct && match k with
    | .all => true
    | .allButName => t.role != "name"
    | .decorators => t.construct == "decorator"

/-- What is kept behind a child: only the first name is left out. -/
def behind (k : Kept) (t : GrammarTree) : Kept :=
  if k = .allButName ∧ t.role = "name" then .all else k

end Kept

mutual
/-- **The node of a construct**, with `levels` left below it. -/
def nodeOf (source : String) (levels : Nat) : GrammarTree → Except TreeFault Node
  | .node construct named role span children => do
    let tree := GrammarTree.node construct named role span children
    if levels < 2 then .error .tooDeep
    else
      let leaf (form : PythonForm) : Except TreeFault Node := .ok (.mk (.python form) span [])
      match construct with
      | "string" | "concatenated_string" =>
        if isFormatted source tree then leaf (.string .null)
        else (valueOf source tree).bind fun value => leaf (.string value)
      | "integer" | "float" => (valueOf source tree).bind fun value => leaf (.number value)
      | "true" => leaf (.boolean true)
      | "false" => leaf (.boolean false)
      | "none" => leaf .none
      | "decorated_definition" =>
        let definition ← definitionOf source (levels - 2) span.start children
        let decorators ← nodesOf source (levels - 2) .decorators children
        match definition with
        | .mk form _ parts =>
          let all := decorators ++ parts
          pure (.mk form (covering span all) all)
      | _ =>
        let parts ← nodesOf source (levels - 2) (.ofConstruct construct) children
        pure (.mk (.python (formOf construct (nameText source tree))) (covering span parts) parts)

/-- The node of the definition among the children of a decorated one. -/
def definitionOf (source : String) (levels offset : Nat) :
    List GrammarTree → Except TreeFault Node
  | [] => .error (.undecorated offset)
  | t :: rest =>
    if t.role == "definition" then nodeOf source levels t
    else definitionOf source levels offset rest

/-- The nodes of the children that are kept, those that only group others replaced by theirs. -/
def nodesOf (source : String) (levels : Nat) (kept : Kept) :
    List GrammarTree → Except TreeFault (List Node)
  | [] => .ok []
  | .node construct named role span children :: rest => do
    let tree := GrammarTree.node construct named role span children
    let first ← (if !kept.keeps tree then pure []
      else if !givesWay construct then (nodeOf source levels tree).map fun n => [n]
      else if levels = 0 then .error .tooDeep
      else nodesOf source (levels - 1) .all children)
    let more ← nodesOf source levels (kept.behind tree) rest
    pure (first ++ more)
end

/-- **The tree of a concrete tree**, over all of the text. -/
def ofGrammar (text : String) (tree : GrammarTree) : Except TreeFault Node := do
  let parts ← nodesOf text levelLimit .all tree.children
  let whole : Span := ⟨0, text.length⟩
  pure (.mk (.python .module) (covering whole parts) parts)

/-- The tree of a text whose concrete tree some reader gives. -/
def ofTextBy (read : String → Option GrammarTree) (text : String) : Except TreeFault Node :=
  match read text with
  | none => .error .invalid
  | some tree => ofGrammar text tree

/-- **The syntax tree of a Python text.** -/
def ofText (text : String) : Except TreeFault Node := ofTextBy grammarTree? text

end SlotEdit.Script
