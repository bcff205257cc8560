import SlotEdit.Interpreter
import SlotEdit.Syntax.Node
import SlotEdit.Css.Grammar

/-!
# Css/Tree — style sheets as syntax trees

`ofGrammar` makes a syntax tree of the concrete one, whatever has read that: rules of a selector and a
block, at-rules of a prelude and perhaps a list of items, declarations of a name and a value.  `rules`,
`declarations` and `declaration?` read it, the last declaration of a property winning.
-/

namespace SlotEdit.Css

variable [Interpreter]

/-- Why a text has no style sheet tree. -/
inductive TreeFault
  | invalid
  | declarationOutsideRule (offset : Nat)
  | unexpected (construct : String) (offset : Nat)
  | noSelectorAndBlock (offset : Nat)
  | noPropertyAndValue (offset : Nat)
  | tooDeep
deriving DecidableEq, Repr

/-- The wording of a refused style sheet. -/
def TreeFault.message : TreeFault → String
  | .invalid => "Invalid CSS"
  | .declarationOutsideRule offset => "Declaration outside of a rule" ++ atOffset offset
  | .unexpected construct offset => "Unexpected " ++ construct ++ atOffset offset
  | .noSelectorAndBlock offset =>
    "Expected a selector followed by a block" ++ atOffset offset
  | .noPropertyAndValue offset => "Expected `property: value`" ++ atOffset offset
  | .tooDeep => "maximum recursion depth exceeded"

/-- How deep blocks may nest. -/
def treeDepth : Nat := Interpreter.cssLevels

/-- The children of a node without the block comments. -/
def significant (children : List GrammarTree) : List GrammarTree :=
  children.filter fun t => t.construct != "comment"

/-- The smallest span from the start of the first tree to the end of the last, or an empty one. -/
def spanOf (trees : List GrammarTree) (whenNone : Nat) : Span :=
  match trees with
  | [] => ⟨whenNone, whenNone⟩
  | first :: rest => ⟨first.span.start, (rest.getLastD first).span.stop⟩

/-- A declaration as a node; its span takes the semicolon in. -/
def declarationNode (tree : GrammarTree) : Except TreeFault Node :=
  match significant tree.children with
  | name :: colon :: rest =>
    let hasSemicolon := (rest.getLastD colon).construct == ";"
    let values := if hasSemicolon then rest.dropLast else rest
    if name.construct == "property_name" && colon.construct == ":" && !values.isEmpty then
      let valueSpan := spanOf values 0
      let stop := if hasSemicolon then tree.span.stop else valueSpan.stop
      .ok (.mk (.css (.declaration hasSemicolon)) ⟨name.span.start, stop⟩
        [.mk (.css .propertyName) name.span [], .mk (.css .propertyValue) valueSpan []])
    else .error (.noPropertyAndValue tree.span.start)
  | _ => .error (.noPropertyAndValue tree.span.start)

/-- A rule as a node: a selector and a block. -/
def ruleNode (block : GrammarTree → Except TreeFault Node) (tree : GrammarTree) :
    Except TreeFault Node :=
  match significant tree.children with
  | [head, body] =>
    if body.construct == "block" then do
      let blockNode ← block body
      pure (.mk (.css .rule) ⟨head.span.start, blockNode.span.stop⟩
        [.mk (.css .selector) head.span [], blockNode])
    else .error (.noSelectorAndBlock tree.span.start)
  | _ => .error (.noSelectorAndBlock tree.span.start)

/-- The construct is the body of an at-rule. -/
def isBody (tree : GrammarTree) : Bool :=
  tree.construct == "block" || tree.construct == "keyframe_block_list"

/-- What starts with an at sign is an at-rule, whatever the grammar calls it. -/
def startsAtRule (text : List Char) (tree : GrammarTree) : Bool :=
  tree.children.head?.any fun first => (first.span.of text).head? == some '@'

/-- An at-rule as a node: its prelude, and the list of its items if it has a body. -/
def atRuleNode (text : List Char) (list : GrammarTree → Except TreeFault Node) (tree : GrammarTree) :
    Except TreeFault Node :=
  match significant tree.children with
  | [] => .error (.unexpected tree.construct tree.span.start)
  | keyword :: rest =>
    let last := rest.getLast?
    let body := last.filter isBody
    let terminated := body.isSome || (last.map construct).getD "" == ";"
    let prelude := Node.mk (.css .atRulePrelude)
      (spanOf (if terminated then rest.dropLast else rest) keyword.span.stop) []
    let node (children : List Node) :=
      Node.mk (.css (.atRule (String.ofList (keyword.span.of text)))) tree.span children
    match body with
    | none => .ok (node [prelude])
    | some body => do
      let items ← list body
      pure (node [prelude, items])
where
  /-- The construct of a tree. -/
  construct (t : GrammarTree) : String := t.construct

/-- The node is a declaration. -/
def isDeclaration (n : Node) : Bool := n.form matches .css (.declaration _)

/-- The children of a block: its declarations and its rules, in the order they start in. -/
def blockChildren (items : List Node) : List Node :=
  (items.filter isDeclaration ++ items.filter fun n => !isDeclaration n).mergeSort
    fun a b => a.span.start ≤ b.span.start

/-- **A rule, declaration or at-rule as a node**, with blocks nested at most `depth` deep. -/
def itemNode (text : List Char) (depth : Nat) (tree : GrammarTree) : Except TreeFault Node :=
  match depth with
  | 0 => .error .tooDeep
  | depth + 1 =>
    let items (body : GrammarTree) : Except TreeFault (List Node) :=
      (significant body.namedChildren).mapM (itemNode text depth)
    let block (body : GrammarTree) : Except TreeFault Node := do
      pure (.mk (.css .declarationBlock) body.span (blockChildren (← items body)))
    let list (body : GrammarTree) : Except TreeFault Node := do
      pure (.mk (.css .ruleList) body.span (← items body))
    match tree.construct with
    | "rule_set" => ruleNode block tree
    | "keyframe_block" => ruleNode block tree
    | "declaration" => declarationNode tree
    | construct =>
      if startsAtRule text tree then atRuleNode text list tree
      else .error (.unexpected construct tree.span.start)

/-- An item outside all rules, which must not be a declaration. -/
def outerNode (text : List Char) (tree : GrammarTree) : Except TreeFault Node :=
  if tree.construct == "declaration" then .error (.declarationOutsideRule tree.span.start)
  else itemNode text treeDepth tree

/-- The tree of a style sheet of the grammar. -/
def ofGrammar (text : String) (sheet : GrammarTree) : Except TreeFault Node := do
  let items ← (significant sheet.namedChildren).mapM (outerNode text.toList)
  pure (.mk (.css .stylesheet) ⟨0, text.length⟩ items)

/-- The tree of a text whose concrete tree some reader gives. -/
def ofTextBy (read : String → Option GrammarTree) (text : String) : Except TreeFault Node :=
  match read text with
  | none => .error .invalid
  | some sheet => ofGrammar text sheet

/-- **The syntax tree of a style sheet.** -/
def ofText (text : String) : Except TreeFault Node := ofTextBy Grammar.grammarTree? text

/-! ## Reading a tree -/

/-- The node is a rule. -/
def isRule (n : Node) : Bool := n.form matches .css .rule

/-- The rules of a tree, those nested in other rules and at-rules included. -/
def rules (root : Node) : List Node := root.walk.filter isRule

/-- The selector of a rule. -/
def selectorOf? (rule : Node) : Option Node :=
  match rule with
  | .mk (.css .rule) _ [selector, _] => some selector
  | _ => none

/-- The block of a rule. -/
def blockOf? (rule : Node) : Option Node :=
  match rule with
  | .mk (.css .rule) _ [_, block] => some block
  | _ => none

/-- The declarations of a block. -/
def declarations (block : Node) : List Node := block.children.filter isDeclaration

/-- The rules and at-rules of a block. -/
def nestedRules (block : Node) : List Node := block.children.filter fun n => !isDeclaration n

/-- The name node of a declaration. -/
def propertyOf? (declaration : Node) : Option Node := declaration.children.head?

/-- The value node of a declaration. -/
def valueOf? (declaration : Node) : Option Node := declaration.children[1]?

/-- The declaration ends with a semicolon. -/
def hasSemicolon (declaration : Node) : Bool := declaration.form matches .css (.declaration true)

/-- The name of a declaration's property. -/
def propertyName (source : String) (declaration : Node) : String :=
  ((propertyOf? declaration).map (Node.text source)).getD ""

/-- **The last declaration of a property.** -/
def declaration? (source : String) (block : Node) (property : String) : Option Node :=
  (declarations block).reverse.find? fun d => propertyName source d == property

/-- The selector of a rule with one space between words. -/
def normalizedSelector? (source : String) (rule : Node) : Option String :=
  (selectorOf? rule).map fun s => Node.collapseBlanks (s.text source)

end SlotEdit.Css
