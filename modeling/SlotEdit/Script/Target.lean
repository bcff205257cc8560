import SlotEdit.Script.StringLiteral

/-!
# Script/Target — expressions that can be assigned to

A target is read as an expression first.  `targetOf?` tells whether the expression can stand to the
left of an assignment, and gives the node it is there: names, attributes and subscripts as they
are, lists and tuples as patterns of targets.
-/

namespace SlotEdit.Script

/-- The constructs that a star may stand before in a target. -/
def isPlace (t : GrammarTree) : Bool := ["identifier", "subscript", "attribute"].contains t.construct

mutual
/-- **The target an expression is, if it is one.** -/
def targetOf? : GrammarTree → Option GrammarTree
  | .node construct named role span children =>
    let all (pattern : String) : Option GrammarTree :=
      (targetsOf? children).map fun targets => .node pattern named role span targets
    match construct with
    | "identifier" | "subscript" | "attribute" => some (.node construct named role span children)
    | "tuple" | "parenthesized_expression" => all "tuple_pattern"
    | "list" => all "list_pattern"
    | "list_splat" =>
      if children.all isPlace then some (.node "list_splat_pattern" named role span children)
      else none
    | _ => none

/-- The targets of several expressions, if all are. -/
def targetsOf? : List GrammarTree → Option (List GrammarTree)
  | [] => some []
  | t :: rest => do
    let first ← targetOf? t
    let more ← targetsOf? rest
    pure (first :: more)
end

/-- Expressions, whether there is a comma between or behind them, whether one is behind the last,
and the cursor behind all. -/
structure Several where
  trees : List GrammarTree
  comma : Bool
  trailing : Bool
  last : Cursor

/-- Several expressions as one node; one without a comma is that node itself. -/
def Several.node (s : Several) (construct : String) (first : Cursor) : Option GrammarTree :=
  match s.trees, s.comma with
  | [only], false => some only
  | [], _ => none
  | trees, _ => some (nodeOver construct first s.last trees)

/-- Several expressions as the target of an assignment. -/
def Several.target? (s : Several) (first : Cursor) : Option GrammarTree := do
  let targets ← targetsOf? s.trees
  Several.node { s with trees := targets } "pattern_list" first

/-- Expressions with commas between them, and perhaps one behind the last.  Each turn reads an
expression. -/
def several (expression : Place → Cursor → Reading) (p : Place) (turns : Nat) (c : Cursor) :
    Option Several := do
  let (first, after) ← expression p c
  let comma? := (onward? p after).bind (mark? ",")
  match turns, comma? with
  | turns + 1, some behind =>
    match (onwardString? p behind).bind (several expression p turns) with
    | some more => some ⟨first :: more.trees, true, more.trailing, more.last⟩
    | none => some ⟨[first], true, true, behind⟩
  | _, _ => some ⟨[first], false, false, after⟩

end SlotEdit.Script
