import SlotEdit.Script.Expression

/-!
# Script/CasePattern — the patterns of a `match` statement

`casePattern` reads one pattern: literals, names, sequences, mappings, classes, alternatives joined
by bars, and a name that a pattern is bound to.
-/

namespace SlotEdit.Script

/-- Some nodes and the cursor behind them, where they fit. -/
abbrev ReadingAll := Option (List GrammarTree × Cursor)

/-- Names with dots between them.  Each turn reads a name. -/
def dottedNames (p : Place) (turns : Nat) (c : Cursor) : ReadingAll := do
  let (first, after) ← identifier? c
  match turns, (onward? p after).bind (mark? ".") with
  | turns + 1, some dot => do
    let (more, last) ← (onward? p.inner dot).bind (dottedNames p turns)
    pure (first :: more, last)
  | _, _ => pure ([first], after)

/-- Names with dots between them as one node. -/
def dottedName (p : Place) (c : Cursor) : Reading := do
  let (names, last) ← dottedNames p c.rest.length c
  pure (nodeOver "dotted_name" c last names, last)

/-- A star or two, and the name for the rest of a sequence or mapping. -/
def splatPattern (p : Place) (c : Cursor) : Reading := do
  let stars ← (mark? "**" c).or (mark? "*" c)
  let next ← onward? p.inner stars
  match keyword? "_" next with
  | some last => pure (nodeOver "splat_pattern" c last [], last)
  | none => do
    let (name, last) ← identifier? next
    pure (nodeOver "splat_pattern" c last [name], last)

/-- A number, perhaps with a minus in front, or the sum of two. -/
def numberPattern (p : Place) (c : Cursor) : ReadingAll := do
  let start ← match mark? "-" c with
    | some behind => onward? p.inner behind
    | none => some c
  let (first, after) ← number? start
  let sign? := (onward? p after).bind fun next => (mark? "+" next).or (mark? "-" next)
  match sign?.bind fun sign => (onward? p.inner sign).bind number? with
  | some (second, last) => pure ([nodeOver "complex_pattern" c last [first, second]], last)
  | none => pure ([first], after)

/-- Patterns with commas between them up to and over a closing bracket, the cursor being at the
opening one. -/
def patternsIn (pattern : ExpressionReader) (closing : String) (p : Place) (c : Cursor) :
    ReadingAll := do
  let start ← operandAt? p true (c.drop 1)
  match mark? closing start with
  | some last => pure ([], last)
  | none => do
    let (first, after) ← pattern p.bracketed start
    let (more, _, last) ← itemsBehind pattern closing p after.rest.length after
    pure (first :: more, last)

/-- A constant as a pattern. -/
def constantPattern (r : Readers) (p : Place) (c : Cursor) : Reading :=
  if (quoting? c).isSome then strings r p c
  else
    match wordOperand c with
    | some (tree, last) => if tree.construct == "identifier" then none else some (tree, last)
    | none => none

/-- A pattern that is no alternative: its nodes, since numbers and the blank pattern make no node
of their own. -/
def closedPattern (r : Readers) (pattern : ExpressionReader) (entry : ExpressionReader) (p : Place)
    (c : Cursor) : ReadingAll :=
  let one (reading : Reading) : ReadingAll := reading.map fun (tree, last) => ([tree], last)
  let listed (construct closing : String) (item : ExpressionReader) : ReadingAll := do
    let (items, last) ← patternsIn item closing p c
    pure ([nodeOver construct c last items], last)
  match c.peek? with
  | some '*' => one (splatPattern p c)
  | some '[' => listed "list_pattern" "]" pattern
  | some '(' => listed "tuple_pattern" ")" pattern
  | some '\x7b' => do
    let (entries, last) ← patternsIn entry "\x7d" p c
    pure ([nodeOver "dict_pattern" c last (entries.flatMap fun e =>
      if e.construct == "key_value_pattern" then e.children else [e])], last)
  | _ =>
    match numberPattern p c, constantPattern r p c, keyword? "_" c with
    | some found, _, _ => some found
    | none, some (tree, last), _ => some ([tree], last)
    | none, none, some last => some ([], last)
    | none, none, none => do
      let (name, after) ← dottedName p c
      match (onward? p after).bind (mark? "(") with
      | some inside => do
        let opening : Cursor := (onward? p after).getD inside
        let (items, last) ← patternsIn pattern ")" p opening
        pure ([nodeOver "class_pattern" c last (name :: items)], last)
      | none => pure ([name], after)

/-- Patterns behind bars.  Each turn reads one. -/
def alternatives (closed : Place → Cursor → ReadingAll) (p : Place) (turns : Nat)
    (after : Cursor) : Option (List GrammarTree × Cursor) :=
  match turns, (onward? p after).bind (mark? "|") with
  | turns + 1, some bar => do
    let (first, behind) ← (operandAt? p false bar).bind (closed p)
    let (more, last) ← alternatives closed p turns behind
    pure (first ++ more, last)
  | _, _ => some ([], after)

/-- A pattern, or several with bars between them. -/
def openPattern (closed : Place → Cursor → ReadingAll) (p : Place) (c : Cursor) : ReadingAll := do
  let (first, after) ← closed p c
  match (onward? p after).bind (mark? "|") with
  | some _ => do
    let (more, last) ← alternatives closed p after.rest.length after
    pure ([nodeOver "union_pattern" c last (first ++ more)], last)
  | none => pure (first, after)

/-- Names that a pattern is bound to.  Each turn reads one. -/
def boundPattern (p : Place) (turns : Nat) (c : Cursor) (tree : GrammarTree) (after : Cursor) :
    Reading :=
  match turns, (onward? p after).bind (keyword? "as") with
  | turns + 1, some behind => do
    let (name, last) ← (onward? p.inner behind).bind identifier?
    let bound := nodeOver "as_pattern" c last [tree, name]
    boundPattern p turns c (nodeOver "case_pattern" c last [bound]) last
  | _, _ => some (tree, after)

/-- **A pattern**, with patterns nested in it at most `depth` deep. -/
def casePattern (r : Readers) (depth : Nat) : ExpressionReader := fun p c =>
  match depth with
  | 0 => none
  | depth + 1 =>
    let inner := casePattern r depth
    let entry : ExpressionReader := fun p c =>
      if c.startsWith "*" then splatPattern p c
      else do
        let (key, after) ← closedPattern r inner inner p c
        let colon ← (onward? p after).bind (mark? ":")
        let (value, last) ← operand inner p colon
        pure (nodeOver "key_value_pattern" c last (key ++ [value]), last)
    let closed := closedPattern r inner entry
    let keyword? : Option (GrammarTree × Cursor) := do
      let (name, after) ← identifier? c
      let equals ← (onward? p after).bind equals?
      pure (name, equals)
    match keyword? with
    | some (name, equals) => do
      let (value, last) ← (operandAt? p false equals).bind (openPattern closed p)
      let tree := nodeOver "keyword_pattern" c last (name :: value)
      pure (nodeOver "case_pattern" c last [tree], last)
    | none => do
      let (trees, after) ← openPattern closed p c
      boundPattern p after.rest.length c (nodeOver "case_pattern" c after trees) after

end SlotEdit.Script
