import SlotEdit.Script.CasePattern

/-!
# Script/Statement — simple statements

A simple statement stands on a line, perhaps beside others.  Some words open a statement only
where what follows fits, and are names elsewhere; `simpleStatements` gives the ways to read a
statement in order of preference, and `statementLine` takes the first that the statement's end
follows.
-/

namespace SlotEdit.Script

/-! ## Assignments -/

/-- What an assignment gives its target, and the rest of the assignment: the cursor is behind the
targets.  Each turn reads the targets of one more assignment. -/
def assignment (r : Readers) (p : Place) (turns : Nat) (first : Cursor) (targets : Several) :
    Reading :=
  match turns with
  | 0 => none
  | turns + 1 => do
    let next ← onward? p targets.last
    let target ← targets.target? first
    let value (behind : Cursor) : Reading := do
      let start ← operandAt? p false behind
      match yieldExpression r p start with
      | some found => some found
      | none => do
        let expressions ← r.list p start
        match assignment r p turns start expressions with
        | some found => some found
        | none => do
          let tree ← expressions.node "expression_list" start
          pure (tree, expressions.last)
    match equals? next, augmentedMark? next, colon? next with
    | some behind, _, _ => do
      let (right, last) ← value behind
      pure (nodeOver "assignment" first last [target, right], last)
    | _, some behind, _ => do
      let (right, last) ← value behind
      pure (nodeOver "augmented_assignment" first last [target, right], last)
    | _, _, some behind => do
      let (type, after) ← operand (typeReader r.whole true) p behind
      match (onward? p after).bind equals? with
      | some behind => do
        let (right, last) ← value behind
        pure (nodeOver "assignment" first last [target, type, right], last)
      | none => pure (nodeOver "assignment" first after [target, type], after)
    | _, _, _ => none

/-- Expressions on their own, or an assignment to them. -/
def expressionStatement (r : Readers) (p : Place) (c : Cursor) : Reading :=
  let wrapped (trees : List GrammarTree) (last : Cursor) : Reading :=
    some (nodeOver "expression_statement" c last trees, last)
  match yieldExpression r p c with
  | some (tree, last) => wrapped [tree] last
  | none => do
    let expressions ← r.list p c
    match assignment r p (c.rest.length + 1) c expressions with
    | some (tree, last) => wrapped [tree] last
    | none => wrapped expressions.trees expressions.last

/-! ## Imports -/

/-- A module or a name in it, perhaps under another name. -/
def imported (p : Place) (c : Cursor) : Reading := do
  let (name, after) ← dottedName p c
  match (onward? p after).bind (keyword? "as") with
  | some behind => do
    let (second, last) ← (onward? p.inner behind).bind identifier?
    pure (nodeOver "aliased_import" c last [name, second], last)
  | none => pure (name, after)

/-- The names an `import` brings in. -/
def importList (p : Place) (c : Cursor) : Option Several := several imported p c.rest.length c

/-- The names an `import` brings in, perhaps in parentheses. -/
def importedNames (p : Place) (next : Cursor) : ReadingAll :=
  match mark? "(" next with
  | some inside => do
    let names ← (onward? p.inner inside).bind (importList p.bracketed)
    let last ← closing? p ")" names.last
    pure (names.trees, last)
  | none => do
    let names ← importList p next
    pure (names.trees, names.last)

/-- The dots in front of a module's name, with the cursor behind the last.  Each turn passes a
dot. -/
def dotsEnd (p : Place) (turns : Nat) (c : Cursor) : Cursor :=
  match turns, (onward? p.inner c).bind (mark? ".") with
  | turns + 1, some behind => dotsEnd p turns behind
  | _, _ => c

/-- The module that names are imported from: dots and a name, or a name. -/
def importSource (p : Place) (c : Cursor) : Reading :=
  match mark? "." c with
  | some behind =>
    let dots := dotsEnd p behind.rest.length behind
    let tree := nodeOver "import_prefix" c dots []
    match (onward? p.inner dots).bind (dottedName p.inner) with
    | some (name, last) => some (nodeOver "relative_import" c last [tree, name], last)
    | none => some (nodeOver "relative_import" c dots [tree], dots)
  | none => dottedName p.inner c

/-- `import` and what it brings in. -/
def importStatement (p : Place) (c behind : Cursor) : Reading := do
  let names ← (onward? p.inner behind).bind (importList p)
  pure (nodeOver "import_statement" c names.last names.trees, names.last)

/-- `from`, a module, and the names brought in from it. -/
def importFromStatement (p : Place) (c behind : Cursor) : Reading := do
  let next ← onward? p.inner behind
  match keyword? "__future__" next with
  | some after => do
    let import_ ← (onward? p.inner after).bind (keyword? "import")
    let (names, last) ← (onward? p.inner import_).bind (importedNames p)
    pure (nodeOver "future_import_statement" c last names, last)
  | none => do
    let (source, after) ← importSource p next
    let import_ ← (onward? p.inner after).bind (keyword? "import")
    let start ← onward? p.inner import_
    match mark? "*" start with
    | some last =>
      let all := nodeOver "wildcard_import" start last []
      pure (nodeOver "import_from_statement" c last [source, all], last)
    | none => do
      let (names, last) ← importedNames p start
      pure (nodeOver "import_from_statement" c last (source :: names), last)

/-! ## Statements led by a word -/

/-- A word and nothing else. -/
def bareStatement (construct : String) (c behind : Cursor) : Reading :=
  some (nodeOver construct c behind [], behind)

/-- `return`, perhaps with expressions. -/
def returnStatement (r : Readers) (p : Place) (c behind : Cursor) : Reading :=
  match (onwardString? p behind).bind (r.listNode p) with
  | some (value, last) => some (nodeOver "return_statement" c last [value], last)
  | none => bareStatement "return_statement" c behind

/-- `raise`, perhaps with expressions and a cause. -/
def raiseStatement (r : Readers) (p : Place) (c behind : Cursor) : Reading := do
  let (raised, after) := match (onwardString? p behind).bind (r.listNode p) with
    | some (value, after) => ([value], after)
    | none => ([], behind)
  match (onward? p after).bind (keyword? "from") with
  | some from_ => do
    let (cause, last) ← operand r.whole p from_
    pure (nodeOver "raise_statement" c last (raised ++ [cause]), last)
  | none => pure (nodeOver "raise_statement" c after raised, after)

/-- `del` and expressions. -/
def deleteStatement (r : Readers) (p : Place) (c behind : Cursor) : Reading := do
  let (value, last) ← operand r.listNode p behind
  pure (nodeOver "delete_statement" c last [value], last)

/-- A word and items with commas between them, with none behind the last. -/
def listStatement (construct : String) (item : ExpressionReader) (p : Place) (c behind : Cursor) :
    Reading := do
  let start ← operandAt? p false behind
  let items ← several item p start.rest.length start
  if items.trailing then none else pure (nodeOver construct c items.last items.trees, items.last)

/-- `print` and expressions, perhaps behind the file they go to. -/
def printStatement (r : Readers) (p : Place) (c behind : Cursor) : Reading := do
  let start ← onwardString? p behind
  match mark? ">>" start with
  | some chevron => do
    let (file, after) ← operand r.whole p chevron
    let target := nodeOver "chevron" start after [file]
    match (onward? p after).bind (mark? ",") with
    | none => pure (nodeOver "print_statement" c after [target], after)
    | some comma =>
      match (onwardString? p comma).bind (r.list p) with
      | some values =>
        pure (nodeOver "print_statement" c values.last (target :: values.trees), values.last)
      | none => pure (nodeOver "print_statement" c comma [target], comma)
  | none => do
    let values ← r.list p start
    pure (nodeOver "print_statement" c values.last values.trees, values.last)

/-- `exec`, a literal or a name, and perhaps expressions behind `in`. -/
def execStatement (r : Readers) (p : Place) (c behind : Cursor) : Reading := do
  let start ← onwardString? p behind
  let (code, after) ←
    (stringLiteral (interpolation r p start.rest.length) start).or (identifier? start)
  match (onward? p after).bind (keyword? "in") with
  | some in_ => do
    let start ← operandAt? p false in_
    let scopes ← r.list p start
    if scopes.trailing then none
    else pure (nodeOver "exec_statement" c scopes.last (code :: scopes.trees), scopes.last)
  | none => pure (nodeOver "exec_statement" c after [code], after)

/-- `type`, a type, an equals sign and a type. -/
def typeAliasStatement (r : Readers) (p : Place) (c behind : Cursor) : Reading := do
  let (left, after) ← operand (typeReader r.whole true) p.inner behind
  let equals ← (onward? p.inner after).bind equals?
  let (right, last) ← operand (typeReader r.whole true) p equals
  pure (nodeOver "type_alias_statement" c last [left, right], last)

/-- **The ways to read a simple statement**, the preferred one first. -/
def simpleStatements (r : Readers) (p : Place) (c : Cursor) : List (GrammarTree × Cursor) :=
  let behind := c.drop (word c).length
  let only (reading : Reading) : List (GrammarTree × Cursor) := reading.toList
  match String.ofList (word c) with
  | "import" => only (importStatement p c behind)
  | "from" => only (importFromStatement p c behind)
  | "assert" => only (listStatement "assert_statement" r.whole p c behind)
  | "return" => only (returnStatement r p c behind)
  | "del" => only (deleteStatement r p c behind)
  | "raise" => only (raiseStatement r p c behind)
  | "pass" => only (bareStatement "pass_statement" c behind)
  | "break" => only (bareStatement "break_statement" c behind)
  | "continue" => only (bareStatement "continue_statement" c behind)
  | "global" => only (listStatement "global_statement" (fun _ c => identifier? c) p c behind)
  | "nonlocal" => only (listStatement "nonlocal_statement" (fun _ c => identifier? c) p c behind)
  | "print" =>
    let shifted := ((onward? p behind).bind (mark? ">>")).isSome
    let plain := only (expressionStatement r p c)
    let printed := only (printStatement r p c behind)
    if shifted then printed ++ plain else plain ++ printed
  | "exec" => only (execStatement r p c behind) ++ only (expressionStatement r p c)
  | "type" => only (typeAliasStatement r p c behind) ++ only (expressionStatement r p c)
  | _ => only (expressionStatement r p c)

/-! ## Lines -/

/-- The end of a line behind a statement, if it is here. -/
def lineEnd? (p : Place) (after : Cursor) : Option Cursor :=
  match gap p .plain after with
  | .lineEnd last => some last
  | _ => none

/-- A statement may end here: the line does, or a semicolon follows. -/
def endsStatement (p : Place) (after : Cursor) : Bool :=
  (lineEnd? p after).isSome || ((onward? p after).bind (mark? ";")).isSome

/-- **Simple statements up to the end of their line.**  Each turn reads a statement. -/
def statementLine (r : Readers) (p : Place) (turns : Nat) (c : Cursor) : ReadingAll := do
  let (first, after) ← (simpleStatements r p c).find? fun (_, after) => endsStatement p after
  match lineEnd? p after, turns with
  | some last, _ => pure ([first], last)
  | none, 0 => none
  | none, turns + 1 =>
    let behind ← (onward? p after).bind (mark? ";")
    match gap p .operand behind with
    | .lineEnd last => pure ([first], last)
    | .token next => do
      let (more, last) ← statementLine r p turns next
      pure (first :: more, last)
    | _ => none

end SlotEdit.Script
