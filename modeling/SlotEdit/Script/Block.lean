import SlotEdit.Script.Statement

/-!
# Script/Block — compound statements and blocks

A compound statement has a head that ends in a colon, and a block: the rest of the line, or the
lines below that stand further to the right.  A block reaches up to the comments at its end that
stand at least as far right as it does.  `grammarTree?` reads a whole text.
-/

namespace SlotEdit.Script

/-- Reads a block from behind a colon. -/
abbrev BlockReader := Place → Cursor → Reading

/-- What stands at the boundary of two statements. -/
def boundary (p : Place) (c : Cursor) : Gap := gap p.inner ⟨true, false, true⟩ c

/-- The cursor behind a colon that ends a head, and the block behind it. -/
def headEnd (block : BlockReader) (p : Place) (after : Cursor) : Reading :=
  ((onward? p.inner after).bind (mark? ":")).bind (block p)

/-- The cursor behind a word that goes on with a statement. -/
def continuation? (word : String) (p : Place) (after : Cursor) : Option (Cursor × Cursor) :=
  match boundary p after with
  | .token next => (keyword? word next).map fun behind => (next, behind)
  | _ => none

/-- A clause of a word, a colon and a block, if it follows. -/
def bareClause? (block : BlockReader) (word construct : String) (p : Place) (after : Cursor) :
    ReadingAll :=
  match continuation? word p after with
  | some (start, behind) =>
    (headEnd block p behind).map fun (body, last) => ([nodeOver construct start last [body]], last)
  | none => some ([], after)

/-! ## Branches and loops -/

/-- The `elif` clauses behind a block.  Each turn reads one. -/
def elifClauses (r : Readers) (block : BlockReader) (p : Place) (turns : Nat) (after : Cursor) :
    ReadingAll :=
  match turns, continuation? "elif" p after with
  | turns + 1, some (start, behind) => do
    let (condition, middle) ← operand r.whole p.inner behind
    let (body, next) ← headEnd block p middle
    let (more, last) ← elifClauses r block p turns next
    pure (nodeOver "elif_clause" start next [condition, body] :: more, last)
  | _, _ => some ([], after)

/-- An `if` statement. -/
def ifStatement (r : Readers) (block : BlockReader) (p : Place) (c behind : Cursor) : Reading := do
  let (condition, middle) ← operand r.whole p.inner behind
  let (body, next) ← headEnd block p middle
  let (branches, next) ← elifClauses r block p next.rest.length next
  let (otherwise, last) ← bareClause? block "else" "else_clause" p next
  pure (nodeOver "if_statement" c last (condition :: body :: branches ++ otherwise), last)

/-- A `while` statement. -/
def whileStatement (r : Readers) (block : BlockReader) (p : Place) (c behind : Cursor) :
    Reading := do
  let (condition, middle) ← operand r.whole p.inner behind
  let (body, next) ← headEnd block p middle
  let (otherwise, last) ← bareClause? block "else" "else_clause" p next
  pure (nodeOver "while_statement" c last (condition :: body :: otherwise), last)

/-- A `for` statement. -/
def forStatement (r : Readers) (block : BlockReader) (p : Place) (c behind : Cursor) :
    Reading := do
  let (target, after) ← operand (loopTarget r) p.inner behind
  let in_ ← (onward? p.inner after).bind (keyword? "in")
  let (values, middle) ← operand r.listNode p.inner in_
  let (body, next) ← headEnd block p middle
  let (otherwise, last) ← bareClause? block "else" "else_clause" p next
  pure (nodeOver "for_statement" c last (target :: values :: body :: otherwise), last)

/-! ## Exceptions -/

/-- The `except` clauses behind a block.  Each turn reads one. -/
def exceptClauses (r : Readers) (block : BlockReader) (p : Place) (turns : Nat) (after : Cursor) :
    ReadingAll :=
  match turns, continuation? "except" p after with
  | turns + 1, some (start, word) => do
    let behind := ((onward? p.inner word).bind (mark? "*")).getD word
    let (values, middle) ← match (onwardString? p.inner behind).bind (r.list p.inner) with
      | some values => if values.trailing then none else some (values.trees, values.last)
      | none => some ([], behind)
    let (body, next) ← headEnd block p middle
    let (more, last) ← exceptClauses r block p turns next
    pure (nodeOver "except_clause" start next (values ++ [body]) :: more, last)
  | _, _ => some ([], after)

/-- A `try` statement. -/
def tryStatement (r : Readers) (block : BlockReader) (p : Place) (c behind : Cursor) :
    Reading := do
  let (body, next) ← headEnd block p behind
  let (handlers, next) ← exceptClauses r block p next.rest.length next
  let (otherwise, next) ← bareClause? block "else" "else_clause" p next
  let (final, last) ← bareClause? block "finally" "finally_clause" p next
  pure (nodeOver "try_statement" c last (body :: handlers ++ otherwise ++ final), last)

/-! ## Contexts -/

/-- A context of a `with` statement. -/
def withItem (r : Readers) : ExpressionReader := fun p c =>
  (r.whole p c).map fun (value, last) => (nodeOver "with_item" c last [value], last)

/-- Contexts in parentheses of their own, which more than one must stand in. -/
def withParenthesized (r : Readers) (p : Place) (c : Cursor) : Reading := do
  let inside ← mark? "(" c
  let start ← operandAt? p false inside
  let (first, after) ← withItem r p.bracketed start
  let (more, _, last) ← itemsBehind (withItem r) ")" p after.rest.length after
  let _ ← (onward? p.inner last).bind (mark? ":")
  if more.isEmpty then none else pure (nodeOver "with_clause" c last (first :: more), last)

/-- A `with` statement. -/
def withStatement (r : Readers) (block : BlockReader) (p : Place) (c behind : Cursor) :
    Reading := do
  let start ← operandAt? p false behind
  let (contexts, middle) ← match withParenthesized r p start with
    | some found => some found
    | none => do
      let items ← several (withItem r) p.inner start.rest.length start
      pure (nodeOver "with_clause" start items.last items.trees, items.last)
  let (body, last) ← headEnd block p middle
  pure (nodeOver "with_statement" c last [contexts, body], last)

/-! ## Definitions -/

/-- Type parameters behind a name, if any. -/
def typeParameters? (r : Readers) (p : Place) (after : Cursor) : ReadingAll :=
  match (onward? p.inner after).bind (mark? "[") with
  | some _ => do
    let next ← onward? p.inner after
    let (types, last) ← typeParameter (typeReader r.whole true) p next
    pure ([types], last)
  | none => some ([], after)

/-- The parameters of a function, in parentheses. -/
def parameters (r : Readers) (p : Place) (c : Cursor) : Reading := do
  let inside ← mark? "(" c
  let start ← operandAt? p true inside
  match mark? ")" start with
  | some last => pure (nodeOver "parameters" c last [], last)
  | none => do
    let (items, after) ← parameterList r.whole true p.bracketed start.rest.length start
    let last ← closing? p ")" after
    pure (nodeOver "parameters" c last items, last)

/-- The definition of a function. -/
def functionDefinition (r : Readers) (block : BlockReader) (p : Place) (c behind : Cursor) :
    Reading := do
  let (name, after) ← (onward? p.inner behind).bind identifier?
  let (types, after) ← typeParameters? r p after
  let (params, after) ← (onward? p.inner after).bind (parameters r p)
  let (result, after) ← match (onward? p.inner after).bind (mark? "->") with
    | some arrow => do
      let (type, last) ← operand (typeReader r.whole false) p.inner arrow
      pure ([type], last)
    | none => some ([], after)
  let (body, last) ← headEnd block p after
  pure (nodeOver "function_definition" c last
    (name.withRole "name" :: types ++ params :: result ++ [body]), last)

/-- The definition of a class. -/
def classDefinition (r : Readers) (block : BlockReader) (p : Place) (c behind : Cursor) :
    Reading := do
  let (name, after) ← (onward? p.inner behind).bind identifier?
  let (types, after) ← typeParameters? r p after
  let (bases, after) ← match (onward? p.inner after).bind (mark? "(") with
    | some _ => do
      let next ← onward? p.inner after
      let (list, last) ← argumentList r false p next
      pure ([list], last)
    | none => some ([], after)
  let (body, last) ← headEnd block p after
  pure (nodeOver "class_definition" c last
    (name.withRole "name" :: types ++ bases ++ [body]), last)

/-- The definition that decorators stand before. -/
def definition (r : Readers) (block : BlockReader) (p : Place) (c : Cursor) : Reading :=
  let asynchronous? := (keyword? "async" c).bind fun behind =>
    (onward? p.inner behind).bind (keyword? "def")
  match asynchronous?.or (keyword? "def" c), keyword? "class" c with
  | some behind, _ => functionDefinition r block p c behind
  | none, some behind => classDefinition r block p c behind
  | none, none => none

/-- Decorators and the definition behind them.  Each turn reads a decorator. -/
def decorated (r : Readers) (block : BlockReader) (p : Place) (turns : Nat) (c : Cursor) :
    ReadingAll :=
  match mark? "@" c, turns with
  | some behind, turns + 1 => do
    let (value, after) ← operand r.whole p behind
    let line ← lineEnd? p after
    let next ← onward? p.inner line
    let (more, last) ← decorated r block p turns next
    pure (nodeOver "decorator" c after [value] :: more, last)
  | some _, 0 => none
  | none, _ => do
    let (tree, last) ← definition r block p c
    pure ([tree.withRole "definition"], last)

/-- Decorators and a definition as one node. -/
def decoratedDefinition (r : Readers) (block : BlockReader) (p : Place) (c : Cursor) :
    Reading := do
  let (trees, last) ← decorated r block p c.rest.length c
  pure (nodeOver "decorated_definition" c last trees, last)

/-! ## Matching -/

/-- A clause of a `match` statement. -/
def caseClause (r : Readers) (block : BlockReader) (p : Place) (c : Cursor) : Reading := do
  let behind ← keyword? "case" c
  let start ← operandAt? p false behind
  let pattern := casePattern r (start.rest.length + 1)
  let patterns ← several pattern p.inner start.rest.length start
  let guarded := (onward? p.inner patterns.last).bind (ifClause r p.inner)
  let (guard, after) := match guarded with
    | some (clause, last) => ([clause], last)
    | none => ([], patterns.last)
  let (body, last) ← headEnd block p after
  pure (nodeOver "case_clause" c last (patterns.trees ++ guard ++ [body]), last)

/-- The clauses of a `match` statement up to the end of their block.  Each turn reads a clause. -/
def caseClauses (r : Readers) (block : BlockReader) (p : Place) (turns : Nat) (c : Cursor) :
    ReadingAll :=
  match gap p.inner ⟨false, false, true⟩ c, turns with
  | .blockEnd last, _ => some ([], last)
  | .token next, turns + 1 => do
    let (clause, after) ← caseClause r block p next
    let (more, last) ← caseClauses r block p turns after
    pure (clause :: more, last)
  | _, _ => none

/-- A `match` statement; `match` is a name where what follows does not fit. -/
def matchStatement (r : Readers) (block : BlockReader) (p : Place) (c behind : Cursor) :
    Reading := do
  let start ← operandAt? p false behind
  let subjects ← several r.whole p.inner start.rest.length start
  let colon ← (onward? p.inner subjects.last).bind (mark? ":")
  let whole (clauses : List GrammarTree) (first last : Cursor) : Reading :=
    some (nodeOver "match_statement" c last (subjects.trees ++ [nodeOver "block" first last clauses]),
      last)
  match gap { p with lineEnd := true, close := false } ⟨false, true, false⟩ colon with
  | .lineEnd last => whole [] last last
  | .blockStart indent first => do
    let (clauses, last) ← caseClauses r block { p with indent := indent } first.rest.length first
    whole clauses first last
  | _ => none

/-! ## Statements and blocks -/

/-- A compound statement led by a word, if the word leads one. -/
def compound? (r : Readers) (block : BlockReader) (p : Place) (c : Cursor) : Option Reading :=
  let behind := c.drop (word c).length
  match String.ofList (word c) with
  | "if" => some (ifStatement r block p c behind)
  | "for" => some (forStatement r block p c behind)
  | "while" => some (whileStatement r block p c behind)
  | "try" => some (tryStatement r block p c behind)
  | "with" => some (withStatement r block p c behind)
  | "def" => some (functionDefinition r block p c behind)
  | "class" => some (classDefinition r block p c behind)
  | "match" => (matchStatement r block p c behind).map some
  | "async" =>
    match onward? p.inner behind with
    | none => none
    | some next =>
      let after := next.drop (word next).length
      match String.ofList (word next) with
      | "def" => some (functionDefinition r block p c after)
      | "for" => some (forStatement r block p c after)
      | "with" => some (withStatement r block p c after)
      | _ => none
  | _ => if c.peek? = some '@' then some (decoratedDefinition r block p c) else none

/-- A compound statement, or the simple statements of a line. -/
def statement (r : Readers) (block : BlockReader) (p : Place) (c : Cursor) : ReadingAll :=
  match compound? r block p c with
  | some reading => reading.map fun (tree, last) => ([tree], last)
  | none => statementLine r p c.rest.length c

/-- Statements up to the end of their block, or of the text.  Each turn reads a line or a compound
statement. -/
def statements (r : Readers) (block : BlockReader) (p : Place) (turns : Nat) (c : Cursor) :
    ReadingAll :=
  match boundary p c with
  | .blockEnd last => some ([], last)
  | .token next =>
    if next.atEnd then some ([], next)
    else
      match turns with
      | 0 => none
      | turns + 1 => do
        let (first, after) ← statement r block p next
        let (more, last) ← statements r block p turns after
        pure (first ++ more, last)
  | _ => none

/-- **A block**, with blocks nested in it at most `depth` deep: the rest of the line, the lines
below that stand further to the right, or nothing. -/
def block (r : Readers) (depth : Nat) : BlockReader := fun p c =>
  match depth with
  | 0 => none
  | depth + 1 =>
    let whole (first : Cursor) (reading : ReadingAll) : Reading :=
      reading.map fun (trees, last) => (nodeOver "block" first last trees, last)
    match gap { p with lineEnd := true, close := false } ⟨true, true, false⟩ c with
    | .lineEnd last => some (nodeOver "block" last last [], last)
    | .blockStart indent first =>
      whole first (statements r (block r depth) { p with indent := indent } first.rest.length first)
    | .token first => whole first (statementLine r p first.rest.length first)
    | .blockEnd _ => none

/-- **The concrete syntax tree of a text.** -/
def grammarTree? (text : String) : Option GrammarTree :=
  let c := Cursor.ofText text
  let size := c.rest.length
  let r := readersTo (size + 2)
  let p : Place := ⟨0, false, true, false⟩
  (statements r (block r (size + 1)) p (size + 1) c).map fun (trees, last) =>
    nodeOver "module" c last trees

end SlotEdit.Script
