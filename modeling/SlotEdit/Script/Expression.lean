import SlotEdit.Script.Signature

/-!
# Script/Expression — the concrete syntax of expressions

Expressions are read by two readers that call each other: `expression` for words that join whole
expressions (`or`, `not`, `if`, `lambda`, …) and `arithmetic` for operators between operands.  Both
nest through a reader for shorter texts, so depth is the only recursion; `readersTo` gives the
readers that nest to some depth.

How tightly the joining words bind is a *tier*: conditionals 0, `as` 1, `or` 2, `and` 3, comparisons
4.  A reader asked for a tier leaves looser words unread.
-/

namespace SlotEdit.Script

/-- The readers of shorter texts: of expressions from some tier on, and of arithmetic whose
operators bind more strongly than a given one. -/
structure Readers where
  expression : Nat → ExpressionReader
  arithmetic : Nat → ExpressionReader

namespace Readers

/-- Reads any expression. -/
def whole (r : Readers) : ExpressionReader := r.expression 0

/-- Expressions with commas between them. -/
def list (r : Readers) (p : Place) (c : Cursor) : Option Several :=
  several r.whole p c.rest.length c

/-- Expressions with commas between them as one node. -/
def listNode (r : Readers) (p : Place) (c : Cursor) : Reading := do
  let expressions ← r.list p c
  let tree ← expressions.node "expression_list" c
  pure (tree, expressions.last)

end Readers

/-- The expression behind a mark or word. -/
def operand (read : ExpressionReader) (p : Place) (behind : Cursor) : Reading :=
  (operandAt? p false behind).bind (read p)

/-! ## Words in front of expressions -/

/-- `yield`, with or without expressions behind it. -/
def yieldExpression (r : Readers) (p : Place) (c : Cursor) : Reading := do
  let behind ← keyword? "yield" c
  let bare := (nodeOver "yield" c behind [], behind)
  let next? := onwardString? p behind
  match next?.bind (keyword? "from") with
  | some from_ => do
    let (value, last) ← operand r.whole p from_
    pure (nodeOver "yield" c last [value], last)
  | none =>
    match next?.bind (r.listNode p) with
    | some (value, last) => pure (nodeOver "yield" c last [value], last)
    | none => pure bare

/-- `lambda`, its parameters and its body. -/
def lambdaExpression (r : Readers) (p : Place) (c : Cursor) : Reading := do
  let behind ← keyword? "lambda" c
  let next ← onward? p.inner behind
  match mark? ":" next with
  | some colon => do
    let (body, last) ← operand r.whole p colon
    pure (nodeOver "lambda" c last [body], last)
  | none => do
    let (parameters, after) ← parameterList r.whole false p.inner next.rest.length next
    let colon ← (onward? p.inner after).bind (mark? ":")
    let (body, last) ← operand r.whole p colon
    pure (nodeOver "lambda" c last [nodeOver "lambda_parameters" next after parameters, body], last)

/-- A name that takes the value of an expression. -/
def namedExpression (r : Readers) (p : Place) (c : Cursor) : Reading := do
  let (name, after) ← identifier? c
  let behind ← (onward? p after).bind (mark? ":=")
  let (value, last) ← operand (r.expression 1) p behind
  pure (nodeOver "named_expression" c last [name, value], last)

/-! ## Items in brackets -/

/-- The cursor behind a closing bracket, if it stands next. -/
def closing? (p : Place) (bracket : String) (after : Cursor) : Option Cursor :=
  (onward? p.bracketed after).bind (mark? bracket)

/-- What stands behind an item in brackets: items with commas in front of them, perhaps a comma
behind the last, and the closing bracket; whether there was a comma is told.  Each turn reads an
item. -/
def itemsBehind (item : ExpressionReader) (bracket : String) (p : Place) (turns : Nat)
    (after : Cursor) : Option (List GrammarTree × Bool × Cursor) :=
  match closing? p bracket after, turns with
  | some last, _ => some ([], false, last)
  | none, 0 => none
  | none, turns + 1 => do
    let comma ← (onward? p.bracketed after).bind (mark? ",")
    let next ← operandAt? p true comma
    match mark? bracket next with
    | some last => pure ([], true, last)
    | none => do
      let (first, behind) ← item p.bracketed next
      let (more, _, last) ← itemsBehind item bracket p turns behind
      pure (first :: more, true, last)

/-- A star and the expression it unpacks. -/
def unpacked (r : Readers) (construct : String) (stars : Nat) (p : Place) (c : Cursor) : Reading := do
  let (value, last) ← operand r.whole p (c.drop stars)
  pure (nodeOver construct c last [value], last)

/-- An item of a list, set or tuple. -/
def element (r : Readers) : ExpressionReader := fun p c =>
  if (keyword? "yield" c).isSome then yieldExpression r p c
  else if c.startsWith "*" then unpacked r "list_splat" 1 p c
  else r.whole p c

/-! ## Comprehensions -/

/-- The targets of a loop. -/
def loopTarget (r : Readers) (p : Place) (c : Cursor) : Reading := do
  let targets ← several (r.arithmetic 100) p.inner c.rest.length c
  let tree ← targets.target? c
  pure (tree, targets.last)

/-- A clause that runs over values. -/
def forClause (r : Readers) (p : Place) (c : Cursor) : Reading := do
  let loop ← match keyword? "async" c with
    | some behind => onward? p.inner behind
    | none => some c
  let behind ← keyword? "for" loop
  let (target, after) ← operand (loopTarget r) p.inner behind
  let in_ ← (onward? p.inner after).bind (keyword? "in")
  let start ← operandAt? p false in_
  let values ← several (r.expression 1) p start.rest.length start
  pure (nodeOver "for_in_clause" c values.last (target :: values.trees), values.last)

/-- A clause that leaves values out. -/
def ifClause (r : Readers) (p : Place) (c : Cursor) : Reading := do
  let behind ← keyword? "if" c
  let (condition, last) ← operand (r.expression 1) p behind
  pure (nodeOver "if_clause" c last [condition], last)

/-- Clauses behind the first one of a comprehension.  Each turn reads a clause. -/
def moreClauses (r : Readers) (p : Place) (turns : Nat) (after : Cursor) :
    List GrammarTree × Cursor :=
  match turns, (onward? p after).bind fun next => (forClause r p next).or (ifClause r p next) with
  | turns + 1, some (clause, behind) =>
    let (more, last) := moreClauses r p turns behind
    (clause :: more, last)
  | _, _ => ([], after)

/-- The clauses of a comprehension behind its body, up to and over the closing bracket. -/
def clausesUntil? (r : Readers) (bracket : String) (p : Place) (after : Cursor) :
    Option (List GrammarTree × Cursor) := do
  let next ← onward? p.bracketed after
  let (first, behind) ← forClause r p.bracketed next
  let (more, end_) := moreClauses r p.bracketed behind.rest.length behind
  let last ← closing? p bracket end_
  pure (first :: more, last)

/-- What a comprehension may put together: any expression, of starred ones only places. -/
def isComprehended (t : GrammarTree) : Bool :=
  match t.construct with
  | "list_splat" => t.children.all isPlace
  | "yield" | "dictionary_splat" | "keyword_argument" => false
  | _ => true

/-! ## Brackets -/

/-- The constructs that items in brackets make: as a comprehension, and side by side. -/
structure Bracketing where
  bracket : String
  comprehension : String
  sequence : String

/-- What an item and all behind it in brackets make, given the comprehension that may stand there
and the way further items are read. -/
def bracketed (r : Readers) (b : Bracketing) (item : ExpressionReader) (p : Place) (c : Cursor)
    (first : GrammarTree) (after : Cursor) : Reading :=
  match clausesUntil? r b.bracket p after with
  | some (clauses, last) =>
    if isComprehended first then some (nodeOver b.comprehension c last (first :: clauses), last)
    else none
  | none => do
    let (items, comma, last) ← itemsBehind item b.bracket p after.rest.length after
    let alone := !comma && first.construct != "list_splat"
    let construct := if alone && b.sequence == "tuple" then "parenthesized_expression" else b.sequence
    pure (nodeOver construct c last (first :: items), last)

/-- A tuple, a parenthesized expression or a generator. -/
def parenthesis (r : Readers) (p : Place) (c : Cursor) : Reading := do
  let start ← operandAt? p true (c.drop 1)
  match mark? ")" start with
  | some last => pure (nodeOver "tuple" c last [], last)
  | none => do
    let (first, after) ← element r p.bracketed start
    bracketed r ⟨")", "generator_expression", "tuple"⟩ (element r) p c first after

/-- A list or a list comprehension. -/
def bracket (r : Readers) (p : Place) (c : Cursor) : Reading := do
  let start ← operandAt? p true (c.drop 1)
  match mark? "]" start with
  | some last => pure (nodeOver "list" c last [], last)
  | none => do
    let (first, after) ← element r p.bracketed start
    bracketed r ⟨"]", "list_comprehension", "list"⟩ (element r) p c first after

/-- The colon and the value behind a key. -/
def pairValue (r : Readers) (p : Place) (first : Cursor) (key : GrammarTree) (after : Cursor) :
    Reading := do
  let colon ← (onward? p after).bind (mark? ":")
  let (value, last) ← operand r.whole p colon
  pure (nodeOver "pair" first last [key, value], last)

/-- An entry of a dictionary. -/
def entry (r : Readers) : ExpressionReader := fun p c =>
  if c.startsWith "**" then unpacked r "dictionary_splat" 2 p c
  else do
    let (key, after) ← r.whole p c
    pairValue r p c key after

/-- A closing bracket, perhaps behind a lone comma. -/
def bareClosing? (p : Place) (bracket : String) (start : Cursor) : Option Cursor :=
  match mark? "," start with
  | some comma => closing? p bracket comma
  | none => mark? bracket start

/-- A dictionary, a set or a comprehension of either. -/
def brace (r : Readers) (p : Place) (c : Cursor) : Reading := do
  let start ← operandAt? p true (c.drop 1)
  let dictionary : GrammarTree → Cursor → Reading :=
    bracketed r ⟨"\x7d", "dictionary_comprehension", "dictionary"⟩ (entry r) p c
  match bareClosing? p "\x7d" start with
  | some last => pure (nodeOver "dictionary" c last [], last)
  | none =>
    if start.startsWith "**" then do
      let (first, after) ← entry r p.bracketed start
      dictionary first after
    else do
      let (first, after) ← element r p.bracketed start
      match (onward? p.bracketed after).bind (mark? ":") with
      | some _ => do
        let (first, after) ← pairValue r p.bracketed start first after
        dictionary first after
      | none =>
        bracketed r ⟨"\x7d", "set_comprehension", "set"⟩ (element r) p c first after

/-! ## Calls and subscripts -/

/-- An argument of a call. -/
def argument (r : Readers) : ExpressionReader := fun p c =>
  if c.startsWith "**" then unpacked r "dictionary_splat" 2 p c
  else if c.startsWith "*" then unpacked r "list_splat" 1 p c
  else
    let keyword? : Option (GrammarTree × Cursor) := do
      let (name, after) ← identifier? c
      let equals ← (onward? p after).bind equals?
      pure (name.withRole "name", equals)
    match keyword? with
    | some (name, equals) => do
      let (value, last) ← operand r.whole p equals
      pure (nodeOver "keyword_argument" c last [name, value], last)
    | none => r.whole p c

/-- Arguments in parentheses, the cursor being at the opening one; a generator may stand in them
only where `generator`. -/
def argumentList (r : Readers) (generator : Bool) (p : Place) (c : Cursor) : Reading := do
  let start ← operandAt? p true (c.drop 1)
  match bareClosing? p ")" start with
  | some last => pure (nodeOver "argument_list" c last [], last)
  | none => do
    let (first, after) ← argument r p.bracketed start
    match if generator then clausesUntil? r ")" p after else none with
    | some (clauses, last) =>
      if isComprehended first then
        pure (nodeOver "generator_expression" c last (first :: clauses), last)
      else none
    | none => do
      let (items, _, last) ← itemsBehind (argument r) ")" p after.rest.length after
      pure (nodeOver "argument_list" c last (first :: items), last)

/-- The bound of a slice, unless the slice goes on or ends without it. -/
def sliceBound (r : Readers) (p : Place) (behind : Cursor) : List GrammarTree × Cursor :=
  match (operandAt? p true behind).bind (r.whole p) with
  | some (bound, after) => ([bound], after)
  | none => ([], behind)

/-- An expression or a slice. -/
def subscriptItem (r : Readers) : ExpressionReader := fun p c =>
  let lower? : Option (List GrammarTree × Cursor) :=
    if c.startsWith ":" then some ([], c)
    else (r.whole p c).map fun (bound, after) => ([bound], after)
  match lower? with
  | none => none
  | some (lower, after) =>
    let at_ := if lower.isEmpty then some c else onward? p after
    match at_.bind (mark? ":") with
    | none => lower.head?.map fun only => (only, after)
    | some colon =>
      let (upper, afterUpper) := sliceBound r p colon
      match (onward? p afterUpper).bind (mark? ":") with
      | none => some (nodeOver "slice" c afterUpper (lower ++ upper), afterUpper)
      | some second =>
        let (step, last) := sliceBound r p second
        some (nodeOver "slice" c last (lower ++ upper ++ step), last)

/-- Accesses behind an operand: attributes, subscripts and calls.  Each turn reads one. -/
def accesses (r : Readers) (p : Place) (turns : Nat) (first : Cursor) (tree : GrammarTree)
    (after : Cursor) : Reading :=
  match turns, onward? p after with
  | turns + 1, some next =>
    match next.peek? with
    | some '.' => do
      let (name, last) ← (onward? p.inner (next.drop 1)).bind identifier?
      accesses r p turns first (nodeOver "attribute" first last [tree, name]) last
    | some '[' => do
      let start ← operandAt? p false (next.drop 1)
      let (item, behind) ← subscriptItem r p.bracketed start
      let (items, _, last) ← itemsBehind (subscriptItem r) "]" p behind.rest.length behind
      accesses r p turns first (nodeOver "subscript" first last (tree :: item :: items)) last
    | some '(' => do
      let (arguments, last) ← argumentList r true p next
      accesses r p turns first (nodeOver "call" first last [tree, arguments]) last
    | _ => some (tree, after)
  | _, _ => some (tree, after)

/-! ## Operands -/

/-- An interpolation in a formatted string literal: expressions, perhaps the mark that shows their
text, a conversion and a format.  Each turn reads an interpolation in a format. -/
def interpolation (r : Readers) (p : Place) (turns : Nat) (c : Cursor) : Reading :=
  match turns with
  | 0 => none
  | turns + 1 => do
    let inside : Place := { p with embedded := true, lineEnd := false, close := true }
    let start ← operandAt? inside false (c.drop 1)
    let (value, after) ← (yieldExpression r inside start).or (r.listNode inside start)
    let next ← onward? inside after
    let next ← match equals? next with
      | some behind => onward? inside behind
      | none => some next
    let next ← match next.rest with
      | '!' :: letter :: _ =>
        if 'a' ≤ letter ∧ letter ≤ 'z' then onward? inside (next.drop 2) else none
      | _ => some next
    let (nested, brace) ← match mark? ":" next with
      | some format => formatSpecifier (interpolation r p turns) format.rest.length format
      | none => some ([], next)
    let last ← mark? "\x7d" brace
    pure (nodeOver "interpolation" c last (value :: nested), last)

/-- String literals behind one.  Each turn reads one. -/
def moreStrings (r : Readers) (p : Place) (turns : Nat) (after : Cursor) :
    List GrammarTree × Cursor :=
  let literal (c : Cursor) : Reading := stringLiteral (interpolation r p c.rest.length) c
  match turns, (onwardString? p after).bind literal with
  | turns + 1, some (string, behind) =>
    let (more, last) := moreStrings r p turns behind
    (string :: more, last)
  | _, _ => ([], after)

/-- A string literal, or several that stand for one. -/
def strings (r : Readers) (p : Place) (c : Cursor) : Reading := do
  let (first, after) ← stringLiteral (interpolation r p c.rest.length) c
  let (more, last) := moreStrings r p after.rest.length after
  if more.isEmpty then pure (first, last)
  else pure (nodeOver "concatenated_string" c last (first :: more), last)

/-- A word that is an operand. -/
def wordOperand (c : Cursor) : Reading :=
  let constant (text construct : String) : Reading :=
    (keyword? text c).map fun last => (nodeOver construct c last [], last)
  (constant "True" "true").or <| (constant "False" "false").or <|
    (constant "None" "none").or (identifier? c)

/-- An operand without accesses. -/
def atom (r : Readers) (p : Place) (c : Cursor) : Reading :=
  match c.peek? with
  | some '(' => parenthesis r p c
  | some '[' => bracket r p c
  | some '\x7b' => brace r p c
  | _ =>
    if c.startsWith "..." then some (nodeOver "ellipsis" c (c.drop 3) [], c.drop 3)
    else if (quoting? c).isSome then strings r p c
    else (number? c).or (wordOperand c)

/-- An operand with its accesses; a starred one must be a place. -/
def primary (r : Readers) (p : Place) (c : Cursor) : Reading :=
  if c.startsWith "*" && !c.startsWith "**" then do
    let (place, last) ← operand (r.arithmetic 100) p (c.drop 1)
    if isPlace place then pure (nodeOver "list_splat" c last [place], last) else none
  else do
    let (tree, after) ← atom r p c
    accesses r p after.rest.length c tree after

/-- How strongly a sign in front of an operand binds. -/
def signStrength : Nat := 20

/-- An operand, perhaps with signs in front. -/
def signed (r : Readers) (p : Place) (c : Cursor) : Reading :=
  let awaited : Reading := do
    let behind ← keyword? "await" c
    let (value, last) ← operand (r.arithmetic signStrength) p behind
    pure (nodeOver "await" c last [value], last)
  if c.startsWith "-" || c.startsWith "+" || c.startsWith "~" then do
    let (value, last) ← operand (r.arithmetic signStrength) p (c.drop 1)
    pure (nodeOver "unary_operator" c last [value], last)
  else awaited.or (primary r p c)

/-- Operators and operands behind an operand, as far as the operators bind more strongly than a
given one; only powers group to the right.  Each turn reads an operator. -/
def operations (r : Readers) (strength : Nat) (p : Place) (turns : Nat) (first : Cursor)
    (tree : GrammarTree) (after : Cursor) : Reading :=
  match turns, (onward? p after).bind arithmeticOperator? with
  | turns + 1, some (found, behind) =>
    if found ≤ strength then some (tree, after)
    else do
      let (right, last) ← operand (r.arithmetic (if found = 21 then 20 else found)) p behind
      operations r strength p turns first (nodeOver "binary_operator" first last [tree, right]) last
  | _, _ => some (tree, after)

/-- Arithmetic whose operators bind more strongly than a given one; no operator and no sign does
past 100. -/
def arithmetic (r : Readers) (strength : Nat) : ExpressionReader := fun p c => do
  if 100 ≤ strength then primary r p c
  else
    let (tree, after) ← signed r p c
    operations r strength p after.rest.length c tree after

/-! ## Comparisons and joining words -/

/-- The cursor behind an operator that compares. -/
def comparisonOperator? (p : Place) (c : Cursor) : Option Cursor :=
  match comparisonMark? c with
  | some behind => some behind
  | none =>
    match keyword? "in" c with
    | some behind => some behind
    | none =>
      match keyword? "not" c with
      | some behind => (onward? p.inner behind).bind (keyword? "in")
      | none =>
        (keyword? "is" c).map fun behind =>
          ((operandAt? p false behind).bind (keyword? "not")).getD behind

/-- How strongly comparisons bind among the operators of arithmetic. -/
def comparisonStrength : Nat := 13

/-- Operands behind comparing operators.  Each turn reads one. -/
def comparands (r : Readers) (p : Place) (turns : Nat) (after : Cursor) :
    Option (List GrammarTree × Cursor) :=
  match turns, (onward? p after).bind (comparisonOperator? p) with
  | turns + 1, some behind => do
    let (right, next) ← operand (r.arithmetic comparisonStrength) p behind
    let (more, last) ← comparands r p turns next
    pure (right :: more, last)
  | _, _ => some ([], after)

/-- Operands with comparing operators between them, or one operand alone. -/
def comparison (r : Readers) (p : Place) (c : Cursor) : Reading := do
  let (first, after) ← arithmetic r comparisonStrength p c
  let (more, last) ← comparands r p after.rest.length after
  if more.isEmpty then pure (first, last)
  else pure (nodeOver "comparison_operator" c last (first :: more), last)

/-- An expression without joining words behind it. -/
def prefixed (r : Readers) (p : Place) (c : Cursor) : Reading :=
  match keyword? "not" c with
  | some behind => do
    let (value, last) ← operand (r.expression 4) p behind
    pure (nodeOver "not_operator" c last [value], last)
  | none => (lambdaExpression r p c).or <| (namedExpression r p c).or (comparison r p c)

/-- Joining words and expressions behind an expression, from a tier on.  Each turn reads a word. -/
def joinedRest (r : Readers) (tier : Nat) (p : Place) (turns : Nat) (first : Cursor)
    (tree : GrammarTree) (after : Cursor) : Reading :=
  match turns, onward? p after with
  | turns + 1, some next =>
    let go := joinedRest r tier p turns first
    let binary (behind : Cursor) (tier : Nat) : Reading := do
      let (right, last) ← operand (r.expression tier) p behind
      go (nodeOver "boolean_operator" first last [tree, right]) last
    match keyword? "and" next, keyword? "or" next, keyword? "as" next, keyword? "if" next with
    | some behind, _, _, _ => if tier ≤ 3 then binary behind 4 else some (tree, after)
    | _, some behind, _, _ => if tier ≤ 2 then binary behind 3 else some (tree, after)
    | _, _, some behind, _ =>
      if tier ≤ 1 then do
        let start ← operandAt? p false behind
        let (target, last) ← r.expression 2 p start
        go (nodeOver "as_pattern" first last
          [tree, nodeOver "as_pattern_target" start last [target]]) last
      else some (tree, after)
    | _, _, _, some behind =>
      if tier = 0 then do
        let (condition, middle) ← operand r.whole p.inner behind
        let else_ ← (onward? p.inner middle).bind (keyword? "else")
        let (otherwise, last) ← operand r.whole p else_
        go (nodeOver "conditional_expression" first last [tree, condition, otherwise]) last
      else some (tree, after)
    | _, _, _, _ => some (tree, after)
  | _, _ => some (tree, after)

/-- **An expression**, from a tier on. -/
def expression (r : Readers) (tier : Nat) : ExpressionReader := fun p c => do
  let (tree, after) ← prefixed r p c
  joinedRest r tier p after.rest.length c tree after

/-- The readers that nest up to a depth. -/
def readersTo : Nat → Readers
  | 0 => ⟨fun _ _ _ => none, fun _ _ _ => none⟩
  | depth + 1 =>
    let r := readersTo depth
    ⟨expression r, arithmetic r⟩

end SlotEdit.Script
