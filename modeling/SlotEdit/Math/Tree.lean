import SlotEdit.Interpreter
import SlotEdit.Syntax.Node
import SlotEdit.Math.Token

/-!
# Math/Tree — arithmetic expressions as syntax trees

From loosest to tightest: sums and differences, products and quotients, negation, powers, atoms.
The first two associate to the left, powers to the right, and the exponent of a power may be
negated.  `ofText` makes the tree of a whole text.
-/

namespace SlotEdit.Math

/-- Why a text is no expression. -/
inductive Fault
  | unexpectedCharacter (e : UnexpectedCharacter)
  | unexpectedToken (e : UnexpectedToken)
  | trailing (found : Token)
  | badNumber (token : Token) (fault : NumberFault)
  | tooDeep

/-- The wording of a refused expression. -/
def Fault.message : Fault → String
  | .unexpectedCharacter e => e.message
  | .unexpectedToken e => e.message
  | .trailing found =>
    "Unexpected " ++ quoted found.value ++ atOffset found.start
  | .badNumber token fault =>
    "Invalid number " ++ slice token.value 0 40 ++ ": " ++ fault.message
      ++ atOffset token.start
  | .tooDeep => "maximum recursion depth exceeded"

/-- What reading a piece of an expression gives. -/
abbrev Reader := List Token → Except Fault (Node × List Token)

/-- The next token. -/
def current (tokens : List Token) : Token := tokens.headD (Token.atEnd 0)

/-- The token is of a kind and has a value. -/
def isThe (t : Token) (kind value : String) : Bool := t.kind == kind && t.value == value

/-- The value of a number token: a floating-point one when it has a point or an exponent. -/
def numberValue (text : String) : Except NumberFault Value :=
  if text.toList.any fun c => c == '.' || c == 'e' || c == 'E' then (readFloat text).map .float
  else (readInt text).map .int

/-- The form of the operation an operator stands for. -/
def operationForm (operator : String) : MathForm :=
  match operator with
  | "+" => .sum
  | "-" => .difference
  | "*" => .multiplication
  | "/" => .division
  | _ => .exponent

/-- An operation on two operands, from the start of the first to the end of the second. -/
def operation (left : Node) (operator : String) (right : Node) : Node :=
  .mk (.math (operationForm operator)) ⟨left.span.start, right.span.stop⟩ [left, right]

/-- Operands with operators out of a list between them, from the left.  Each turn takes an
operator. -/
def chainFrom (operand : Reader) (operators : List String) (turns : Nat) (left : Node)
    (tokens : List Token) : Except Fault (Node × List Token) :=
  let t := current tokens
  match turns with
  | turns + 1 =>
    if t.kind == "OPERATOR" && t.value ∈ operators then do
      let (right, rest) ← operand (tokens.drop 1)
      chainFrom operand operators turns (operation left t.value right) rest
    else .ok (left, tokens)
  | 0 => .ok (left, tokens)

/-- **A chain that associates to the left.** -/
def chain (operand : Reader) (operators : List String) : Reader := fun tokens => do
  let (left, rest) ← operand tokens
  chainFrom operand operators rest.length left rest

/-- An expression: sums and differences of products and quotients. -/
def expression (unary : Reader) : Reader := chain (chain unary ["*", "/"]) ["+", "-"]

/-- The arguments of a call after its opening parenthesis or a comma, up to and over the closing
parenthesis, and where that one ends.  Each turn reads an argument. -/
def arguments (argument : Reader) (turns : Nat) (tokens : List Token) :
    Except Fault (List Node × Nat × List Token) :=
  match turns with
  | 0 => .error (.unexpectedToken ⟨",", current tokens⟩)
  | turns + 1 => do
    let (node, rest) ← argument tokens
    let t := current rest
    if isThe t "PUNCTUATION" ")" then pure ([node], t.stop, rest.drop 1)
    else if isThe t "PUNCTUATION" "," then
      let (nodes, stop, last) ← arguments argument turns (rest.drop 1)
      pure (node :: nodes, stop, last)
    else .error (.unexpectedToken ⟨",", t⟩)

/-- A number, a variable, a call or a group. -/
def atom (inner : Reader) : Reader := fun tokens =>
  let t := current tokens
  let rest := tokens.drop 1
  if t.kind == "NUMBER" then
    match numberValue t.value with
    | .ok v => .ok (.mk (.math (.number v)) ⟨t.start, t.stop⟩ [], rest)
    | .error fault => .error (.badNumber t fault)
  else if t.kind == "IDENTIFIER" then
    let name := Node.mk (.math (.variable t.value)) ⟨t.start, t.stop⟩ []
    if isThe (current rest) "PUNCTUATION" "(" then do
      let rest := rest.drop 1
      let t' := current rest
      let (nodes, stop, last) ←
        if isThe t' "PUNCTUATION" ")" then pure ([], t'.stop, rest.drop 1)
        else arguments inner rest.length rest
      pure (.mk (.math .functionCall) ⟨t.start, stop⟩ (name :: nodes), last)
    else .ok (name, rest)
  else if isThe t "PUNCTUATION" "(" then do
    let (node, rest) ← inner rest
    let close := current rest
    if isThe close "PUNCTUATION" ")" then
      pure (.mk (.math .parenthesis) ⟨t.start, close.stop⟩ [node], rest.drop 1)
    else .error (.unexpectedToken ⟨")", close⟩)
  else .error (.unexpectedToken ⟨"a number, a variable or '('", t⟩)

/-- An atom, raised to a power if a caret follows. -/
def power (inner unary : Reader) : Reader := fun tokens => do
  let (base, rest) ← atom inner tokens
  if isThe (current rest) "OPERATOR" "^" then
    let (exponent, rest) ← unary (rest.drop 1)
    pure (operation base "^" exponent, rest)
  else pure (base, rest)

/-- A reader that has no frame left. -/
def outOfFrames : Reader := fun _ => .error .tooDeep

/-- **A negation or a power** in so many frames.  What stands behind a sign is read one frame further
down, an exponent two, and what stands in parentheses five. -/
def unary (frames : Nat) : Reader := fun tokens =>
  match frames with
  | 0 => .error .tooDeep
  | frames + 1 =>
    let t := current tokens
    if isThe t "OPERATOR" "-" then do
      let (operand, rest) ← unary frames (tokens.drop 1)
      pure (.mk (.math .negation) ⟨t.start, operand.span.stop⟩ [operand], rest)
    else
      let content := match frames with
        | frames + 4 => expression (unary frames)
        | _ => outOfFrames
      let exponent := match frames with
        | frames + 1 => unary frames
        | 0 => outOfFrames
      power content exponent tokens

/-- The frames for an expression. -/
def frameLimit [Interpreter] : Nat := Interpreter.mathFrames

/-- The tree of a whole list of tokens. -/
def ofTokens [Interpreter] (tokens : List Token) : Except Fault Node := do
  let (node, rest) ← expression (unary frameLimit) tokens
  let t := current rest
  if t.kind == "EOF" then pure node else .error (.trailing t)

/-- **The syntax tree of an expression.** -/
def ofText [Interpreter] (text : String) : Except Fault Node :=
  match tokenize tokenRules skippedKinds text with
  | .ok tokens => ofTokens tokens
  | .error e => .error (.unexpectedCharacter e)

end SlotEdit.Math
