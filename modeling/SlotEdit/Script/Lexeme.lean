import SlotEdit.Script.Layout
import SlotEdit.Syntax.GrammarTree

/-!
# Script/Lexeme — words, numbers and marks

Recognisers for single tokens.  Each takes the cursor at the front of a token and gives the cursor
behind it; a word is always taken whole, a number as far as it goes.
-/

namespace SlotEdit.Script

/-! ## Words -/

/-- The word at the front: a letter or underscore and all that continues it. -/
def word (c : Cursor) : List Char :=
  match c.rest with
  | first :: rest => if isNameStart first then first :: rest.takeWhile isNameContinue else []
  | [] => []

/-- The words that name nothing. -/
def reservedWords : List String :=
  ["False", "None", "True", "and", "as", "assert", "break", "class", "continue", "def", "del",
   "elif", "else", "except", "finally", "for", "from", "global", "if", "import", "in", "is",
   "lambda", "nonlocal", "not", "or", "pass", "raise", "return", "try", "while", "with", "yield"]

/-- The cursor behind a given word. -/
def keyword? (expected : String) (c : Cursor) : Option Cursor :=
  if word c = expected.toList then some (c.drop (word c).length) else none

/-- The cursor behind a word that may name something. -/
def name? (c : Cursor) : Option Cursor :=
  let w := word c
  if w.isEmpty || reservedWords.contains (String.ofList w) then none else some (c.drop w.length)

/-- A name as a node. -/
def identifier? (c : Cursor) : Option (GrammarTree × Cursor) :=
  (name? c).map fun after => (.named "identifier" ⟨c.offset, after.offset⟩ [], after)

/-! ## Marks -/

/-- The cursor behind a mark. -/
def mark? (expected : String) (c : Cursor) : Option Cursor := c.accept? expected

/-- The cursor behind a mark that no equals sign follows. -/
def markBare? (expected : String) (c : Cursor) : Option Cursor :=
  (c.accept? expected).bind fun after => if after.peek? = some '=' then none else some after

/-- The operators of arithmetic, longer ones first, with how strongly each binds. -/
def arithmeticOperators : List (String × Nat) :=
  [("**", 21), ("//", 19), ("<<", 17), (">>", 17), ("+", 18), ("-", 18), ("*", 19), ("@", 19),
   ("/", 19), ("%", 19), ("|", 14), ("&", 15), ("^", 16)]

/-- The arithmetic operator at the front, how strongly it binds, and the cursor behind it. -/
def arithmeticOperator? (c : Cursor) : Option (Nat × Cursor) :=
  match arithmeticOperators.find? fun (text, _) => c.startsWith text with
  | some (text, strength) => (markBare? text c).map fun after => (strength, after)
  | none => none

/-- The marks that compare, longer ones first. -/
def comparisonMarks : List String := ["<=", "==", "!=", ">=", "<>", "<", ">"]

/-- The cursor behind a mark that compares; a shift is none. -/
def comparisonMark? (c : Cursor) : Option Cursor :=
  if c.startsWith "<<" || c.startsWith ">>" then none
  else comparisonMarks.findSome? fun text => c.accept? text

/-- The marks that assign what an operator makes of the target and a value. -/
def augmentedMarks : List String :=
  ["**=", "//=", ">>=", "<<=", "+=", "-=", "*=", "/=", "@=", "%=", "&=", "^=", "|="]

/-- The cursor behind a mark that assigns through an operator. -/
def augmentedMark? (c : Cursor) : Option Cursor :=
  augmentedMarks.findSome? fun text => c.accept? text

/-- The cursor behind an equals sign that stands alone. -/
def equals? (c : Cursor) : Option Cursor := markBare? "=" c

/-- The cursor behind a colon that no equals sign follows. -/
def colon? (c : Cursor) : Option Cursor := markBare? ":" c

/-! ## Numbers -/

/-- How many characters a run of digits takes; an underscore may follow each digit. -/
def digitsLength (isDigit : Char → Bool) : List Char → Nat
  | c :: '_' :: rest => if isDigit c then 2 + digitsLength isDigit rest else 0
  | c :: rest => if isDigit c then 1 + digitsLength isDigit rest else 0
  | [] => 0

/-- How many characters digits behind a base mark take; an underscore may precede each. -/
def basedLength (isDigit : Char → Bool) : List Char → Nat
  | '_' :: c :: rest => if isDigit c then 2 + basedLength isDigit rest else 0
  | c :: rest => if isDigit c then 1 + basedLength isDigit rest else 0
  | [] => 0

/-- How many characters a letter of a given set takes. -/
def letterLength (letters : List Char) : List Char → Nat
  | c :: _ => if letters.contains c then 1 else 0
  | [] => 0

/-- How many characters an exponent takes. -/
def exponentLength (s : List Char) : Nat :=
  let letter := letterLength ['e', 'E'] s
  let sign := letterLength ['+', '-'] (s.drop letter)
  let digits := digitsLength isAsciiDigit (s.drop (letter + sign))
  if letter = 0 ∨ digits = 0 then 0 else letter + sign + digits

/-- How many characters a number in a base other than ten takes. -/
def basedNumberLength (s : List Char) : Nat :=
  match s with
  | '0' :: mark :: rest =>
    let digits :=
      if mark = 'x' ∨ mark = 'X' then basedLength isHexDigit rest
      else if mark = 'o' ∨ mark = 'O' then basedLength isOctDigit rest
      else if mark = 'b' ∨ mark = 'B' then basedLength (fun c => c == '0' || c == '1') rest
      else 0
    if digits = 0 then 0 else 2 + digits + letterLength ['l', 'L'] (rest.drop digits)
  | _ => 0

/-- How many characters a whole decimal number takes. -/
def wholeLength (s : List Char) : Nat :=
  let digits := digitsLength isAsciiDigit s
  if digits = 0 then 0 else digits + letterLength ['l', 'L', 'j', 'J'] (s.drop digits)

/-- How many characters a number with a point or an exponent takes. -/
def fractionalLength (s : List Char) : Nat :=
  let whole := digitsLength isAsciiDigit s
  let rest := s.drop whole
  let suffixed (n : Nat) : Nat := n + letterLength ['j', 'J'] (s.drop n)
  match rest with
  | '.' :: behind =>
    let fraction := digitsLength isAsciiDigit behind
    if whole = 0 ∧ fraction = 0 then 0
    else suffixed (whole + 1 + fraction + exponentLength (behind.drop fraction))
  | _ =>
    let exponent := exponentLength rest
    if whole = 0 ∨ exponent = 0 then 0 else suffixed (whole + exponent)

/-- A number as a node: the longest reading wins. -/
def number? (c : Cursor) : Option (GrammarTree × Cursor) :=
  let whole := max (basedNumberLength c.rest) (wholeLength c.rest)
  let fractional := fractionalLength c.rest
  let node (construct : String) (n : Nat) :=
    some (GrammarTree.named construct ⟨c.offset, c.offset + n⟩ [], c.drop n)
  if whole < fractional then node "float" fractional
  else if whole = 0 then none
  else node "integer" whole

/-! ## Openings of string literals -/

/-- The kind of a string literal, told by the letters in front and the quotes. -/
structure Quoting where
  formatted : Bool
  raw : Bool
  bytes : Bool
  quote : Char
  triple : Bool
deriving DecidableEq, Repr

/-- The letters that may stand in front of a string literal. -/
def isQuotingLetter (c : Char) : Bool := "fFrRbBuU".toList.contains c

/-- The opening of a string literal, and the cursor behind it. -/
def quoting? (c : Cursor) : Option (Quoting × Cursor) :=
  let letters := c.rest.takeWhile isQuotingLetter
  let has (lower upper : Char) : Bool := letters.contains lower || letters.contains upper
  match c.rest.drop letters.length with
  | quote :: rest =>
    if isQuote quote then
      let triple := quote != '`' && rest.take 2 == [quote, quote]
      some (⟨has 'f' 'F', has 'r' 'R', has 'b' 'B', quote, triple⟩,
        c.drop (letters.length + if triple then 3 else 1))
    else none
  | [] => none

end SlotEdit.Script
