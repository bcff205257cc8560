import SlotEdit.Syntax.Token
import SlotEdit.Text.CharClass

/-!
# Math/Token — the tokens of arithmetic

White space, numbers, identifiers, the five operators, and the punctuation of calls and groups.
-/

namespace SlotEdit.Math

/-- How many characters an exponent takes: the letter, a sign if any, and at least one digit. -/
def exponentLength : List Char → Nat
  | c :: rest =>
    if c = 'e' ∨ c = 'E' then
      let sign := if rest.head? = some '+' ∨ rest.head? = some '-' then 1 else 0
      let digits := ((rest.drop sign).takeWhile isDecimalDigit).length
      if digits = 0 then 0 else 1 + sign + digits
    else 0
  | [] => 0

/-- How many characters a significand takes: digits with a point after or among them if there is
one, or a point and digits. -/
def significandLength (s : List Char) : Nat :=
  let whole := (s.takeWhile isDecimalDigit).length
  match s.drop whole with
  | '.' :: rest =>
    let fraction := (rest.takeWhile isDecimalDigit).length
    if whole = 0 ∧ fraction = 0 then 0 else whole + 1 + fraction
  | _ => whole

/-- How many characters a number takes. -/
def numberLength (s : List Char) : Nat :=
  match significandLength s with
  | 0 => 0
  | n => n + exponentLength (s.drop n)

/-- How many characters an identifier takes. -/
def identifierLength : List Char → Nat
  | c :: rest =>
    if isAsciiLetter c || c == '_' then 1 + (rest.takeWhile isAsciiWord).length else 0
  | [] => 0

/-- One character out of a list. -/
def oneOf (chars : List Char) : List Char → Nat
  | c :: _ => if c ∈ chars then 1 else 0
  | [] => 0

/-- The rules for the tokens of arithmetic, in order. -/
def tokenRules : List TokenRule :=
  [⟨"WHITESPACE", fun _ s => (s.takeWhile isBlank).length⟩,
   ⟨"NUMBER", fun _ s => numberLength s⟩,
   ⟨"IDENTIFIER", fun _ s => identifierLength s⟩,
   ⟨"OPERATOR", fun _ s => oneOf ['-', '+', '*', '/', '^'] s⟩,
   ⟨"PUNCTUATION", fun _ s => oneOf ['(', ')', ','] s⟩]

/-- The kinds that are dropped. -/
def skippedKinds : List String := ["WHITESPACE"]

end SlotEdit.Math
