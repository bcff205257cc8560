import SlotEdit.Text.CharClass
import SlotEdit.Text.Cursor
import SlotEdit.Syntax.GrammarTree

/-!
# Css/Lexeme — the smallest pieces of a style sheet

How many characters an identifier, a word, a number or a string takes at the front of a text, zero
meaning none; and the white space and comments between pieces.
-/

namespace SlotEdit.Css

/-! ## Identifiers and words -/

/-- A character an identifier may start with. -/
def isIdentStart (c : Char) : Bool :=
  isAsciiLetter c || c == '_' || (0xa0 ≤ c.toNat && c.toNat ≤ 0xff)

/-- A character an identifier may go on with. -/
def isIdentChar (c : Char) : Bool := isIdentStart c || isAsciiDigit c || c == '-'

/-- How many characters a backslash escape takes: up to six hexadecimal digits with one blank
after them, or any other character but a line feed. -/
def escapeLength : List Char → Nat
  | '\\' :: rest =>
    let digits := ((rest.take 6).takeWhile isHexDigit).length
    if digits = 0 then
      match rest with
      | c :: _ => if c = '\n' then 0 else 2
      | [] => 0
    else 1 + digits + (if ((rest.drop digits).head?.map isAsciiBlank).getD false then 1 else 0)
  | _ => 0

/-- How many characters the rest of an identifier takes. -/
def identTail (s : List Char) : Nat :=
  match s with
  | [] => 0
  | c :: rest =>
    if isIdentChar c then 1 + identTail rest
    else
      match escapeLength (c :: rest) with
      | 0 => 0
      | n + 1 => n + 1 + identTail (rest.drop n)
termination_by s.length
decreasing_by all_goals simp only [List.length_cons, List.length_drop]; omega

/-- How many characters the start of an identifier takes: one that may start it, or an escape. -/
def identHead (s : List Char) : Nat :=
  match s with
  | c :: _ => if isIdentStart c then 1 else escapeLength s
  | [] => 0

/-- How many characters an identifier takes: two hyphens, or a start with at most one hyphen in
front, then the rest. -/
def identLength (s : List Char) : Nat :=
  match s with
  | '-' :: '-' :: rest => 2 + identTail rest
  | '-' :: rest =>
    match identHead rest with
    | 0 => 0
    | n => 1 + n + identTail (rest.drop n)
  | _ =>
    match identHead s with
    | 0 => 0
    | n => n + identTail (s.drop n)

/-- A character that ends a word. -/
def isDelimiter (c : Char) : Bool :=
  isAsciiBlank c || c ∈ [',', ';', '!', '{', '}', '(', ')', '[', ']']

/-- How many characters the rest of a word takes: anything but delimiters, a slash only before a
character that is neither a delimiter nor a star. -/
def wordTail : List Char → Nat
  | '/' :: c :: rest => if c = '*' ∨ isDelimiter c then 0 else 2 + wordTail rest
  | c :: rest => if c = '/' ∨ isDelimiter c then 0 else 1 + wordTail rest
  | [] => 0

/-- How many characters a word takes: hyphens, underscores and slashed characters, then a letter,
then the rest. -/
def wordLength : List Char → Nat
  | '/' :: c :: rest =>
    if c = '*' ∨ isDelimiter c then 0
    else match wordLength rest with
      | 0 => 0
      | n => n + 2
  | c :: rest =>
    if isAsciiLetter c then 1 + wordTail rest
    else if c = '-' ∨ c = '_' then
      match wordLength rest with
      | 0 => 0
      | n => n + 1
    else 0
  | [] => 0

/-! ## Numbers, colours and strings -/

/-- How many characters a sign takes. -/
def signLength : List Char → Nat
  | c :: _ => if c = '+' ∨ c = '-' then 1 else 0
  | [] => 0

/-- How many ASCII digits stand in front. -/
def digitsLength (s : List Char) : Nat := (s.takeWhile isAsciiDigit).length

/-- How many characters an exponent takes: the letter, a minus if any, and digits. -/
def exponentLength : List Char → Nat
  | c :: rest =>
    if c = 'e' ∨ c = 'E' then
      let sign := if rest.head? = some '-' then 1 else 0
      match digitsLength (rest.drop sign) with
      | 0 => 0
      | n => 1 + sign + n
    else 0
  | [] => 0

/-- How many characters an integer takes, a sign included. -/
def integerLength (s : List Char) : Nat :=
  let sign := signLength s
  match digitsLength (s.drop sign) with
  | 0 => 0
  | n => sign + n

/-- How many characters a number takes, without its unit: a sign, digits, a point with digits
after it, an exponent; digits in front may be missing when there is a fraction. -/
def numberLength (s : List Char) : Nat :=
  let sign := signLength s
  let s := s.drop sign
  let whole := digitsLength s
  let s := s.drop whole
  let fraction := match s with
    | '.' :: rest => match digitsLength rest with
      | 0 => 0
      | n => n + 1
    | _ => 0
  if whole = 0 ∧ fraction = 0 then 0 else sign + whole + fraction + exponentLength (s.drop fraction)

/-- How many characters a unit takes. -/
def unitLength (s : List Char) : Nat :=
  (s.takeWhile fun c => isAsciiLetter c || c == '%').length

/-- How many characters a colour takes: a hash and three to eight hexadecimal digits. -/
def colorLength : List Char → Nat
  | '#' :: rest =>
    let n := ((rest.take 8).takeWhile isHexDigit).length
    if n < 3 then 0 else n + 1
  | _ => 0

/-- How many characters a string takes after its opening quote, up to and over the closing one. -/
def stringEnd? (quote : Char) : List Char → Option Nat
  | [] => none
  | '\\' :: _ :: rest => (stringEnd? quote rest).map (· + 2)
  | c :: rest =>
    if c = quote then some 1
    else if c = '\\' then none
    else (stringEnd? quote rest).map (· + 1)

/-- How many characters a string takes, both quotes included. -/
def stringLength : List Char → Nat
  | c :: rest =>
    if c = '"' ∨ c = '\'' then
      match stringEnd? c rest with
      | some n => n + 1
      | none => 0
    else 0
  | [] => 0

/-- How many characters an at-keyword takes. -/
def atKeywordLength : List Char → Nat
  | '@' :: rest =>
    match (rest.takeWhile fun c => isAsciiLetter c || c == '-' || c == '_').length with
    | 0 => 0
    | n => n + 1
  | _ => 0

/-! ## Between the pieces -/

/-- A comment that starts here, and the cursor after it. -/
def comment? (c : Cursor) : Option (GrammarTree × Cursor) :=
  match c.rest with
  | '/' :: '*' :: rest => (blockEnd? rest).map fun n =>
    let after := c.drop (n + 2)
    (.named "comment" ⟨c.offset, after.offset⟩ [], after)
  | '/' :: '/' :: _ =>
    let after := c.skipWhile (· ≠ '\n')
    some (.named "js_comment" ⟨c.offset, after.offset⟩ [], after)
  | _ => none

/-- White space and comments passed over; the comments are kept.  Where values may stand
(`inValue`) a word that starts with slashes is no comment.  Each turn reads a comment. -/
def extrasFrom (inValue : Bool) (turns : Nat) (c : Cursor) : List GrammarTree × Cursor :=
  let c := c.skipWhile isAsciiBlank
  if inValue && wordLength c.rest ≠ 0 then ([], c)
  else
    match turns, comment? c with
    | turns + 1, some (comment, after) =>
      let (more, last) := extrasFrom inValue turns after
      (comment :: more, last)
    | _, _ => ([], c)

/-- White space and comments passed over; the comments are kept. -/
def extras (c : Cursor) : List GrammarTree × Cursor := extrasFrom false c.rest.length c

/-- White space and comments passed over where a value may follow. -/
def valueExtras (c : Cursor) : List GrammarTree × Cursor := extrasFrom true c.rest.length c

/-- The cursor after white space and comments. -/
def skip (c : Cursor) : Cursor := (extras c).2

/-- The cursor after white space and comments where a value may follow. -/
def skipToValue (c : Cursor) : Cursor := (valueExtras c).2

end SlotEdit.Css
