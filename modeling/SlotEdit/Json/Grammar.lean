import SlotEdit.Syntax.GrammarTree
import SlotEdit.Text.CharClass
import SlotEdit.Text.Cursor

/-!
# Json/Grammar — the concrete syntax of JSON

`grammarTree?` reads a text as a sequence of JSON values, with white space and comments allowed
between tokens; literals are only cut out, not read.  `none` means the text does not fit.
-/

namespace SlotEdit.Json.Grammar

/-! ## Comments and white space -/

/-- The cursor after a comment that starts here. -/
def comment? (c : Cursor) : Option Cursor :=
  match c.rest with
  | '/' :: '/' :: _ => some (c.skipWhile (· ≠ '\n'))
  | '/' :: '*' :: rest => (blockEnd? rest).map fun n => c.drop (n + 2)
  | _ => none

/-- White space and comments passed over; the comments are kept.  Each turn reads a comment. -/
def extras (turns : Nat) (c : Cursor) : List GrammarTree × Cursor :=
  let c := c.skipWhile isAsciiBlank
  match turns, comment? c with
  | turns + 1, some after =>
    let (more, last) := extras turns after
    (.named "comment" ⟨c.offset, after.offset⟩ [] :: more, last)
  | _, _ => ([], c)

/-- White space and comments passed over; the comments are kept. -/
def skipExtras (c : Cursor) : List GrammarTree × Cursor := extras c.rest.length c

/-! ## Literals -/

/-- The letters that may follow a backslash in a string. -/
def escapeLetters : List Char := ['"', '\\', '/', 'b', 'f', 'n', 'r', 't', 'u']

/-- How many characters a string takes after its opening quote, the closing one included. -/
def stringEnd? : List Char → Option Nat
  | [] => none
  | '"' :: _ => some 1
  | '\\' :: e :: rest => if e ∈ escapeLetters then (stringEnd? rest).map (· + 2) else none
  | c :: rest => if c = '\\' ∨ c = '\n' then none else (stringEnd? rest).map (· + 1)

/-- How many characters an exponent takes: the letter, a minus if any, and digits. -/
def exponentLength : List Char → Nat
  | c :: rest =>
    if c = 'e' ∨ c = 'E' then
      let sign := if rest.head? = some '-' then 1 else 0
      let digits := ((rest.drop sign).takeWhile isAsciiDigit).length
      if digits = 0 then 0 else 1 + sign + digits
    else 0
  | [] => 0

/-- How many characters a number takes: a minus if any, zero or digits that do not start with
it, a point with any number of digits if there is one, and an exponent. -/
def numberLength (s : List Char) : Nat :=
  let sign := if s.head? = some '-' then 1 else 0
  let s := s.drop sign
  let whole :=
    if s.head? = some '0' then 1 else (s.takeWhile isAsciiDigit).length
  if whole = 0 then 0
  else
    let s := s.drop whole
    let fraction := match s with
      | '.' :: more => 1 + (more.takeWhile isAsciiDigit).length
      | _ => 0
    sign + whole + fraction + exponentLength (s.drop fraction)

/-- What reading a piece of a text gives, if it fits. -/
abbrev Reader (α : Type) := Cursor → Option (α × Cursor)

/-- A string. -/
def string : Reader GrammarTree := fun c =>
  match c.rest with
  | '"' :: rest => (stringEnd? rest).map fun n =>
    let after := c.drop (n + 1)
    (.named "string" ⟨c.offset, after.offset⟩ [], after)
  | _ => none

/-- One of the three words. -/
def word : Reader GrammarTree := fun c =>
  ["true", "false", "null"].findSome? fun name => (c.accept? name).map fun after =>
    (.named name ⟨c.offset, after.offset⟩ [], after)

/-- A number. -/
def number : Reader GrammarTree := fun c =>
  match numberLength c.rest with
  | 0 => none
  | n => some (.named "number" ⟨c.offset, c.offset + n⟩ [], c.drop n)

/-! ## Structure -/

/-- Items between an opening bracket, already read, and a closing one: none, or items with single
commas between them. -/
def commaSeparated (item : Reader GrammarTree) (close : Char) (turns : Nat) :
    Reader (List GrammarTree) := fun c =>
  match turns with
  | 0 => none
  | turns + 1 => do
    let (node, after) ← item c
    let (comments, after) := skipExtras after
    if after.peek? = some close then
      some (node :: comments, after.drop 1)
    else if after.peek? = some ',' then
      let (more, after) := skipExtras (after.drop 1)
      let (rest, last) ← commaSeparated item close turns after
      some (node :: comments ++ more ++ rest, last)
    else none

/-- A bracketed construct: its brackets and the items between them. -/
def bracketed (construct : String) (item : Reader GrammarTree) (close : Char) :
    Reader GrammarTree := fun c =>
  let (comments, inside) := skipExtras (c.drop 1)
  let whole (children : List GrammarTree) (after : Cursor) :=
    (GrammarTree.named construct ⟨c.offset, after.offset⟩ children, after)
  if inside.peek? = some close then some (whole comments (inside.drop 1))
  else do
    let (items, after) ← commaSeparated item close (inside.rest.length + 1) inside
    some (whole (comments ++ items) after)

/-- A member of an object: a string, a colon and a value. -/
def pair (value : Reader GrammarTree) : Reader GrammarTree := fun c => do
  let (key, after) ← string c
  let (before, after) := skipExtras after
  if after.peek? = some ':' then
    let (behind, after) := skipExtras (after.drop 1)
    let (v, last) ← value after
    some (.named "pair" ⟨c.offset, last.offset⟩
      (key.withRole "key" :: before ++ behind ++ [v.withRole "value"]), last)
  else none

/-- **A value**, nested at most `depth` deep. -/
def value (depth : Nat) : Reader GrammarTree := fun c =>
  match depth with
  | 0 => none
  | depth + 1 =>
    match c.peek? with
    | some '"' => string c
    | some '[' => bracketed "array" (value depth) ']' c
    | some '{' => bracketed "object" (pair (value depth)) '}' c
    | _ => (word c).or (number c)

/-- Values and comments up to the end of the text. -/
def values (depth turns : Nat) (c : Cursor) : Option (List GrammarTree) :=
  let (comments, c) := skipExtras c
  if c.atEnd then some comments
  else
    match turns with
    | 0 => none
    | turns + 1 => do
      let (node, after) ← value depth c
      let rest ← values depth turns after
      some (comments ++ node :: rest)

/-- **The concrete syntax tree of a text**: its values and comments. -/
def grammarTree? (text : String) : Option GrammarTree :=
  let c := (Cursor.ofText text).skipMark
  let size := c.rest.length
  (values (size + 1) (size + 1) c).map fun children =>
    .named "document" ⟨0, c.offset + size⟩ children

end SlotEdit.Json.Grammar
