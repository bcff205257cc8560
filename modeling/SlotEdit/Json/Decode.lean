import SlotEdit.Value
import SlotEdit.Interpreter
import SlotEdit.Text.Cursor
import SlotEdit.Text.Lines

/-!
# Json/Decode — JSON texts as values

`decode` reads a whole text as one JSON value, with the constants `NaN`, `Infinity` and
`-Infinity` allowed.  A `Fault` says what was expected and where; `depth` bounds how far lists
and objects may nest.
-/

namespace SlotEdit.Json

/-- What is wrong with a JSON text. -/
inductive Cause
  | byteOrderMark
  | expectingValue
  | expectingKey
  | expectingColon
  | expectingComma
  | extraData
  | unterminatedString
  | controlCharacter
  | badEscape
  | badUnicodeEscape
  | badNumber (fault : NumberFault)
  | tooDeep
deriving DecidableEq, Repr

/-- A cause and the offset it was found at. -/
structure Fault where
  cause : Cause
  offset : Nat
deriving DecidableEq, Repr

/-- What a cause says before its place. -/
def Cause.message : Cause → String
  | .byteOrderMark => "Unexpected UTF-8 BOM (decode using utf-8-sig)"
  | .expectingValue => "Expecting value"
  | .expectingKey => "Expecting property name enclosed in double quotes"
  | .expectingColon => "Expecting ':' delimiter"
  | .expectingComma => "Expecting ',' delimiter"
  | .extraData => "Extra data"
  | .unterminatedString => "Unterminated string starting at"
  | .controlCharacter => "Invalid control character at"
  | .badEscape => "Invalid \\escape: "
  | .badUnicodeEscape => "Invalid \\uXXXX escape"
  | .badNumber fault => fault.message
  | .tooDeep => "maximum recursion depth exceeded"

/-- The wording of a fault in a text; all but numbers and depth name line, column and offset. -/
def Fault.message (text : String) (fault : Fault) : String :=
  match fault.cause with
  | .badNumber _ | .tooDeep => fault.cause.message
  | cause =>
    let p := (LineTable.ofText text).positionAt fault.offset
    cause.message ++ ": line " ++ toString (p.row + 1) ++ " column " ++ toString (p.column + 1)
      ++ " (char " ++ toString fault.offset ++ ")"

/-! ## Strings -/

/-- White space between JSON tokens. -/
def isSpace (c : Char) : Bool := c == ' ' || c == '\t' || c == '\n' || c == '\r'

/-- The character a letter stands for after a backslash. -/
def simpleEscape? : Char → Option Char
  | '"' => some '"'
  | '\\' => some '\\'
  | '/' => some '/'
  | 'b' => some '\x08'
  | 'f' => some '\x0c'
  | 'n' => some '\n'
  | 'r' => some '\r'
  | 't' => some '\t'
  | _ => none

/-- The number four hexadecimal digits write, when at least one more character follows them. -/
def hexFour? : List Char → Option Nat
  | a :: b :: c :: d :: _ :: _ => do
    let a ← hexValue? a
    let b ← hexValue? b
    let c ← hexValue? c
    let d ← hexValue? d
    pure (((a * 16 + b) * 16 + c) * 16 + d)
  | _ => none

/-- The first half of a surrogate pair. -/
def isHighSurrogate (n : Nat) : Bool := 0xD800 ≤ n ∧ n < 0xDC00

/-- The second half of a surrogate pair. -/
def isLowSurrogate (n : Nat) : Bool := 0xDC00 ≤ n ∧ n < 0xE000

/-- The code point of a surrogate pair. -/
def joinSurrogates (high low : Nat) : Nat := 0x10000 + (high - 0xD800) * 0x400 + (low - 0xDC00)

/-- The letter of a code point. -/
def letterOfCode (n : Nat) : Letter :=
  if isHighSurrogate n || isLowSurrogate n then .half n else .char (Char.ofNat n)

/-- **The inside of a string**, after its opening quote, up to and over the closing one.  `start`
is where the opening quote stands. -/
def scanString (start offset : Nat) (s : List Char) : Except Fault (List Letter × Cursor) :=
  match s with
  | [] => .error ⟨.unterminatedString, start⟩
  | '"' :: rest => .ok ([], ⟨offset + 1, rest⟩)
  | ['\\'] => .error ⟨.unterminatedString, start⟩
  | '\\' :: 'u' :: rest =>
    match hexFour? rest with
    | none => .error ⟨.badUnicodeEscape, offset + 1⟩
    | some high =>
      if isHighSurrogate high ∧ 11 ≤ rest.length ∧ (rest.drop 4).take 2 = ['\\', 'u'] then
        match hexFour? (rest.drop 6) with
        | none => .error ⟨.badUnicodeEscape, offset + 7⟩
        | some low =>
          if isLowSurrogate low then do
            let (cs, after) ← scanString start (offset + 12) (rest.drop 10)
            pure (.char (Char.ofNat (joinSurrogates high low)) :: cs, after)
          else do
            let (cs, after) ← scanString start (offset + 6) (rest.drop 4)
            pure (letterOfCode high :: cs, after)
      else do
        let (cs, after) ← scanString start (offset + 6) (rest.drop 4)
        pure (letterOfCode high :: cs, after)
  | '\\' :: c :: rest =>
    match simpleEscape? c with
    | none => .error ⟨.badEscape, offset⟩
    | some e => do
      let (cs, after) ← scanString start (offset + 2) rest
      pure (.char e :: cs, after)
  | c :: rest =>
    if c.toNat < 32 then .error ⟨.controlCharacter, offset⟩
    else do
      let (cs, after) ← scanString start (offset + 1) rest
      pure (.char c :: cs, after)
termination_by s.length
decreasing_by all_goals simp only [List.length_cons, List.length_drop]; omega

/-! ## Numbers -/

/-- The digits at the front of a text. -/
def digitsOf (s : List Char) : List Char := s.takeWhile isAsciiDigit

/-- What follows the digits at the front of a text. -/
def afterDigits (s : List Char) : List Char := s.dropWhile isAsciiDigit

/-- A fraction at the front of a text: a point and at least one digit. -/
def fractionOf (s : List Char) : List Char :=
  match s with
  | '.' :: rest => if (digitsOf rest).isEmpty then [] else '.' :: digitsOf rest
  | _ => []

/-- An exponent at the front of a text: the letter, a sign if any, and at least one digit. -/
def exponentOf (s : List Char) : List Char :=
  match s with
  | c :: rest =>
    if c = 'e' ∨ c = 'E' then
      let sign := rest.takeWhile fun d => d == '+' || d == '-'
      let sign := sign.take 1
      let digits := digitsOf (rest.drop sign.length)
      if digits.isEmpty then [] else c :: sign ++ digits
    else []
  | [] => []

/-- The integer part at the front of a text: a sign if any, then zero alone or digits that do not
start with it. -/
def integerOf (s : List Char) : List Char :=
  let sign := match s with
    | '-' :: _ => ['-']
    | _ => []
  match s.drop sign.length with
  | '0' :: _ => sign ++ ['0']
  | rest => if (digitsOf rest).isEmpty then [] else sign ++ digitsOf rest

/-- A number at the front of a text: its integer part, then its fraction and exponent. -/
def scanNumber? (s : List Char) : Option (List Char × List Char) :=
  let whole := integerOf s
  if whole.isEmpty then none
  else
    let rest := s.drop whole.length
    let fraction := fractionOf rest
    some (whole, fraction ++ exponentOf (rest.drop fraction.length))

/-- The value of a number's integer part and of what follows it. -/
def numberValue (whole tail : List Char) : Except NumberFault Value :=
  if tail.isEmpty then
    let (negative, digits) := splitSign whole
    (integerOfDigits negative digits).map .int
  else .ok (.float ((readFloat? (whole ++ tail)).getD .nan))

/-! ## Values -/

/-- What reading a piece of a text gives. -/
abbrev Reader (α : Type) := Cursor → Except Fault (α × Cursor)

/-- The words that stand for values. -/
def words : List (String × Value) :=
  [("null", .null), ("true", .bool true), ("false", .bool false), ("NaN", .float .nan),
   ("Infinity", .float (.infinite false)), ("-Infinity", .float (.infinite true))]

/-- A word that stands for a value. -/
def word? (c : Cursor) : Option (Value × Cursor) :=
  words.findSome? fun (name, value) => (c.accept? name).map fun after => (value, after)

/-- The items of a list after its opening bracket or a comma, up to and over the closing bracket.
Each turn reads at least a comma, so `turns` never runs out when it is the length of the text. -/
def readItems (value : Reader Value) (turns : Nat) (c : Cursor) :
    Except Fault (List Value × Cursor) :=
  match turns with
  | 0 => .error ⟨.expectingValue, c.offset⟩
  | turns + 1 => do
    let (v, after) ← value c
    let after := after.skipWhile isSpace
    match after.peek? with
    | some ']' => pure ([v], after.drop 1)
    | some ',' =>
      let (vs, last) ← readItems value turns ((after.drop 1).skipWhile isSpace)
      pure (v :: vs, last)
    | _ => .error ⟨.expectingComma, after.offset⟩

/-- A list after its opening bracket. -/
def readList (value : Reader Value) : Reader Value := fun c =>
  let c := c.skipWhile isSpace
  if c.peek? = some ']' then .ok (.list [], c.drop 1)
  else do
    let (vs, after) ← readItems value (c.rest.length + 1) c
    pure (.list vs, after)

/-- The members of an object after its opening brace or a comma, up to and over the closing
brace. -/
def readMembers (value : Reader Value) (turns : Nat) (c : Cursor) :
    Except Fault (List (Value × Value) × Cursor) :=
  match turns with
  | 0 => .error ⟨.expectingKey, c.offset⟩
  | turns + 1 =>
    if c.peek? = some '"' then do
      let (key, after) ← scanString c.offset (c.offset + 1) (c.rest.drop 1)
      let after := after.skipWhile isSpace
      if after.peek? = some ':' then
        let (v, after) ← value ((after.drop 1).skipWhile isSpace)
        let after := after.skipWhile isSpace
        match after.peek? with
        | some '}' => pure ([(.ofText ⟨key⟩, v)], after.drop 1)
        | some ',' =>
          let (vs, last) ← readMembers value turns ((after.drop 1).skipWhile isSpace)
          pure ((.ofText ⟨key⟩, v) :: vs, last)
        | _ => .error ⟨.expectingComma, after.offset⟩
      else .error ⟨.expectingColon, after.offset⟩
    else .error ⟨.expectingKey, c.offset⟩

/-- An object after its opening brace; of two members of one key the later value wins, in the
earlier place. -/
def readObject (value : Reader Value) : Reader Value := fun c =>
  let c := c.skipWhile isSpace
  if c.peek? = some '}' then .ok (.dict [], c.drop 1)
  else do
    let (members, after) ← readMembers value (c.rest.length + 1) c
    pure (Value.dictOfEntries members, after)

/-- A number or one of the words that stand for values. -/
def readScalar : Reader Value := fun c =>
  match word? c with
  | some found => .ok found
  | none =>
    match scanNumber? c.rest with
    | some (whole, tail) =>
      match numberValue whole tail with
      | .ok v => .ok (v, c.drop (whole.length + tail.length))
      | .error e => .error ⟨.badNumber e, c.offset⟩
    | none => .error ⟨.expectingValue, c.offset⟩

/-- **One value**, with lists and objects nested at most `depth` deep. -/
def readValue (depth : Nat) : Reader Value := fun c =>
  match c.peek? with
  | some '"' => do
    let (cs, after) ← scanString c.offset (c.offset + 1) (c.rest.drop 1)
    pure (.ofText ⟨cs⟩, after)
  | some '[' =>
    match depth with
    | 0 => .error ⟨.tooDeep, c.offset⟩
    | depth + 1 => readList (readValue depth) (c.drop 1)
  | some '{' =>
    match depth with
    | 0 => .error ⟨.tooDeep, c.offset⟩
    | depth + 1 => readObject (readValue depth) (c.drop 1)
  | _ => readScalar c

/-- How deep a value may nest that is read or written. -/
def nestingLimit [Interpreter] : Nat := Interpreter.valueLevels

/-- **A whole text as one value**, white space around it allowed. -/
def decode [Interpreter] (text : String) : Except Fault Value :=
  if text.toList.head? = some '\ufeff' then .error ⟨.byteOrderMark, 0⟩
  else do
    let (v, after) ← readValue nestingLimit ((Cursor.ofText text).skipWhile isSpace)
    let after := after.skipWhile isSpace
    if after.atEnd then pure v else .error ⟨.extraData, after.offset⟩

end SlotEdit.Json
