import SlotEdit.Interpreter
import SlotEdit.Value
import SlotEdit.Script.Lexeme

/-!
# Script/Literal — the values of literals

`literalValue` reads the text of a number, or of string literals side by side, as a value.  The
text is read on its own: line breaks between string literals end the expression, whatever brackets
stood around it.  Faults name the line of the text they are on.  An escape may name half of a surrogate
pair, which stays on its own even next to the other half.
-/

namespace SlotEdit.Script

-- The zero of a sum is that of the core library, whatever else is in scope.
local instance (priority := 10000) coreZero : Zero Nat := Zero.ofOfNat0

/-- What is wrong with a literal. -/
inductive LiteralCause
  | leadingZeros
  | invalidNumber (kind : String)
  | tooManyDigits (count : Nat)
  | invalidSyntax
  | unexpectedIndent
  | unterminated (line : Nat)
  | mixedKinds
  | bytesNotAscii
  | badEscape (first last : Nat) (reason : String)
  | badByteEscape (position : Nat)
deriving DecidableEq, Repr

/-- The wording of a cause. -/
def LiteralCause.message : LiteralCause → String
  | .leadingZeros => "leading zeros in decimal integer literals are not permitted; "
      ++ "use an 0o prefix for octal integers"
  | .invalidNumber kind => "invalid " ++ kind ++ " literal"
  | .tooManyDigits count => (NumberFault.tooManyDigits count).message
      ++ " - Consider hexadecimal for huge integer literals to avoid decimal conversion limits."
  | .invalidSyntax => "invalid syntax"
  | .unexpectedIndent => "unexpected indent"
  | .unterminated line =>
    "unterminated string literal (detected at line " ++ toString line ++ ")"
  | .mixedKinds => "cannot mix bytes and nonbytes literals"
  | .bytesNotAscii => "bytes can only contain ASCII literal characters"
  | .badEscape first last reason =>
    "(unicode error) 'unicodeescape' codec can't decode bytes in position " ++ toString first
      ++ "-" ++ toString last ++ ": " ++ reason
  | .badByteEscape position => "(value error) invalid \\x escape at position " ++ toString position

/-- A cause and the line of the literal it is on. -/
structure LiteralFault where
  cause : LiteralCause
  line : Nat
deriving DecidableEq, Repr

/-- The wording of a fault. -/
def LiteralFault.message (f : LiteralFault) : String :=
  f.cause.message ++ " (<unknown>, line " ++ toString f.line ++ ")"

/-! ## Numbers -/

/-- The value of digits in a base; what is no digit is passed over. -/
def valueInBase (base : Nat) (s : List Char) : Nat :=
  s.foldl (fun n c => match hexValue? c with | some d => base * n + d | none => n) 0

/-- Each underscore stands between two digits. -/
def hasLooseUnderscore (s : List Char) : Bool :=
  match s with
  | '_' :: rest => !((rest.head?.map isAsciiDigit).getD false) || hasLooseUnderscore rest
  | _ :: rest => hasLooseUnderscore rest
  | [] => false

/-- A number in a base other than ten, from behind its mark. -/
def basedValue (kind : String) (base : Nat) (digits : List Char) : Except LiteralCause Value :=
  if digits.getLast? = some 'l' ∨ digits.getLast? = some 'L' then .error (.invalidNumber kind)
  else .ok (.int (valueInBase base digits))

/-- A number in base ten. -/
def decimalValue (s : List Char) : Except LiteralCause Value :=
  let digits := s.filter fun c => c != '_'
  let body := digits.takeWhile isAsciiDigit
  let rest := digits.dropWhile isAsciiDigit
  let imaginary := digits.getLast? = some 'j' ∨ digits.getLast? = some 'J'
  if hasLooseUnderscore s then .error (.invalidNumber "decimal")
  else if rest.isEmpty ∨ rest = ['l'] ∨ rest = ['L'] then
    let significant := body.dropWhile fun c => c == '0'
    if !significant.isEmpty && significant.length < body.length then .error .leadingZeros
    else if !rest.isEmpty then .error (.invalidNumber "decimal")
    else if significant.length > digitLimit then .error (.tooManyDigits body.length)
    else .ok (.int (digitsValue body))
  else if imaginary then
    match readFloat? digits.dropLast with
    | some x => .ok (.imaginary x)
    | none => .error (.invalidNumber "imaginary")
  else
    match readFloat? digits with
    | some x => .ok (.float x)
    | none => .error (.invalidNumber "decimal")

/-- A number. -/
def numberValue (s : List Char) : Except LiteralCause Value :=
  match s with
  | '0' :: mark :: rest =>
    if mark = 'x' ∨ mark = 'X' then basedValue "hexadecimal" 16 rest
    else if mark = 'o' ∨ mark = 'O' then basedValue "octal" 8 rest
    else if mark = 'b' ∨ mark = 'B' then basedValue "binary" 2 rest
    else decimalValue s
  | _ => decimalValue s

/-! ## Escapes -/

variable [Interpreter]

/-- The character that a letter stands for behind a backslash. -/
def namedEscape? (c : Char) : Option Char :=
  match c with
  | '\\' => some '\\'
  | '\'' => some '\''
  | '"' => some '"'
  | 'b' => some '\x08'
  | 't' => some '\t'
  | 'n' => some '\n'
  | 'r' => some '\r'
  | 'f' => some '\x0c'
  | 'v' => some '\x0b'
  | 'a' => some '\x07'
  | _ => none

/-- Up to three octal digits at the front. -/
def octalDigits (s : List Char) : List Char := (s.take 3).takeWhile isOctDigit

/-- How many digits each hexadecimal escape has, and its pattern. -/
def hexEscape? (c : Char) : Option (Nat × String) :=
  match c with
  | 'x' => some (2, "\\xXX")
  | 'u' => some (4, "\\uXXXX")
  | 'U' => some (8, "\\UXXXXXXXX")
  | _ => none

/-- The number of places a character takes in the text that positions are counted in: a character
that is not ASCII stands there as an escape of ten. -/
def escapedWidth (c : Char) : Nat := if c.toNat < 128 then 1 else 10

/-- The letter with a code point: half of a surrogate pair is no character. -/
def letterOf (code : Nat) : Letter := if code.isValidChar then .char (Char.ofNat code) else .half code

/-- What an escape of a text makes, how many characters it takes behind its backslash, and how many
places those are; or the fault, given the place of the backslash. -/
def readEscape (position : Nat) (s : List Char) :
    Except LiteralCause (List Letter × Nat × Nat) :=
  match s with
  | [] => .ok ([.char '\\'], 0, 0)
  | c :: rest =>
    if c = '\n' then .ok ([], 1, 1)
    else
      match namedEscape? c, hexEscape? c with
      | some plain, _ => .ok ([.char plain], 1, 1)
      | none, some (count, pattern) =>
        let digits := (rest.take count).takeWhile isHexDigit
        let value := valueInBase 16 digits
        if digits.length < count then
          .error (.badEscape position (position + 1 + digits.length)
            ("truncated " ++ pattern ++ " escape"))
        else if value > 0x10ffff then
          .error (.badEscape position (position + 1 + count) "illegal Unicode character")
        else .ok ([letterOf value], 1 + count, 1 + count)
      | none, none =>
        if isOctDigit c then
          let digits := octalDigits s
          .ok ([.char (Char.ofNat (valueInBase 8 digits))], digits.length, digits.length)
        else if c = 'N' then
          match rest with
          | '\x7b' :: named =>
            let name := named.takeWhile fun c => c != '\x7d'
            let width := (name.map escapedWidth).sum
            if name.length = named.length then
              .error (.badEscape position (position + 2 + width) "malformed \\N character escape")
            else if name.isEmpty then
              .error (.badEscape position (position + 2) "malformed \\N character escape")
            else
              match Interpreter.charNamed? (String.ofList name) with
              | some plain => .ok ([.char plain], name.length + 3, width + 3)
              | none => .error (.badEscape position (position + 3 + width) "unknown Unicode character name")
          | _ => .error (.badEscape position (position + 1) "malformed \\N character escape")
        else if c.toNat < 128 then .ok ([.char '\\', .char c], 1, 1)
        else .ok ([.char '\\', .char c], 1, 15)

/-- The letters of a text with escapes.  Each turn passes a character or an escape. -/
def unescape (turns position : Nat) (s : List Char) : Except LiteralCause (List Letter) :=
  match turns, s with
  | turns + 1, '\\' :: rest => do
    let (made, taken, width) ← readEscape position rest
    let more ← unescape turns (position + 1 + width) (rest.drop taken)
    pure (made ++ more)
  | turns + 1, c :: rest => do
    let more ← unescape turns (position + escapedWidth c) rest
    pure (.char c :: more)
  | _, _ => .ok []

/-- What an escape among bytes makes, and how many characters it takes behind its backslash. -/
def readByteEscape (position : Nat) (s : List Char) : Except LiteralCause (List Nat × Nat) :=
  match s with
  | [] => .ok ([92], 0)
  | c :: rest =>
    match namedEscape? c with
    | some plain => .ok ([plain.toNat], 1)
    | none =>
      if c = '\n' then .ok ([], 1)
      else if c = 'x' then
        let digits := (rest.take 2).takeWhile isHexDigit
        if digits.length < 2 then .error (.badByteEscape position)
        else .ok ([valueInBase 16 digits], 3)
      else if isOctDigit c then
        let digits := octalDigits s
        .ok ([valueInBase 8 digits % 256], digits.length)
      else .ok ([92, c.toNat], 1)

/-- The bytes of ASCII characters with escapes.  Each turn passes a character or an escape. -/
def unescapeBytes (turns position : Nat) (s : List Char) : Except LiteralCause (List Nat) :=
  match turns, s with
  | turns + 1, '\\' :: rest => do
    let (made, taken) ← readByteEscape position rest
    let more ← unescapeBytes turns (position + 1 + taken) (rest.drop taken)
    pure (made ++ more)
  | turns + 1, c :: rest => do
    let more ← unescapeBytes turns (position + 1) rest
    pure (c.toNat :: more)
  | _, _ => .ok []

/-! ## String literals -/

/-- A string literal: its kind, the text between its quotes, and the lines it starts and ends
on. -/
structure StringPiece where
  kind : Quoting
  body : List Char
  line : Nat
  lastLine : Nat
deriving Repr

/-- The text up to the closing quotes, with what is behind them and the line they are on; or the
line where the literal breaks off. -/
def splitBody (kind : Quoting) (line : Nat) : List Char → Except Nat (List Char × List Char × Nat)
  | [] => .error line
  | '\\' :: c :: rest => do
    let (body, behind, last) ← splitBody kind (if c = '\n' then line + 1 else line) rest
    pure ('\\' :: c :: body, behind, last)
  | c :: rest =>
    if c = kind.quote && (!kind.triple || rest.take 2 == [c, c]) then
      .ok ([], if kind.triple then rest.drop 2 else rest, line)
    else if c = '\n' && !kind.triple then .error line
    else do
      let (body, behind, last) ← splitBody kind (if c = '\n' then line + 1 else line) rest
      pure (c :: body, behind, last)

/-- The letters in front of a literal belong together. -/
def isKnownKind (letters : List Char) : Bool :=
  ["", "r", "u", "b", "br", "rb"].contains (String.ofList (letters.map asciiLowerChar))

/-- What stands on a line behind its string literals. -/
inductive LineRest
  | textEnd
  | lineBreak (behind : List Char)
  | other
deriving Repr

/-- The string literals up to the end of a line, and the line that end is on.  Each turn passes
one character between literals, or a literal. -/
def piecesOnLine (turns line : Nat) (s : List Char) :
    Except LiteralFault (List StringPiece × LineRest × Nat) :=
  match turns, s with
  | 0, _ => .ok ([], .other, line)
  | _, [] => .ok ([], .textEnd, line)
  | turns + 1, c :: rest =>
    if c = '\n' then .ok ([], .lineBreak rest, line)
    else if c = ' ' ∨ c = '\t' ∨ c = '\x0c' then piecesOnLine turns line rest
    else if c = '#' then piecesOnLine turns line (rest.dropWhile fun c => c != '\n')
    else if c = '\\' ∧ rest.head? = some '\n' then piecesOnLine turns (line + 1) (rest.drop 1)
    else
      let letters := s.takeWhile isQuotingLetter
      match quoting? ⟨0, s⟩ with
      | none => .ok ([], .other, line)
      | some (kind, inside) =>
        if kind.quote = '`' || !isKnownKind letters then .ok ([], .other, line)
        else
          match splitBody kind line inside.rest with
          | .error last => .error ⟨.unterminated last, line⟩
          | .ok (body, behind, last) => do
            let (more, rest, end_) ← piecesOnLine turns last behind
            pure (⟨kind, body, line, last⟩ :: more, rest, end_)

/-- The value of one string literal; the line is where faults of escapes are reported. -/
def pieceValue (line : Nat) (piece : StringPiece) : Except LiteralFault Value :=
  let plain := piece.kind.raw || !piece.body.contains '\\'
  let size := piece.body.length
  let at_ (cause : LiteralCause) : LiteralFault := ⟨cause, line⟩
  if piece.kind.bytes then
    if piece.body.any fun c => 128 ≤ c.toNat then .error ⟨.bytesNotAscii, piece.line⟩
    else
      let values := if plain then .ok (piece.body.map Char.toNat)
        else (unescapeBytes size 0 piece.body).mapError at_
      values.map fun ns => .bytes (ns.map UInt8.ofNat)
  else if plain then .ok (.str (String.ofList piece.body))
  else ((unescape size 0 piece.body).mapError at_).map fun letters => .ofText ⟨letters⟩

/-- Two values side by side as one. -/
def joinValues (line : Nat) (a b : Value) : Except LiteralFault Value :=
  match a.text?, b.text? with
  | some s, some t => .ok (.ofText (s ++ t))
  | _, _ =>
    match a, b with
    | .bytes s, .bytes t => .ok (.bytes (s ++ t))
    | _, _ => .error ⟨.mixedKinds, line⟩

/-- The value of string literals side by side. -/
def piecesValue (line : Nat) : List StringPiece → Except LiteralFault Value
  | [] => .error ⟨.invalidSyntax, line⟩
  | first :: rest => do
    let start ← pieceValue line first
    rest.foldlM (fun value piece => do joinValues line value (← pieceValue line piece)) start

/-- The fault of what stands on the lines behind an expression, if anything does.  `column` tells
whether blanks stand in front on the line.  Each turn passes a character or a comment. -/
def behindFault? (turns line : Nat) (column : Bool) (s : List Char) : Option LiteralFault :=
  match turns, s with
  | turns + 1, c :: rest =>
    if c = '\n' then behindFault? turns (line + 1) false rest
    else if c = ' ' ∨ c = '\t' then behindFault? turns line true rest
    else if c = '\x0c' then behindFault? turns line false rest
    else if c = '#' then behindFault? turns line column (rest.dropWhile fun c => c != '\n')
    else some ⟨if column then .unexpectedIndent else .invalidSyntax, line⟩
  | _, _ => none

/-- A line break of any kind as a line feed. -/
def unifyBreaks : List Char → List Char
  | '\r' :: '\n' :: rest => '\n' :: unifyBreaks rest
  | '\r' :: rest => '\n' :: unifyBreaks rest
  | c :: rest => c :: unifyBreaks rest
  | [] => []

/-- The value of the string literals of a text. -/
def stringsValue (text : List Char) : Except LiteralFault Value := do
  let s := unifyBreaks text
  let (pieces, rest, line) ← piecesOnLine (s.length + 1) 1 s
  let value ← piecesValue line pieces
  match rest with
  | .textEnd => pure value
  | .other => .error ⟨.invalidSyntax, line⟩
  | .lineBreak behind =>
    match behindFault? behind.length (line + 1) false behind with
    | some fault => .error fault
    | none => pure value

/-- **The value of a literal**, a number or string literals side by side. -/
def literalValue (text : String) : Except LiteralFault Value :=
  match text.toList with
  | c :: rest =>
    if isAsciiDigit c ∨ c = '.' then (numberValue (c :: rest)).mapError fun cause => ⟨cause, 1⟩
    else stringsValue (c :: rest)
  | [] => .error ⟨.invalidSyntax, 1⟩

end SlotEdit.Script
