import SlotEdit.Interpreter
import SlotEdit.Regex.Piece

/-!
# Regex/Escape — what escaped characters stand for

`expressionEscape` reads an escape outside a character set, `memberEscape` one inside.  Both know
the codes of characters; only the first knows places and references to groups.
-/

namespace SlotEdit.Regex

variable [Interpreter]

/-- The characters with a letter of their own. -/
def letterCode? (c : Char) : Option Nat :=
  match c with
  | 'a' => some 7
  | 'b' => some 8
  | 'f' => some 12
  | 'n' => some 10
  | 'r' => some 13
  | 't' => some 9
  | 'v' => some 11
  | '\\' => some 92
  | _ => none

/-- The classes of characters with a letter of their own; the upper case negates. -/
def category? (c : Char) : Option Member :=
  match c with
  | 'd' => some (.category .digit false)
  | 'D' => some (.category .digit true)
  | 's' => some (.category .blank false)
  | 'S' => some (.category .blank true)
  | 'w' => some (.category .word false)
  | 'W' => some (.category .word true)
  | _ => none

/-- The places with a letter of their own. -/
def anchor? (c : Char) : Option Anchor :=
  match c with
  | 'A' => some .textStart
  | 'Z' => some .textEnd
  | 'b' => some .wordBoundary
  | 'B' => some .noWordBoundary
  | _ => none

/-- The number a list of digits writes in a base up to sixteen. -/
def digitsIn (base : Nat) (digits : List Char) : Nat :=
  digits.foldl (fun n d => base * n + (hexValue? d).getD 0) 0

/-- A code of exactly so many hexadecimal digits after a letter. -/
def hexEscape (letter : Char) (count : Nat) : Reader Nat := do
  let digits ← takeWhile isHexDigit count
  let text := String.ofList ('\\' :: letter :: digits)
  if digits.length ≠ count then refuse (.incompleteEscape text) text.length
  else
    let code := digitsIn 16 digits
    if code < 0x110000 then pure code else refuse (.badEscape text) text.length

/-- A character by its name. -/
def namedEscape : Reader Nat := do
  if ← accept '\x7b' then
    let n ← name '\x7d' "character name"
    match Interpreter.charNamed? n with
    | some c => pure c.toNat
    | none => refuse (.unknownCharacterName n) (n.length + 4)
  else refuse .missingBrace 0

/-- The code an escape names by its digits or its name. -/
def numericEscape? (c : Char) : Reader (Option Nat) := do
  match c with
  | 'x' => some <$> hexEscape c 2
  | 'u' => some <$> hexEscape c 4
  | 'U' => some <$> hexEscape c 8
  | 'N' => some <$> namedEscape
  | _ => pure none

/-- An octal code of a byte. -/
def octalCode (digits : List Char) : Reader Nat := do
  let text := String.ofList ('\\' :: digits)
  let code := digitsIn 8 digits
  if code > 0o377 then refuse (.octalTooLarge text) text.length else pure code

/-- An escaped character that stands for itself; letters do not. -/
def itself (c : Char) : Reader Nat :=
  if isAsciiLetter c || isAsciiDigit c then
    refuse (.badEscape (Glyph.escaped c).text) 2
  else pure c.toNat

/-- **An escape inside a character set.** -/
def memberEscape (c : Char) : Reader Member := do
  match letterCode? c, category? c with
  | some code, _ => pure (.code code)
  | none, some m => pure m
  | none, none =>
    match ← numericEscape? c with
    | some code => pure (.code code)
    | none =>
      if isOctDigit c then
        pure (.code (← octalCode (c :: (← takeWhile isOctDigit 2))))
      else pure (.code (← itself c))

/-- A reference to a group that is closed. -/
def reference (digits : List Char) : Reader Term := do
  let index := digitsIn 10 digits
  if index < (← groupCount) then
    if ← isClosed index then
      checkLookBehind index
      pure (.backReference index)
    else refuse .openGroup (digits.length + 1)
  else refuse (.invalidReference index) digits.length

/-- Digits after a backslash, the first not zero: three octal ones are a code, others a reference
of at most two digits. -/
def digitEscape (first : Char) : Reader Term := do
  let second ← takeWhile isAsciiDigit 1
  let third ←
    if isOctDigit first && second.any isOctDigit then takeWhile isOctDigit 1 else pure []
  let digits := first :: second ++ third
  if third.isEmpty then reference digits else pure (.code (← octalCode digits) false)

/-- **An escape outside a character set.** -/
def expressionEscape (c : Char) : Reader Term := do
  match anchor? c, category? c, letterCode? c with
  | some place, _, _ => pure (.anchor place)
  | none, some m, _ => pure (.oneOf false [m])
  | none, none, some code => pure (.code code false)
  | none, none, none =>
    match ← numericEscape? c with
    | some code => pure (.code code false)
    | none =>
      if c = '0' then pure (.code (digitsIn 8 (← takeWhile isOctDigit 2)) false)
      else if isAsciiDigit c then digitEscape c
      else pure (.code (← itself c) false)

end SlotEdit.Regex
