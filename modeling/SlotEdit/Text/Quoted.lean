import SlotEdit.Text.CharClass

/-!
# Text/Quoted — a text between quotes, with escapes

`quoted` shows a text on one printable line: single quotes unless the text holds one and no double
quote, and escapes for the quote, the backslash and every unprintable character.  `quotedBytes`
does the same for bytes.
-/

namespace SlotEdit

/-- The quote around a text: a single one, unless that would need an escape and a double one
would not. -/
def quoteMark (s : List Char) : Char :=
  if s.contains '\'' && !s.contains '"' then '"' else '\''

/-- One character inside quotes: as itself, or as the shortest escape that names it. -/
def escapeChar (quote c : Char) : List Char :=
  if c = quote ∨ c = '\\' then ['\\', c]
  else if c = '\n' then ['\\', 'n']
  else if c = '\r' then ['\\', 'r']
  else if c = '\t' then ['\\', 't']
  else if isPrintable c then [c]
  else if c.toNat < 0x100 then '\\' :: 'x' :: hexPadded 2 c.toNat
  else if c.toNat < 0x10000 then '\\' :: 'u' :: hexPadded 4 c.toNat
  else '\\' :: 'U' :: hexPadded 8 c.toNat

/-- The quoted form of a list of characters. -/
def quotedList (s : List Char) : List Char :=
  let quote := quoteMark s
  quote :: s.flatMap (escapeChar quote) ++ [quote]

/-- **The quoted form of a text.** -/
def quoted (s : String) : String := String.ofList (quotedList s.toList)

/-- One byte inside quotes; only ASCII is shown as itself. -/
def escapeByte (quote : Char) (b : UInt8) : List Char :=
  let c := Char.ofNat b.toNat
  if b.toNat < 127 then escapeChar quote c else '\\' :: 'x' :: hexPadded 2 b.toNat

/-- The quoted form of bytes, after the letter `b`. -/
def quotedBytes (bytes : List UInt8) : String :=
  let quote := quoteMark (bytes.map fun b => Char.ofNat b.toNat)
  String.ofList ('b' :: quote :: bytes.flatMap (escapeByte quote) ++ [quote])

end SlotEdit
