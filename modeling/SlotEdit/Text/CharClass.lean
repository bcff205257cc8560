import SlotEdit.Text.Tables.WordChars
import SlotEdit.Text.Tables.Unprintable
import SlotEdit.Text.Tables.NameChars
import SlotEdit.Text.Tables.CaseMaps

/-!
# Text/CharClass — classes and case of characters

Membership in the Unicode classes the library asks for (`isWord`, `isBlank`, `isPrintable`,
`isNameStart`, `isNameContinue`), the value of a decimal digit of any script (`digitValue?`) and
the case mappings.  ASCII characters are decided without a table.
-/

namespace SlotEdit

/-! ## Sets as flips -/

/-- How many entries of a sorted array, among those from `lo` up to `hi`, are at most `x`, counted
from the start of the array. -/
def upperBound (a : Array Nat) (x lo hi : Nat) : Nat :=
  if lo < hi then
    let mid := (lo + hi) / 2
    if a.getD mid 0 ≤ x then upperBound a x (mid + 1) hi else upperBound a x lo mid
  else lo
termination_by hi - lo

/-- A code point is in the set that flips at the entries of `flips` when it lies past an odd
number of them. -/
def inFlips (flips : Array Nat) (c : Nat) : Bool := upperBound flips c 0 flips.size % 2 = 1

/-! ## Classes -/

/-- The characters that `'0'`…`'9'` are. -/
def isAsciiDigit (c : Char) : Bool := '0' ≤ c ∧ c ≤ '9'

/-- An ASCII letter. -/
def isAsciiLetter (c : Char) : Bool := ('a' ≤ c ∧ c ≤ 'z') ∨ ('A' ≤ c ∧ c ≤ 'Z')

/-- An ASCII letter, digit or underscore. -/
def isAsciiWord (c : Char) : Bool := isAsciiLetter c || isAsciiDigit c || c == '_'

/-- A letter or digit of any script, or the underscore. -/
def isWord (c : Char) : Bool :=
  if c.toNat < 128 then isAsciiWord c else inFlips Tables.wordFlips c.toNat

/-- White space among ASCII: tab, line feed, vertical tab, form feed, carriage return, space. -/
def isAsciiBlank (c : Char) : Bool := c == ' ' || (9 ≤ c.toNat && c.toNat ≤ 13)

/-- White space: the ASCII kinds, the four separators `U+001C`–`U+001F`, and the line and space
separators of Unicode. -/
def isBlank (c : Char) : Bool :=
  let n := c.toNat
  n = 32 ∨ (9 ≤ n ∧ n ≤ 13) ∨ (28 ≤ n ∧ n ≤ 31) ∨ n = 0x85 ∨ n = 0xa0 ∨ n = 0x1680
    ∨ (0x2000 ≤ n ∧ n ≤ 0x200a) ∨ n = 0x2028 ∨ n = 0x2029 ∨ n = 0x202f ∨ n = 0x205f ∨ n = 0x3000

/-- A character that a quoted text shows as itself. -/
def isPrintable (c : Char) : Bool :=
  if c.toNat < 127 then 32 ≤ c.toNat else !inFlips Tables.unprintableFlips c.toNat

/-- A character an identifier may start with. -/
def isNameStart (c : Char) : Bool :=
  if c.toNat < 128 then isAsciiLetter c || c == '_' else inFlips Tables.nameStartFlips c.toNat

/-- A character an identifier may go on with. -/
def isNameContinue (c : Char) : Bool :=
  if c.toNat < 128 then isAsciiWord c else inFlips Tables.nameContinueFlips c.toNat

/-- An identifier: a name-starting character, then name-continuing ones. -/
def isIdentifier : List Char → Bool
  | [] => false
  | c :: rest => isNameStart c && rest.all isNameContinue

/-! ## Digits -/

/-- The value of a decimal digit of any script. -/
def digitValue? (c : Char) : Option Nat :=
  let n := c.toNat
  if n < 128 then if isAsciiDigit c then some (n - 48) else none
  else (Tables.digitZeros.find? fun first => first ≤ n ∧ n < first + 10).map (n - ·)

/-- A decimal digit of any script. -/
def isDecimalDigit (c : Char) : Bool := (digitValue? c).isSome

/-- The value of a hexadecimal digit. -/
def hexValue? (c : Char) : Option Nat :=
  let n := c.toNat
  if isAsciiDigit c then some (n - 48)
  else if 'a' ≤ c ∧ c ≤ 'f' then some (n - 87)
  else if 'A' ≤ c ∧ c ≤ 'F' then some (n - 55)
  else none

/-- A hexadecimal digit. -/
def isHexDigit (c : Char) : Bool := (hexValue? c).isSome

/-- An octal digit. -/
def isOctDigit (c : Char) : Bool := '0' ≤ c ∧ c ≤ '7'

/-- The digit, in lower case, of a value below sixteen. -/
def hexDigit (n : Nat) : Char := if n < 10 then Char.ofNat (n + 48) else Char.ofNat (n + 87)

/-- A number in hexadecimal, with zeros in front up to `width` digits. -/
def hexPadded (width n : Nat) : List Char :=
  match width with
  | 0 => []
  | width + 1 => hexPadded width (n / 16) ++ [hexDigit (n % 16)]

/-! ## Case -/

/-- A code point is one of a run. -/
def Tables.CaseRun.contains (r : Tables.CaseRun) (n : Nat) : Bool :=
  r.first ≤ n ∧ n ≤ r.last ∧ (n - r.first) % r.step = 0

/-- The code point a list of runs sends `n` to; `n` itself when no run holds it. -/
def shiftByRuns (runs : List Tables.CaseRun) (n : Nat) : Nat :=
  match runs.find? fun r => r.contains n with
  | some r => ((n : Int) + r.shift).toNat
  | none => n

/-- The code points whose lower case is `n`. -/
def lowerSources (n : Nat) : List Nat :=
  let shifted := Tables.lowerRuns.filterMap fun r =>
    let m := ((n : Int) - r.shift).toNat
    if r.contains m then some m else none
  if shiftByRuns Tables.lowerRuns n = n then n :: shifted else shifted

/-- The lower case of one character. -/
def lowerChar (c : Char) : Char :=
  if c.toNat < 128 then if 'A' ≤ c ∧ c ≤ 'Z' then Char.ofNat (c.toNat + 32) else c
  else Char.ofNat (shiftByRuns Tables.lowerRuns c.toNat)

/-- The lower case of one ASCII character; others stay. -/
def asciiLowerChar (c : Char) : Char :=
  if 'A' ≤ c ∧ c ≤ 'Z' then Char.ofNat (c.toNat + 32) else c

/-- The upper case of a character, which may be several. -/
def upperChars (c : Char) : List Char :=
  if c.toNat < 128 then [if 'a' ≤ c ∧ c ≤ 'z' then Char.ofNat (c.toNat - 32) else c]
  else match Tables.upperExpansions.lookup c.toNat with
    | some several => several.map Char.ofNat
    | none => [Char.ofNat (shiftByRuns Tables.upperRuns c.toNat)]

/-- The first character of the upper case. -/
def upperChar (c : Char) : Char := (upperChars c).headD c

/-- A character that one of the case mappings changes. -/
def isCased (c : Char) : Bool := lowerChar c != c || upperChar c != c

/-- The other lower-case characters with the same upper case as a lower-case character. -/
def caseVariants (c : Char) : List Char :=
  ((Tables.caseVariants.lookup c.toNat).getD []).map Char.ofNat

/-- A text in upper case. -/
def upperText (s : String) : String := String.ofList (s.toList.flatMap upperChars)

/-- The lower case of a text read from the left, given whether the last letter or sign before it
had a case: a capital sigma that ends a word becomes its final form, and the dotted capital I
keeps its dot. -/
def lowerCharsFrom (afterCased : Bool) : List Char → List Char
  | [] => []
  | c :: rest =>
    let lowered :=
      if c = 'Σ' then
        if afterCased && !((rest.head?.map isCased).getD false) then ['ς'] else ['σ']
      else if c.toNat = 0x130 then ['i', Char.ofNat 0x307]
      else [lowerChar c]
    lowered ++ lowerCharsFrom (isCased c) rest

/-- A text in lower case. -/
def lowerText (s : String) : String := String.ofList (lowerCharsFrom false s.toList)

end SlotEdit
