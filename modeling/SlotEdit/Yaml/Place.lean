import SlotEdit.Text.CharClass

/-!
# Yaml/Place — where a YAML text is being read

Layout decides what a text means, so a `Place` knows its line and column besides the characters
that follow.  The classes of characters that end a word, a part of a line or a line are here too;
each holds at the end of the text.
-/

namespace SlotEdit.Yaml

/-! ## Characters -/

/-- A character that ends a line. -/
def isBreak (c : Char) : Bool :=
  c == '\n' || c == '\r' || c == '\x85' || c == '\u2028' || c == '\u2029'

/-- A space or a tab. -/
def isGap (c : Char) : Bool := c == ' ' || c == '\t'

/-- A character of the names of anchors, handles and directives. -/
def isNameChar (c : Char) : Bool := isAsciiLetter c || isAsciiDigit c || c == '-' || c == '_'

/-- The line is over. -/
def endsLine : Option Char → Bool
  | none => true
  | some c => isBreak c

/-- The line is over or a space follows. -/
def endsPart : Option Char → Bool
  | none => true
  | some c => isBreak c || c == ' '

/-- The line is over or a space or tab follows. -/
def endsWord : Option Char → Bool
  | none => true
  | some c => isBreak c || isGap c

/-- A character a text may hold: tab, line ends, and what is not a control character, half a
surrogate pair or no character. -/
def isAllowed (c : Char) : Bool :=
  let n := c.toNat
  n = 9 ∨ n = 10 ∨ n = 13 ∨ (0x20 ≤ n ∧ n ≤ 0x7e) ∨ n = 0x85 ∨ (0xa0 ≤ n ∧ n ≤ 0xfffd)
    ∨ 0x10000 ≤ n

/-! ## Places -/

/-- A place in a text: offset, line and column with the characters that follow. -/
structure Place where
  offset : Nat
  line : Nat
  column : Nat
  rest : List Char
deriving Repr, Inhabited

namespace Place

/-- The start of a text. -/
def ofText (text : String) : Place := ⟨0, 0, 0, text.toList⟩

/-- The next character. -/
def peek? (p : Place) : Option Char := p.rest.head?

/-- The character `n` further along. -/
def peekAt? (p : Place) (n : Nat) : Option Char := p.rest[n]?

/-- No character follows. -/
def atEnd (p : Place) : Bool := p.rest.isEmpty

/-- The place behind the next character.  A byte order mark takes no column. -/
def next (p : Place) : Place :=
  match p.rest with
  | [] => p
  | c :: rest =>
    if isBreak c && !(c == '\r' && rest.head? == some '\n') then ⟨p.offset + 1, p.line + 1, 0, rest⟩
    else ⟨p.offset + 1, p.line, if c = '\ufeff' then p.column else p.column + 1, rest⟩

/-- The place `n` characters further along. -/
def drop (p : Place) : Nat → Place
  | 0 => p
  | n + 1 => p.next.drop n

/-- The characters in front that a class holds. -/
def front (p : Place) (class? : Char → Bool) : List Char := p.rest.takeWhile class?

/-- The place behind the characters that a class holds. -/
def skipWhile (p : Place) (class? : Char → Bool) : Place := p.drop (p.front class?).length

/-- The characters up to the end of the line. -/
def lineText (p : Place) : List Char := p.front fun c => !isBreak c

/-- The place at the end of the line. -/
def lineEnd (p : Place) : Place := p.skipWhile fun c => !isBreak c

/-- The line break at a place, as the character it stands for, and the place behind it. -/
def lineBreak? (p : Place) : Option (Char × Place) :=
  match p.rest with
  | '\r' :: '\n' :: _ => some ('\n', p.drop 2)
  | c :: _ =>
    if c = '\u2028' ∨ c = '\u2029' then some (c, p.next)
    else if isBreak c then some ('\n', p.next)
    else none
  | [] => none

/-- The place behind a line break, if one is there. -/
def skipBreak (p : Place) : Place := (p.lineBreak?.map Prod.snd).getD p

/-- Three characters in the first column, alone on their line or with a blank behind them. -/
def hasMarker (p : Place) (mark : Char) : Bool :=
  p.column == 0 && p.rest.take 3 == [mark, mark, mark] && endsWord (p.peekAt? 3)

/-- The start or the end of a document is marked here. -/
def atMarker (p : Place) : Bool := p.hasMarker '-' || p.hasMarker '.'

end Place

/-- What a line break inside a text becomes when the line goes on: alone a space, with more breaks
behind it only those; a line or paragraph separator stays. -/
def foldedBreak (c : Char) (more : List Char) : List Char :=
  if c ≠ '\n' then c :: more else if more.isEmpty then [' '] else more

end SlotEdit.Yaml
