/-!
# Text/Cursor — a place in a text that is being read

A `Cursor` is an offset with the characters from there on; readers take one and give one back
further along.  Several languages share the block comment, which runs from `/*` to the first `*/`
after it.
-/

namespace SlotEdit

/-- An offset and the characters that follow it. -/
structure Cursor where
  offset : Nat
  rest : List Char
deriving Repr, Inhabited, DecidableEq

namespace Cursor

/-- The start of a text. -/
def ofText (s : String) : Cursor := ⟨0, s.toList⟩

/-- No character follows. -/
def atEnd (c : Cursor) : Bool := c.rest.isEmpty

/-- The next character. -/
def peek? (c : Cursor) : Option Char := c.rest.head?

/-- The cursor `n` characters further along, or at the end. -/
def drop (n : Nat) (c : Cursor) : Cursor := ⟨c.offset + min n c.rest.length, c.rest.drop n⟩

/-- The characters a class holds are passed over. -/
def skipWhile (p : Char → Bool) (c : Cursor) : Cursor :=
  ⟨c.offset + (c.rest.takeWhile p).length, c.rest.dropWhile p⟩

/-- A byte order mark in front is passed over. -/
def skipMark (c : Cursor) : Cursor := if c.peek? = some '\ufeff' then c.drop 1 else c

/-- A text follows. -/
def startsWith (c : Cursor) (expected : String) : Bool := expected.toList.isPrefixOf c.rest

/-- The cursor after a text that follows. -/
def accept? (c : Cursor) (expected : String) : Option Cursor :=
  if c.startsWith expected then some (c.drop expected.length) else none

theorem offset_skipWhile (p : Char → Bool) (c : Cursor) :
    (c.skipWhile p).offset + (c.skipWhile p).rest.length = c.offset + c.rest.length := by
  simp only [skipWhile]
  have h := congrArg List.length (List.takeWhile_append_dropWhile (p := p) (l := c.rest))
  simp only [List.length_append] at h
  omega

end Cursor

/-! ## Comments -/

/-- How many characters a block comment takes, from behind its opening mark up to and over the
closing one. -/
def blockEnd? : List Char → Option Nat
  | '*' :: '/' :: _ => some 2
  | _ :: rest => (blockEnd? rest).map (· + 1)
  | [] => none

end SlotEdit
