import SlotEdit.Text.Cursor
import SlotEdit.Text.CharClass

/-!
# Script/Layout — line ends and indentation between tokens

In a language whose blocks are told by indentation, what stands between two tokens may itself be a
token: the end of a line, the start of an indented block, or its end.  `gap` reads from the end of
one token to the next and says which it found.  Whether a line break counts depends on the
`Place`: the indentation of the block around it and what the construct being read may be followed
by.
-/

namespace SlotEdit.Script

/-- Where a construct stands: the indentation of its block, whether it is inside a formatted
string literal, and whether a line end or a closing bracket may follow it. -/
structure Place where
  indent : Nat
  embedded : Bool
  lineEnd : Bool
  close : Bool
deriving DecidableEq, Repr

/-- What a construct at a place is given when more of the construct around it must follow. -/
def Place.inner (p : Place) : Place := { p with lineEnd := false, close := false }

/-- The place of an item in brackets. -/
def Place.bracketed (p : Place) : Place := { p with lineEnd := false, close := true }

/-- Besides the tokens of a place: whether a string literal may start, and a block start or end. -/
structure Expected where
  string : Bool
  blockStart : Bool
  blockEnd : Bool
deriving DecidableEq, Repr

/-- Only tokens that are no string literal. -/
def Expected.plain : Expected := ⟨false, false, false⟩

/-- Any token. -/
def Expected.operand : Expected := ⟨true, false, false⟩

/-- What stands at the end of a token; each kind but the last takes no characters. -/
inductive Gap
  | lineEnd (place : Cursor)
  | blockStart (indent : Nat) (place : Cursor)
  | blockEnd (place : Cursor)
  | token (place : Cursor)
deriving Repr

/-! ## Measuring the way to the next token -/

/-- What lies between two tokens: whether a line ended, the indentation in front of the next
token, that of the first comment on a line of its own, and the next character. -/
structure Measure where
  lineEnded : Bool
  indent : Nat
  comment : Option Nat
  next : Option Char
deriving DecidableEq, Repr

/-- The way to the next token, given what has been passed and whether a comment is being passed.
Comments are passed only on lines of their own, and only if `overComments`; a tab is eight columns
wide, and a carriage return or form feed starts the count anew.  `none` where a comment or a stray
backslash ends the way. -/
def measureFrom (overComments : Bool) (m : Measure) (inComment : Bool) : List Char → Option Measure
  | [] => some { m with lineEnded := true, indent := 0 }
  | '\n' :: rest =>
    measureFrom overComments { m with lineEnded := m.lineEnded || !inComment, indent := 0 } false rest
  | c :: rest =>
    if inComment then measureFrom overComments m true rest
    else if c = ' ' then measureFrom overComments { m with indent := m.indent + 1 } false rest
    else if c = '\r' ∨ c = '\x0c' then measureFrom overComments { m with indent := 0 } false rest
    else if c = '\t' then measureFrom overComments { m with indent := m.indent + 8 } false rest
    else if c = '#' && overComments then
      if m.lineEnded then
        measureFrom overComments { m with comment := m.comment.or (some m.indent) } true rest
      else none
    else if c = '\\' then
      match rest with
      | [] => some { m with lineEnded := true, indent := 0 }
      | '\n' :: rest => measureFrom overComments m false rest
      | '\r' :: [] => some { m with lineEnded := true, indent := 0 }
      | '\r' :: '\n' :: rest => measureFrom overComments m false rest
      | _ => none
    else some { m with next := some c }

/-- The way from a place in a text to its next token. -/
def measure? (overComments : Bool) (rest : List Char) : Option Measure :=
  measureFrom overComments ⟨false, 0, none, none⟩ false rest

/-! ## The gap between tokens -/

/-- White space between tokens. -/
def isSpacing (c : Char) : Bool :=
  isAsciiBlank c || c == '\ufeff' || c == '\u2060' || c == '\u200b'

/-- The character opens a string literal without a letter in front. -/
def isQuote (c : Char) : Bool := c == '"' || c == '\'' || c == '`'

/-- The token without characters that a measured way stands for, if any. -/
def layoutToken? (p : Place) (e : Expected) (m : Measure) (c : Cursor) : Option Gap :=
  if !m.lineEnded then none
  else if e.blockStart && p.indent < m.indent then some (.blockStart m.indent c)
  else
    let quoteAhead := e.string && (m.next.map isQuote).getD false
    let endsBlock := e.blockEnd || (!p.lineEnd && !quoteAhead && !p.close)
    let commentInside := match m.comment with
      | some indent => p.indent ≤ indent
      | none => false
    if endsBlock && m.indent < p.indent && !p.embedded && !commentInside then some (.blockEnd c)
    else if p.lineEnd then some (.lineEnd c)
    else none

/-- **What stands at the end of a token.**  Each turn passes a comment or a joined line. -/
def gapFrom (p : Place) (e : Expected) (turns : Nat) (c : Cursor) : Gap :=
  let overComments := e.blockStart || e.blockEnd || p.lineEnd
  match (measure? overComments c.rest).bind fun m => layoutToken? p e m c with
  | some found => found
  | none =>
    let next := c.skipWhile isSpacing
    match turns with
    | 0 => .token next
    | turns + 1 =>
      match next.rest with
      | '#' :: _ => gapFrom p e turns (next.skipWhile fun c => c != '\n')
      | '\\' :: '\n' :: _ => gapFrom p e turns (next.drop 2)
      | '\\' :: '\r' :: '\n' :: _ => gapFrom p e turns (next.drop 3)
      | _ => .token next

/-- What stands at the end of a token. -/
def gap (p : Place) (e : Expected) (c : Cursor) : Gap := gapFrom p e c.rest.length c

/-- The next token where one must come that may be a string literal; `closing` when a closing
bracket may come instead. -/
def operandAt? (p : Place) (closing : Bool) (c : Cursor) : Option Cursor :=
  match gap { p with lineEnd := false, close := closing } .operand c with
  | .token next => some next
  | _ => none

/-- The next token behind a construct at a place, unless a line or block ends there. -/
def onward? (p : Place) (c : Cursor) : Option Cursor :=
  match gap p .plain c with
  | .token next => some next
  | _ => none

/-- As `onward?`, behind a string literal, which another may follow. -/
def onwardString? (p : Place) (c : Cursor) : Option Cursor :=
  match gap p .operand c with
  | .token next => some next
  | _ => none

end SlotEdit.Script
