import SlotEdit.Yaml.Fault
import SlotEdit.Text.LooseText
import SlotEdit.Yaml.Place

/-!
# Yaml/Quoted — texts between quotes

`singleQuoted` and `doubleQuoted` read the inside of a quoted text, from behind the opening quote
to behind the closing one.  Line breaks are folded; between double quotes a backslash starts an
escape.
-/

namespace SlotEdit.Yaml

/-- What reading a piece of a text gives. -/
abbrev Scan (α : Type) := Place → Except Fault (α × Place)

/-! ## Gaps -/

/-- The empty lines at the start of a line and the blanks in front of the next text.  Each turn
reads a line break. -/
def quotedBreaks (turns : Nat) (p : Place) : Except Fault (List Char × Place) :=
  match turns with
  | 0 => invalid .unclosedQuote
  | turns + 1 =>
    if p.atMarker then invalid .markerInQuote
    else
      let q := p.skipWhile isGap
      match q.lineBreak? with
      | none => .ok ([], q)
      | some (c, after) => do
        let (cs, last) ← quotedBreaks turns after
        pure (c :: cs, last)

/-- Blanks inside quotes: as they are, or folded with the line breaks behind them. -/
def quotedGap : Scan (List Char) := fun p =>
  let q := p.skipWhile isGap
  match q.lineBreak? with
  | none => if q.atEnd then invalid .unclosedQuote else .ok (p.front isGap, q)
  | some (c, after) => do
    let (more, last) ← quotedBreaks (after.rest.length + 1) after
    pure (foldedBreak c more, last)

/-! ## Single quotes -/

/-- The inside of a text in single quotes, in which two of them stand for one.  Each turn reads a
character at least. -/
def singleQuoted (turns : Nat) (p : Place) : Except Fault (List Char × Place) :=
  match turns, p.rest with
  | 0, _ => invalid .unclosedQuote
  | _, [] => invalid .unclosedQuote
  | turns + 1, '\'' :: rest =>
    if rest.head? = some '\'' then do
      let (cs, last) ← singleQuoted turns (p.drop 2)
      pure ('\'' :: cs, last)
    else .ok ([], p.next)
  | turns + 1, c :: _ =>
    if isGap c || isBreak c then do
      let (gap, after) ← quotedGap p
      let (cs, last) ← singleQuoted turns after
      pure (gap ++ cs, last)
    else do
      let (cs, last) ← singleQuoted turns p.next
      pure (c :: cs, last)

/-! ## Double quotes -/

/-- The character a letter stands for behind a backslash. -/
def simpleEscape? : Char → Option Char
  | '0' => some '\x00'
  | 'a' => some '\x07'
  | 'b' => some '\x08'
  | 't' => some '\t'
  | '\t' => some '\t'
  | 'n' => some '\n'
  | 'v' => some '\x0b'
  | 'f' => some '\x0c'
  | 'r' => some '\r'
  | 'e' => some '\x1b'
  | ' ' => some ' '
  | '"' => some '"'
  | '\\' => some '\\'
  | '/' => some '/'
  | 'N' => some '\x85'
  | '_' => some '\xa0'
  | 'L' => some '\u2028'
  | 'P' => some '\u2029'
  | _ => none

/-- How many hexadecimal digits follow a letter behind a backslash. -/
def codeLength? : Char → Option Nat
  | 'x' => some 2
  | 'u' => some 4
  | 'U' => some 8
  | _ => none

/-- The letter of a code written in hexadecimal. -/
def codedLetter (digits : List Char) : Except Fault Letter :=
  if !digits.all isHexDigit then invalid .malformedEscape
  else
    let n := digits.foldl (fun n d => 16 * n + (hexValue? d).getD 0) 0
    if n > 0x7fffffff then .error .hugeCharacter
    else if n > 0x10ffff then .error .unknownCharacter
    else if 0xd800 ≤ n ∧ n < 0xe000 then .ok (.half n)
    else .ok (.char (Char.ofNat n))

/-- An escape behind its backslash; an escaped line break joins the lines. -/
def escape : Scan (List Letter) := fun p =>
  match p.rest with
  | [] => invalid .malformedEscape
  | c :: rest =>
    match simpleEscape? c, codeLength? c with
    | some e, _ => .ok ([.char e], p.next)
    | none, some n =>
      if rest.length < n then invalid .malformedEscape
      else do
        let e ← codedLetter (rest.take n)
        pure ([e], p.drop (n + 1))
    | none, none =>
      match p.lineBreak? with
      | some (_, after) => do
        let (cs, last) ← quotedBreaks (after.rest.length + 1) after
        pure (cs.map .char, last)
      | none => invalid .malformedEscape

/-- The inside of a text in double quotes.  Each turn reads a character at least. -/
def doubleQuoted (turns : Nat) (p : Place) : Except Fault (List Letter × Place) :=
  match turns, p.rest with
  | 0, _ => invalid .unclosedQuote
  | _, [] => invalid .unclosedQuote
  | _, '"' :: _ => .ok ([], p.next)
  | turns + 1, c :: _ => do
    let (read, after) ←
      if c = '\\' then escape p.next
      else if isGap c || isBreak c then do
        let (gap, after) ← quotedGap p
        pure (gap.map .char, after)
      else .ok ([.char c], p.next)
    let (letters, last) ← doubleQuoted turns after
    pure (read ++ letters, last)

/-- **A quoted text**, from its opening quote on. -/
def quotedText : Scan LooseText := fun p =>
  let turns := p.rest.length
  if p.peek? = some '"' then do
    let (letters, after) ← doubleQuoted turns p.next
    pure (⟨letters⟩, after)
  else do
    let (cs, after) ← singleQuoted turns p.next
    pure (.ofChars cs, after)

end SlotEdit.Yaml
