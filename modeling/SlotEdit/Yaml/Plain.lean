import SlotEdit.Yaml.Place

/-!
# Yaml/Plain — texts without quotes

A plain text ends at a colon or number sign that a blank sets off, at a bracket or comma inside
brackets, and on the line before one that is indented too little.  Its line breaks are folded.
-/

namespace SlotEdit.Yaml

/-- Brackets and the comma between their items. -/
def isFlowMark (c : Char) : Bool := c == ',' || c == '[' || c == ']' || c == '\x7b' || c == '\x7d'

/-- A colon with this behind it ends a plain text. -/
def endsKey (inFlow : Bool) (next : Option Char) : Bool :=
  endsWord next || (inFlow && (next.map isFlowMark).getD false)

/-- The characters of a plain text up to the next blank. -/
def plainWord (inFlow : Bool) : List Char → List Char
  | [] => []
  | c :: rest =>
    if isGap c || isBreak c || (c == ':' && endsKey inFlow rest.head?)
        || (inFlow && (isFlowMark c || c == '?')) then []
    else c :: plainWord inFlow rest

/-- A plain text starts here. -/
def startsPlain (inFlow : Bool) (p : Place) : Bool :=
  match p.rest with
  | [] => false
  | c :: rest =>
    if c == '-' then !endsWord rest.head?
    else if c == '?' || c == ':' then !inFlow && !endsWord rest.head?
    else !(isGap c || isBreak c || isFlowMark c || "#&*!|>'\"%@\x60".toList.contains c)

/-- What stands between two words of a plain text, and the place behind it; `broken` when it holds
a line break. -/
structure PlainGap where
  chars : List Char
  after : Place
  broken : Bool

/-- The empty lines between two lines of a plain text, unless a document marker follows.  Each turn
reads a line break. -/
def plainBreaks (turns : Nat) (p : Place) : Option (List Char) × Place :=
  match turns with
  | 0 => (none, p)
  | turns + 1 =>
    let q := p.skipWhile (· == ' ')
    match q.lineBreak? with
    | none => (some [], q)
    | some (c, after) =>
      if after.atMarker then (none, after)
      else
        let (more, last) := plainBreaks turns after
        (more.map (c :: ·), last)

/-- What stands between two words of a plain text: blanks as they are, line breaks folded, and
nothing in front of a document marker. -/
def plainGap (p : Place) : PlainGap :=
  let q := p.skipWhile (· == ' ')
  match q.lineBreak? with
  | none => ⟨p.front (· == ' '), q, false⟩
  | some (c, after) =>
    if after.atMarker then ⟨[], after, true⟩
    else
      match plainBreaks (after.rest.length + 1) after with
      | (none, last) => ⟨[], last, true⟩
      | (some more, last) => ⟨foldedBreak c more, last, true⟩

/-- The words of a plain text with the gap behind the last one.  Each turn reads a word. -/
def plainWords (inFlow : Bool) (indent turns : Nat) (gap : PlainGap) : List Char × PlainGap :=
  match turns with
  | 0 => ([], gap)
  | turns + 1 =>
    let word := plainWord inFlow gap.after.rest
    if word.isEmpty then ([], gap)
    else
      let next := plainGap (gap.after.drop word.length)
      if next.chars.isEmpty || next.after.peek? == some '#'
          || (!inFlow && next.after.column < indent) then (gap.chars ++ word, next)
      else
        let (cs, last) := plainWords inFlow indent turns next
        (gap.chars ++ word ++ cs, last)

/-- **A plain text**, the place behind the gap that follows it, and whether that gap holds a line
break. -/
def plainText (inFlow : Bool) (indent : Nat) (p : Place) : String × PlainGap :=
  let (cs, gap) := plainWords inFlow indent (p.rest.length + 1) ⟨[], p, false⟩
  (String.ofList cs, gap)

end SlotEdit.Yaml
