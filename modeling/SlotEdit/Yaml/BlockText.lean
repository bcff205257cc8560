import SlotEdit.Yaml.Fault
import SlotEdit.Yaml.Place

/-!
# Yaml/BlockText — texts set off by indentation

A block text is every line behind its header that is indented enough.  `|` keeps the line breaks
and `>` folds those between two lines that start with a word; the header may say how many breaks
stay at the end and how far the lines are indented.
-/

namespace SlotEdit.Yaml

/-- How many of the line breaks at the end stay. -/
inductive Chomping
  | strip
  | clip
  | keep
deriving DecidableEq, Repr

/-- What the header of a block text says. -/
structure BlockHeader where
  chomping : Chomping
  extraIndent : Option Nat
deriving DecidableEq, Repr

/-- The chomping a sign asks for. -/
def chomping? : Option Char → Option Chomping
  | some '+' => some .keep
  | some '-' => some .strip
  | _ => none

/-- The indentation a digit asks for. -/
def extraIndent? (c : Option Char) : Option Nat := (c.filter isAsciiDigit).map (·.toNat - 48)

/-- The sign and the digit of a header in either order. -/
def headerMarks (p : Place) : BlockHeader × Place :=
  match chomping? p.peek?, extraIndent? p.peek? with
  | some chomping, _ =>
    match extraIndent? p.next.peek? with
    | some n => (⟨chomping, some n⟩, p.drop 2)
    | none => (⟨chomping, none⟩, p.next)
  | none, some n =>
    match chomping? p.next.peek? with
    | some chomping => (⟨chomping, some n⟩, p.drop 2)
    | none => (⟨.clip, some n⟩, p.next)
  | none, none => (⟨.clip, none⟩, p)

/-- The rest of a line that may hold nothing but a comment. -/
def commentLine? (p : Place) : Option Place :=
  let q := p.skipWhile (· == ' ')
  let q := if q.peek? = some '#' then q.lineEnd else q
  if endsLine q.peek? then some q.skipBreak else none

/-- The header of a block text with the rest of its line. -/
def blockHeader (p : Place) : Except Fault (BlockHeader × Place) :=
  let (header, after) := headerMarks p
  if header.extraIndent = some 0 || !endsPart after.peek? then invalid .malformedBlockHeader
  else match commentLine? after with
    | some next => .ok (header, next)
    | none => invalid .malformedBlockHeader

/-- The spaces up to a column. -/
def skipIndent (indent : Nat) (p : Place) : Place :=
  p.drop (min (indent - p.column) (p.front (· == ' ')).length)

/-- The empty lines in front of a line, and the place in its indentation or behind it.  Each turn
reads a line break. -/
def blockBreaks (indent turns : Nat) (p : Place) : List Char × Place :=
  match turns with
  | 0 => ([], p)
  | turns + 1 =>
    let q := skipIndent indent p
    match q.lineBreak? with
    | none => ([], q)
    | some (c, after) =>
      let (cs, last) := blockBreaks indent turns after
      (c :: cs, last)

/-- The empty lines in front of the first line, the place behind its indentation, and the widest
indentation seen.  Each turn reads a line break. -/
def firstBreaks (turns widest : Nat) (p : Place) : List Char × Place × Nat :=
  match turns with
  | 0 => ([], p, widest)
  | turns + 1 =>
    let q := p.skipWhile (· == ' ')
    let widest := max widest q.column
    match q.lineBreak? with
    | none => ([], q, widest)
    | some (c, after) =>
      let (cs, last, widest) := firstBreaks turns widest after
      (c :: cs, last, widest)

/-- A line of a block text is here. -/
def atBlockLine (indent : Nat) (p : Place) : Bool := p.column == indent && !p.atEnd

/-- The lines of a block text, the break behind the last one and the empty lines behind that.  Each
turn reads a line. -/
def blockLines (folded : Bool) (indent turns : Nat) (breaks : List Char) (p : Place) :
    List Char × List Char × List Char × Place :=
  match turns with
  | 0 => ([], [], [], p)
  | turns + 1 =>
    let q := p.lineEnd
    let ending := (q.lineBreak?.map fun b => [b.1]).getD []
    let (more, next) := blockBreaks indent (q.rest.length + 1) q.skipBreak
    let text := breaks ++ p.lineText
    if atBlockLine indent next then
      let startsWord (p : Place) : Bool := !(p.peek?.map isGap).getD false
      let joint := if folded && ending == ['\n'] && startsWord p && startsWord next then
          if more.isEmpty then [' '] else []
        else ending
      let (cs, lastEnding, lastBreaks, last) := blockLines folded indent turns more next
      (text ++ joint ++ cs, lastEnding, lastBreaks, last)
    else (text, ending, more, next)

/-- **A block text**, from behind its `|` or `>` on, inside a block indented by `outer` columns. -/
def blockText (folded : Bool) (outer : Nat) (p : Place) : Except Fault (String × Place) := do
  let (header, start) ← blockHeader p
  let least := max outer 1
  let turns := start.rest.length + 1
  let (indent, breaks, first) := match header.extraIndent with
    | some n =>
      let (breaks, first) := blockBreaks (least + n - 1) turns start
      (least + n - 1, breaks, first)
    | none =>
      let (breaks, first, widest) := firstBreaks turns 0 start
      (max least widest, breaks, first)
  let (text, ending, more, last) :=
    if atBlockLine indent first then blockLines folded indent turns breaks first
    else ([], [], breaks, first)
  let tail := match header.chomping with
    | .strip => []
    | .clip => ending
    | .keep => ending ++ more
  pure (String.ofList (text ++ tail), last)

end SlotEdit.Yaml
