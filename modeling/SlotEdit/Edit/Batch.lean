import SlotEdit.Document
import SlotEdit.Value

/-!
# Edit/Batch — several edits applied as one

A `TextEdit` puts a text in the place of a span.  The edits of a batch all speak of the document as
it was when the batch began: `edited` orders them by where they stand and refuses a batch in which
one starts before another ends.  `editedText` does the same and takes texts with halves of surrogate
pairs too.
-/

namespace SlotEdit

/-- A name that no kind of edit has. -/
structure UnknownEditKind where
  name : String
deriving DecidableEq, Repr

/-- The wording of a name that no kind of edit has. -/
def UnknownEditKind.message (e : UnknownEditKind) : String :=
  quoted e.name ++ " is not a valid EditKind"

/-- What an edit is for. -/
inductive EditKind
  | replace
  | insert
  | delete
deriving DecidableEq, Repr

namespace EditKind

/-- The name of a kind. -/
def name : EditKind → String
  | .replace => "replace"
  | .insert => "insert"
  | .delete => "delete"

/-- The kind of a name. -/
def ofName (s : String) : Except UnknownEditKind EditKind :=
  match [EditKind.replace, .insert, .delete].find? fun k => k.name == s with
  | some k => .ok k
  | none => .error ⟨s⟩

end EditKind

/-- A value put in the place of a span; the value has to be a text when the edit is applied. -/
structure TextEdit where
  kind : EditKind
  range : TextRange
  text : Value
deriving Repr

namespace TextEdit

/-- A text in the place of a span. -/
def replace (r : TextRange) (text : Value) : TextEdit := ⟨.replace, r, text⟩

/-- A text put in at a position. -/
def insert (p : Position) (text : Value) : TextEdit := ⟨.insert, TextRange.single p, text⟩

/-- A span taken out. -/
def delete (r : TextRange) : TextEdit := ⟨.delete, r, .str ""⟩

end TextEdit

/-- Why a batch cannot be applied. -/
inductive BatchFault
  | overlap (first second : TextRange)
  | notText (value : Value)
deriving Repr

/-- The wording of a refused batch. -/
def BatchFault.message : BatchFault → String
  | .overlap first second =>
    "Overlapping edits in batch: " ++ first.render ++ " and " ++ second.render
  | .notText _ => "an edit's text is not a text"

/-- An edit and the offsets it stands on. -/
structure Placed where
  span : Span
  edit : TextEdit
deriving Repr

namespace Placed

/-- The order of edits: by start, then by end. -/
def le (a b : Placed) : Bool :=
  a.span.start < b.span.start || (a.span.start == b.span.start && a.span.stop ≤ b.span.stop)

end Placed

/-- The edits of a batch with their offsets, in the order of the text; edits at the same place keep
the order in which they came. -/
def placed (d : Document) (edits : List TextEdit) : List Placed :=
  let lines := d.lines
  (edits.map fun e => (⟨⟨lines.offsetAt e.range.start, lines.offsetAt e.range.stop⟩, e⟩ : Placed))
    |>.mergeSort Placed.le

/-- The first edit that starts before the one before it ends, and that one. -/
def firstOverlap? : List Placed → Option (Placed × Placed)
  | a :: b :: rest => if b.span.start < a.span.stop then some (a, b) else firstOverlap? (b :: rest)
  | _ => none

section Splicing

variable {α : Type} (read : Value → Option (List α)) (text : List α)

/-- The rest of a text, from an offset on, with edits put in. -/
def spliceFrom (offset : Nat) : List Placed → Except BatchFault (List α)
  | [] => .ok (text.drop offset)
  | p :: rest =>
    match read p.edit.text with
    | some s => do
      let more ← spliceFrom p.span.stop rest
      pure (sliceList text offset p.span.start ++ s ++ more)
    | none => .error (.notText p.edit.text)

/-- A text with edits put in, unless one starts before another ends. -/
def splice (ps : List Placed) : Except BatchFault (List α) :=
  match firstOverlap? ps with
  | some (a, b) => .error (.overlap a.edit.range b.edit.range)
  | none => spliceFrom read text 0 ps

end Splicing

/-- **The text of a document after a batch of edits.** -/
def edited (d : Document) (edits : List TextEdit) : Except BatchFault String :=
  (splice Value.chars? d.content.toList (placed d edits)).map String.ofList

/-- The text after a batch of edits whose texts may hold halves of surrogate pairs. -/
def editedText (d : Document) (edits : List TextEdit) : Except BatchFault LooseText :=
  (splice Value.letters? (LooseText.ofString d.content).letters (placed d edits)).map .mk

end SlotEdit
