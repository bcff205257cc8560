import SlotEdit.Diff.Blocks
import SlotEdit.Text.Splitting

/-!
# Diff/Unified — two texts side by side

`changes` says how to turn one list of lines into another, `hunks` groups the changes with some
lines around them, and `unified` writes the groups in the unified format.
-/

namespace SlotEdit.Diff

/-- What happens to a stretch of lines. -/
inductive ChangeKind
  | equal
  | replace
  | delete
  | insert
deriving DecidableEq, Repr

/-- A stretch of the old side and what becomes of it on the new side. -/
structure Change where
  kind : ChangeKind
  window : Window
deriving DecidableEq, Repr

/-- The change of what stands between two shared stretches, if anything does. -/
def gapChange? (w : Window) : Option Change :=
  if w.oldStart < w.oldStop then
    if w.newStart < w.newStop then some ⟨.replace, w⟩ else some ⟨.delete, w⟩
  else if w.newStart < w.newStop then some ⟨.insert, w⟩
  else none

/-- The changes from two offsets on, given the shared stretches that follow and the sizes of the
sides. -/
def changesFrom (i j oldSize newSize : Nat) : List Block → List Change
  | [] => (gapChange? ⟨i, oldSize, j, newSize⟩).toList
  | b :: rest =>
    (gapChange? ⟨i, b.old, j, b.new⟩).toList
      ++ ⟨.equal, b.old, b.old + b.length, b.new, b.new + b.length⟩
      :: changesFrom (b.old + b.length) (b.new + b.length) oldSize newSize rest

/-- **The changes that turn one list into another.** -/
def changes {α : Type} [BEq α] (old new : List α) : List Change :=
  changesFrom 0 0 old.length new.length (blocks old new)

/-! ## Hunks -/

/-- The last lines of an equal stretch. -/
def Change.lastLines (c : Change) (n : Nat) : Change :=
  let w := c.window
  ⟨c.kind, max w.oldStart (w.oldStop - n), w.oldStop, max w.newStart (w.newStop - n), w.newStop⟩

/-- The first lines of an equal stretch. -/
def Change.firstLines (c : Change) (n : Nat) : Change :=
  let w := c.window
  ⟨c.kind, w.oldStart, min w.oldStop (w.oldStart + n), w.newStart,
    min w.newStop (w.newStart + n)⟩

/-- An equal stretch is cut by `cut`; other changes stay. -/
def Change.trim (cut : Change → Change) (c : Change) : Change :=
  if c.kind = .equal then cut c else c

/-- Equal stretches at either end cut to `n` lines. -/
def trimEnds (n : Nat) (cs : List Change) : List Change :=
  match cs with
  | [] => []
  | first :: rest =>
    let cs := first.trim (·.lastLines n) :: rest
    match cs.getLast? with
    | some last => cs.dropLast ++ [last.trim (·.firstLines n)]
    | none => cs

/-- Changes that belong together, with the lines around them. -/
abbrev Hunk := List Change

/-- The hunks of the changes that follow, given the hunk so far: an equal stretch of more than
`2 * n` lines ends one and starts another. -/
def hunksFrom (n : Nat) (soFar : Hunk) : List Change → List Hunk
  | [] => if soFar.all fun c => c.kind = .equal then [] else [soFar]
  | c :: rest =>
    if c.kind = .equal ∧ 2 * n < c.window.oldStop - c.window.oldStart then
      (soFar ++ [c.firstLines n]) :: hunksFrom n [c.lastLines n] rest
    else hunksFrom n (soFar ++ [c]) rest

/-- **The hunks of two lists**, with `n` equal lines around the changes. -/
def hunks {α : Type} [BEq α] (n : Nat) (old new : List α) : List Hunk :=
  hunksFrom n [] (trimEnds n (changes old new))

/-! ## The unified format -/

/-- The lines from an offset up to another, as a hunk's header writes them: the first one counted
from one and how many there are, unless it is one; no lines stand behind the line before. -/
def rangeText (start stop : Nat) : String :=
  if stop - start = 1 then toString (start + 1)
  else toString (if stop = start then start else start + 1) ++ "," ++ toString (stop - start)

/-- Lines with a mark in front of each. -/
def marked {α : Type} (mark : α) (lines : List (List α)) (start stop : Nat) : List α :=
  ((lines.drop start).take (stop - start)).flatMap (mark :: ·)

section Writing

variable {α : Type} (letter : Char → α)

/-- The lines of a change. -/
def Change.write (old new : List (List α)) (c : Change) : List α :=
  let w := c.window
  match c.kind with
  | .equal => marked (letter ' ') old w.oldStart w.oldStop
  | _ => marked (letter '-') old w.oldStart w.oldStop ++ marked (letter '+') new w.newStart w.newStop

/-- The header of a hunk. -/
def hunkHeader (h : Hunk) : String :=
  match h.head?, h.getLast? with
  | some first, some last =>
    "@@ -" ++ rangeText first.window.oldStart last.window.oldStop
      ++ " +" ++ rangeText first.window.newStart last.window.newStop ++ " @@\n"
  | _, _ => ""

/-- A hunk: its header and its lines. -/
def writeHunk (old new : List (List α)) (h : Hunk) : List α :=
  (hunkHeader h).toList.map letter ++ h.flatMap (Change.write letter old new)

/-- The unified diff of two lists of lines, with `n` equal lines around the changes; nothing when no
line changes. -/
def unifiedLines [BEq α] (n : Nat) (old new : List (List α)) : List α :=
  match hunks n old new with
  | [] => []
  | hs => "--- before\n+++ after\n".toList.map letter ++ hs.flatMap (writeHunk letter old new)

end Writing

/-- **The unified diff of two texts.** -/
def unified (n : Nat) (before after : String) : String :=
  String.ofList (unifiedLines id n (splitLines id before.toList) (splitLines id after.toList))

/-- The unified diff of two texts in which halves of surrogate pairs may stand. -/
def unifiedText (n : Nat) (before after : LooseText) : LooseText :=
  ⟨unifiedLines .char n (splitLines Letter.shown before.letters) (splitLines Letter.shown after.letters)⟩

end SlotEdit.Diff
