/-!
# Diff/Blocks — what two lists of lines have in common

`blocks` finds stretches of lines that two lists share: the longest one first, then, in the same
way, those before it and those behind it.  In long lists, lines that occur very often start no
stretch.
-/

namespace SlotEdit.Diff

variable {α : Type} [BEq α]

/-- A stretch of equal lines: where it starts on either side, and how long it is. -/
structure Block where
  old : Nat
  new : Nat
  length : Nat
deriving DecidableEq, Repr

/-- Two lists of lines, and the places on the new side where a stretch may start for each line of
the old side. -/
structure Sides (α : Type) where
  old : Array α
  new : Array α
  places : Array (List Nat)

/-- Lists shorter than this have no line that occurs too often. -/
def popularFrom : Nat := 200

/-- A line of the new side occurs too often: in more than one line of a hundred, and one more. -/
def isPopular (new : Array α) (line : α) : Bool :=
  popularFrom ≤ new.size && new.count line > new.size / 100 + 1

/-- The places of a line on the new side. -/
def placesOf (new : Array α) (line : α) : List Nat :=
  if isPopular new line then []
  else (List.range new.size).filter fun j => new[j]? == some line

/-- The two sides of a comparison. -/
def Sides.ofLists (old new : List α) : Sides α :=
  ⟨old.toArray, new.toArray, (old.map (placesOf new.toArray)).toArray⟩

/-- A part of either side, from its first offset up to its last. -/
structure Window where
  oldStart : Nat
  oldStop : Nat
  newStart : Nat
  newStop : Nat
deriving DecidableEq, Repr

namespace Sides

/-- Line `i` of the old side is line `j` of the new one. -/
def sameAt (s : Sides α) (i j : Nat) : Bool :=
  match s.old[i]?, s.new[j]? with
  | some a, some b => a == b
  | _, _ => false

/-- The lengths of the stretches that end at old line `i`, by the new line they end at, given those
that end a line earlier. -/
def lengthsAt (s : Sides α) (w : Window) (i : Nat) (before : List (Nat × Nat)) :
    List (Nat × Nat) :=
  ((s.places.getD i []).filter fun j => w.newStart ≤ j && j < w.newStop).map fun j =>
    (j, (if 0 < j then (before.lookup (j - 1)).getD 0 else 0) + 1)

/-- The better of a stretch and those that end at old line `i`: the first of the longest. -/
def better (i : Nat) (best : Block) (lengths : List (Nat × Nat)) : Block :=
  lengths.foldl
    (fun b (j, k) => if b.length < k then ⟨i + 1 - k, j + 1 - k, k⟩ else b) best

/-- The longest stretch in a window, before it is extended. -/
def longestCore (s : Sides α) (w : Window) : Block :=
  ((List.range (w.oldStop - w.oldStart)).foldl
    (fun (best, before) d =>
      let i := w.oldStart + d
      let lengths := s.lengthsAt w i before
      (better i best lengths, lengths))
    ((⟨w.oldStart, w.newStart, 0⟩ : Block), [])).1

/-- How many equal lines stand right before two places in a window. -/
def equalBefore (s : Sides α) (w : Window) (i j : Nat) : Nat :=
  match i, j with
  | i + 1, j + 1 =>
    if w.oldStart ≤ i && w.newStart ≤ j && s.sameAt i j then s.equalBefore w i j + 1 else 0
  | _, _ => 0

/-- How many equal lines stand from two places on in a window, at most `turns`. -/
def equalFrom (s : Sides α) (w : Window) (turns i j : Nat) : Nat :=
  match turns with
  | 0 => 0
  | turns + 1 =>
    if i < w.oldStop && j < w.newStop && s.sameAt i j then
      s.equalFrom w turns (i + 1) (j + 1) + 1
    else 0

/-- **The longest stretch in a window**, extended over equal lines on both ends. -/
def longest (s : Sides α) (w : Window) : Block :=
  let core := s.longestCore w
  let back := s.equalBefore w core.old core.new
  let on := s.equalFrom w (w.oldStop - w.oldStart) (core.old + core.length)
    (core.new + core.length)
  ⟨core.old - back, core.new - back, core.length + back + on⟩

/-- The stretches in a window, in order.  Each turn splits a window at its longest stretch. -/
def blocksIn (s : Sides α) (turns : Nat) (w : Window) : List Block :=
  match turns with
  | 0 => []
  | turns + 1 =>
    let b := s.longest w
    if b.length = 0 then []
    else
      let left :=
        if w.oldStart < b.old && w.newStart < b.new then
          s.blocksIn turns ⟨w.oldStart, b.old, w.newStart, b.new⟩
        else []
      let right :=
        if b.old + b.length < w.oldStop && b.new + b.length < w.newStop then
          s.blocksIn turns ⟨b.old + b.length, w.oldStop, b.new + b.length, w.newStop⟩
        else []
      left ++ b :: right

end Sides

/-- Stretches that touch on both sides made one. -/
def joinTouching : List Block → List Block
  | [] => []
  | b :: rest =>
    match joinTouching rest with
    | [] => [b]
    | next :: more =>
      if b.old + b.length = next.old ∧ b.new + b.length = next.new then
        ⟨b.old, b.new, b.length + next.length⟩ :: more
      else b :: next :: more

/-- **The stretches two lists share**, in order and apart. -/
def blocks (old new : List α) : List Block :=
  let s := Sides.ofLists old new
  joinTouching (s.blocksIn (old.length + 1) ⟨0, old.length, 0, new.length⟩)

end SlotEdit.Diff
