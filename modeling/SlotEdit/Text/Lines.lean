/-!
# Text/Lines — offsets and positions of one text

A `Position` is a row and a column counted from zero, ordered row first; a `TextRange` is the
half-open span between two of them and carries the proof that its ends are in order.  Neither
knows a text: both may lie outside every one.

A `LineTable` holds where the lines of a text start; `positionAt` and `offsetAt` convert between
offsets (characters before a place) and positions.  Both clamp what lies outside the text.  Only the
line feed ends a line.  `lineIndentation` gives the blanks in front of the line an offset is on: new
lines are indented like one that is there already.
-/

namespace SlotEdit

/-! ## Positions -/

/-- A row and a column, counted from zero; either may be negative or past the end of a text. -/
structure Position where
  row : Int
  column : Int
deriving DecidableEq, Repr, Inhabited

namespace Position

/-- The order of positions: by row, then by column. -/
protected def lt (p q : Position) : Prop :=
  p.row < q.row ∨ (p.row = q.row ∧ p.column < q.column)

/-- A position is at most another when it is not after it. -/
protected def le (p q : Position) : Prop :=
  p.row < q.row ∨ (p.row = q.row ∧ p.column ≤ q.column)

instance : LT Position := ⟨Position.lt⟩
instance : LE Position := ⟨Position.le⟩

theorem lt_def {p q : Position} :
    p < q ↔ p.row < q.row ∨ (p.row = q.row ∧ p.column < q.column) := Iff.rfl

theorem le_def {p q : Position} :
    p ≤ q ↔ p.row < q.row ∨ (p.row = q.row ∧ p.column ≤ q.column) := Iff.rfl

instance (p q : Position) : Decidable (p < q) :=
  inferInstanceAs (Decidable (_ ∨ _))

instance (p q : Position) : Decidable (p ≤ q) :=
  inferInstanceAs (Decidable (_ ∨ _))

@[ext] theorem ext {p q : Position} (hr : p.row = q.row) (hc : p.column = q.column) : p = q := by
  cases p; cases q; cases hr; cases hc; rfl

@[simp] theorem le_refl (p : Position) : p ≤ p := Or.inr ⟨rfl, Int.le_refl _⟩

theorem le_trans {p q r : Position} (h : p ≤ q) (k : q ≤ r) : p ≤ r := by
  rw [le_def] at *; omega

theorem le_antisymm {p q : Position} (h : p ≤ q) (k : q ≤ p) : p = q := by
  rw [le_def] at *; ext <;> omega

theorem not_lt {p q : Position} : ¬ p < q ↔ q ≤ p := by
  rw [lt_def, le_def]; omega

theorem le_total (p q : Position) : p ≤ q ∨ q ≤ p := by
  simp only [le_def]; omega

/-- The written form `row:column`. -/
def render (p : Position) : String := toString p.row ++ ":" ++ toString p.column

/-- **Re-basing**: the position as seen from a frame whose `(0, 0)` is `origin`.  Columns shift
only on the origin's own row. -/
def relativeTo (p origin : Position) : Position :=
  if p.row = origin.row then ⟨0, p.column - origin.column⟩ else ⟨p.row - origin.row, p.column⟩

end Position

/-- Why a span cannot be built. -/
inductive RangeFault
  | endBeforeStart (start stop : Position)
  | startAfterEnd (start stop : Int)
deriving DecidableEq, Repr

/-- The wording of a refused span. -/
def RangeFault.message : RangeFault → String
  | .endBeforeStart start stop =>
    "Range end " ++ stop.render ++ " is before its start " ++ start.render
  | .startAfterEnd start stop =>
    "Start offset " ++ toString start ++ " is after end offset " ++ toString stop

/-- A half-open span between two positions in order. -/
structure TextRange where
  start : Position
  stop : Position
  start_le_stop : start ≤ stop
deriving DecidableEq, Repr

namespace TextRange

/-- The written form `row:column-row:column`. -/
def render (r : TextRange) : String := r.start.render ++ "-" ++ r.stop.render

/-- The span from `start` to `stop`, refused when they are out of order. -/
def ofPositions (start stop : Position) : Except RangeFault TextRange :=
  if h : start ≤ stop then .ok ⟨start, stop, h⟩ else .error (.endBeforeStart start stop)

/-- The span between two positions given in any order. -/
def between (p q : Position) : TextRange :=
  if h : p ≤ q then ⟨p, q, h⟩ else ⟨q, p, (Position.le_total p q).resolve_left h⟩

/-- The empty span at a position. -/
def single (p : Position) : TextRange := ⟨p, p, Position.le_refl p⟩

instance : Inhabited TextRange := ⟨single ⟨0, 0⟩⟩

/-- A span is empty when its ends meet. -/
def isEmpty (r : TextRange) : Bool := r.start = r.stop

/-- Both ends re-based on `origin`. -/
def relativeTo (r : TextRange) (origin : Position) : Except RangeFault TextRange :=
  ofPositions (r.start.relativeTo origin) (r.stop.relativeTo origin)

/-- A position lies in a span when it is between the ends, both included. -/
def containsPosition (r : TextRange) (p : Position) : Bool := r.start ≤ p ∧ p ≤ r.stop

/-- A span contains another when neither end sticks out. -/
def contains (r s : TextRange) : Bool := r.start ≤ s.start ∧ s.stop ≤ r.stop

/-- Two spans overlap when each starts before the other ends. -/
def overlaps (r s : TextRange) : Bool := r.start < s.stop ∧ s.start < r.stop

theorem between_of_le {p q : Position} (h : p ≤ q) : between p q = ⟨p, q, h⟩ := dif_pos h

end TextRange

/-! ## Slices -/

/-- The characters of a list from offset `start` up to `stop`. -/
def sliceList {α : Type} (s : List α) (start stop : Nat) : List α :=
  (s.drop start).take (stop - start)

/-- The part of a text from offset `start` up to `stop`. -/
def slice (s : String) (start stop : Nat) : String :=
  String.ofList (sliceList s.toList start stop)

@[simp] theorem toList_slice (s : String) (a b : Nat) :
    (slice s a b).toList = sliceList s.toList a b := by simp [slice]

/-! ## Line starts -/

/-- The offsets right after each line feed, when the text starts at `offset`. -/
def lineStartsFrom (offset : Nat) : List Char → List Nat
  | [] => []
  | c :: rest =>
    if c = '\n' then (offset + 1) :: lineStartsFrom (offset + 1) rest
    else lineStartsFrom (offset + 1) rest

/-- Where the lines of a text start, and how long the text is. -/
structure LineTable where
  starts : List Nat
  length : Nat
deriving Repr, DecidableEq

namespace LineTable

/-- The table of a text: the first line starts at 0, every other right after a line feed. -/
def ofList (s : List Char) : LineTable := ⟨0 :: lineStartsFrom 0 s, s.length⟩

/-- The table of a text. -/
def ofText (s : String) : LineTable := ofList s.toList

/-- An offset moved to the nearest one inside the text. -/
def clamp (t : LineTable) (offset : Int) : Nat := min offset.toNat t.length

/-- The row of an offset inside the text: how many lines start at or before it, less one. -/
def rowAt (t : LineTable) (offset : Nat) : Nat :=
  (t.starts.takeWhile (· ≤ offset)).length - 1

/-- **The position of an offset**, clamped to the text. -/
def positionAt (t : LineTable) (offset : Int) : Position :=
  let o := t.clamp offset
  let row := t.rowAt o
  ⟨row, (o : Int) - (t.starts.getD row 0 : Nat)⟩

/-- Where line `row` ends, its line feed left out. -/
def lineEnd (t : LineTable) (row : Nat) : Nat :=
  match t.starts[row + 1]? with
  | some next => next - 1
  | none => t.length

/-- **The offset of a position**, clamped to its line and to the text. -/
def offsetAt (t : LineTable) (p : Position) : Nat :=
  if p.row < 0 then 0
  else
    match t.starts[p.row.toNat]? with
    | none => t.length
    | some start =>
      max start (min ((start : Int) + p.column) (t.lineEnd p.row.toNat)).toNat

/-- The span between two offsets of the text. -/
def rangeOf (t : LineTable) (start stop : Nat) : TextRange :=
  TextRange.between (t.positionAt start) (t.positionAt stop)

/-- The span between two offsets, refused when they are reversed; each is clamped. -/
def rangeOfOffsets (t : LineTable) (start stop : Int) : Except RangeFault TextRange :=
  if start > stop then .error (.startAfterEnd start stop)
  else TextRange.ofPositions (t.positionAt start) (t.positionAt stop)

end LineTable

/-! ## Indentation -/

/-- A space or a tab. -/
def isIndent (c : Char) : Bool := c == ' ' || c == '\t'

/-- Where the line that holds an offset starts. -/
def lineStartBefore (text : List Char) (offset : Nat) : Nat :=
  let before := text.take offset
  before.length - (before.reverse.takeWhile (· ≠ '\n')).length

/-- **The blanks in front of the line that holds an offset.** -/
def lineIndentation (text : List Char) (offset : Nat) : String :=
  String.ofList ((text.drop (lineStartBefore text offset)).takeWhile isIndent)

/-- How much deeper the first line of a block is than the line that closes it. -/
def deeper : String := "    "

end SlotEdit
