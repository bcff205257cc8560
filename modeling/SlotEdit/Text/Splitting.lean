import SlotEdit.Text.LooseText

/-!
# Text/Splitting — a text cut into lines

Cuts a text behind every line break, of whatever kind; each line keeps the break that ends it, so
the lines put together are the text again (`flatten_splitLines`).  Files end their lines with a line
feed, a carriage return, or both: `unifyNewlines` makes a line feed of each, and a text without
carriage returns stays as it is (`unifyNewlineChars_of_notMem`).
-/

namespace SlotEdit

/-- The characters that end a line on their own: line feed, vertical tab, form feed, carriage
return, the file, group and record separators, next line, and the line and paragraph
separators. -/
def isLineBreak (c : Char) : Bool :=
  let n := c.toNat
  (10 ≤ n ∧ n ≤ 13) ∨ (28 ≤ n ∧ n ≤ 30) ∨ n = 0x85 ∨ n = 0x2028 ∨ n = 0x2029

/-- A line break ends behind this character, given the one that follows; a carriage return and a
line feed are one break. -/
def endsLine (c : Char) (next : Option Char) : Bool :=
  isLineBreak c && !(c == '\r' && next == some '\n')

section Splitting

variable {α : Type} (char : α → Char)

/-- The lines of the rest of a text, given the line so far, last letter first. -/
def splitLinesFrom (line : List α) : List α → List (List α)
  | [] => if line.isEmpty then [] else [line.reverse]
  | c :: rest =>
    if endsLine (char c) (rest.head?.map char) then (c :: line).reverse :: splitLinesFrom [] rest
    else splitLinesFrom (c :: line) rest

/-- **The lines of a text**, each with the break that ends it, given the character of each of its
letters. -/
def splitLines (s : List α) : List (List α) := splitLinesFrom char [] s

theorem flatten_splitLinesFrom (line s : List α) :
    (splitLinesFrom char line s).flatten = line.reverse ++ s := by
  induction s generalizing line with
  | nil => cases line <;> simp [splitLinesFrom]
  | cons c rest ih =>
    by_cases h : endsLine (char c) (rest.head?.map char) <;> simp [splitLinesFrom, h, ih]

@[simp] theorem flatten_splitLines (s : List α) : (splitLines char s).flatten = s := by
  simp [splitLines, flatten_splitLinesFrom]

end Splitting

/-! ## One line break for all -/

/-- Every line break as a line feed. -/
def unifyNewlineChars : List Char → List Char
  | [] => []
  | '\r' :: '\n' :: rest => '\n' :: unifyNewlineChars rest
  | c :: rest => (if c = '\r' then '\n' else c) :: unifyNewlineChars rest

/-- **A text with a line feed for every line break.** -/
def unifyNewlines (text : String) : String := String.ofList (unifyNewlineChars text.toList)

theorem unifyNewlineChars_of_notMem {s : List Char} (h : '\r' ∉ s) : unifyNewlineChars s = s := by
  induction s with
  | nil => rfl
  | cons c rest ih =>
    simp only [List.mem_cons, not_or] at h
    have hc : c ≠ '\r' := fun e => h.1 e.symm
    unfold unifyNewlineChars
    split
    · simp_all
    · simp_all
    · simp_all

end SlotEdit
