import SlotEdit.Syntax.Node

/-!
# Syntax/PlainText — a text as its lines

The tree of a plain text: a `Text` node over the whole with one `Line` child for each line, line
feeds left out.
-/

namespace SlotEdit.PlainText

/-- The nodes of the lines of a text, from line `index` on, which starts at `offset`. -/
def lineNodes (index offset : Nat) : List (List Char) → List Node
  | [] => []
  | line :: rest =>
    .mk (.line index) ⟨offset, offset + line.length⟩ []
      :: lineNodes (index + 1) (offset + line.length + 1) rest

/-- The lines of a text, line feeds left out; a text without one is one line. -/
def linesOf : List Char → List (List Char)
  | [] => [[]]
  | c :: rest =>
    if c = '\n' then [] :: linesOf rest
    else match linesOf rest with
      | line :: lines => (c :: line) :: lines
      | [] => [[c]]

/-- **The tree of a plain text.** -/
def ofText (text : String) : Node :=
  let cs := text.toList
  .mk .text ⟨0, cs.length⟩ (lineNodes 0 0 (linesOf cs))

end SlotEdit.PlainText
