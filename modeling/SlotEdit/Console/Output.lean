import SlotEdit.Log
import SlotEdit.Text.LooseText
import SlotEdit.Console.Markup

/-!
# Console/Output — what a program shows

Everything a program writes for its user, as data: lines, tables, outlines, panels and messages.
How they are laid out is left to the `Console`, and with it what it cannot lay out; one that knows no
styles shows markup without its styles, tables with a line for each row and bars between cells, and
outlines indented by two columns for each level.
-/

namespace SlotEdit

/-- A label with others below it. -/
inductive Outline
  | mk (label : String) (branches : List Outline)
deriving Repr, Inhabited

mutual
/-- The labels of an outline with how deep they are, each in front of those below it. -/
def Outline.rows (depth : Nat) : Outline → List (Nat × String)
  | .mk label branches => (depth, label) :: Outline.rowsOfAll (depth + 1) branches

/-- The labels of some outlines, one after another. -/
def Outline.rowsOfAll (depth : Nat) : List Outline → List (Nat × String)
  | [] => []
  | o :: rest => Outline.rows depth o ++ Outline.rowsOfAll depth rest
end

/-- A piece of output. -/
inductive Output
  | print (markup : String)
  | table (title : String) (columns : List String) (rows : List (List String))
  | outline (o : Outline)
  | panel (title : String) (text : LooseText)
  | log (line : LogLine)
deriving Repr

/-- **A console**, by what it cannot show: the end of a style that was never begun, say, or a letter
that its encoding has no place for. -/
structure Console where
  refuses : Output → Bool

/-! ## Without styles -/

/-- A console that knows no styles shows everything. -/
def Console.plain : Console where
  refuses _ := false

/-- A text behind some backslashes without its styles.  Two backslashes in front of a style stand
for one, and the style behind an odd number of them is text. -/
def unstyledBehind (backslashes : Nat) (s : List Char) : List Char :=
  match s with
  | [] => List.replicate backslashes '\\'
  | c :: rest =>
    if c = '\\' then unstyledBehind (backslashes + 1) rest
    else
      match if c = '[' then styleLength? rest else none with
      | some n =>
        let shown := if backslashes % 2 = 0 then [] else c :: rest.take n
        List.replicate (backslashes / 2) '\\' ++ shown ++ unstyledBehind 0 (rest.drop n)
      | none => List.replicate backslashes '\\' ++ c :: unstyledBehind 0 rest
termination_by s.length
decreasing_by all_goals simp only [List.length_cons, List.length_drop]; omega

/-- Markup without its styles. -/
def unstyled (markup : String) : String := String.ofList (unstyledBehind 0 markup.toList)

/-- The cells of a row with bars between them. -/
def barred (cells : List String) : String := " | ".intercalate (cells.map unstyled)

/-- Output as lines of plain text. -/
def Output.lines : Output → List String
  | .print markup => [unstyled markup]
  | .table title columns rows => title :: barred columns :: rows.map barred
  | .outline o => (o.rows 0).map fun (depth, label) =>
    String.ofList (List.replicate (2 * depth) ' ') ++ unstyled label
  | .panel title text => [title, text.shown]
  | .log l => [l.level.name ++ ": " ++ l.message]

end SlotEdit
