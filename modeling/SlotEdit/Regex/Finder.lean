import SlotEdit.Regex.Matching
import SlotEdit.Regex.Alias
import SlotEdit.Text.Lines
import SlotEdit.Syntax.Span

/-!
# Regex/Finder — all matches of an expression in a text

A `Finder` is an expression with the text it was written as.  `findAll` lists its matches from left
to right: they do not overlap, and after an empty one the search goes on a character further.
-/

namespace SlotEdit.Regex

/-- A group that took part in a match. -/
structure FoundGroup where
  name : String
  span : Span
deriving DecidableEq, Repr

/-- A match: the characters it stands on and its named groups, in the order of the expression. -/
structure Found where
  span : Span
  groups : List FoundGroup
deriving DecidableEq, Repr

/-- Why a pattern is refused, and the pattern as it was written. -/
structure PatternFault where
  pattern : String
  fault : Fault
deriving DecidableEq, Repr

/-- The wording of a refused pattern; places are those in the long spelling. -/
def PatternFault.message (e : PatternFault) : String :=
  match e.fault with
  | .malformed cause offset =>
    "Invalid regular expression " ++ quoted e.pattern ++ ": "
      ++ cause.located offset (String.ofList (expandAliases e.pattern.toList))
  | fault => fault.message

/-- The named groups that took part in a match. -/
def Expression.foundGroups (e : Expression) (r : Progress) : List FoundGroup :=
  e.names.filterMap fun (name, index) =>
    (r.capture index).span?.map fun (a, b) => ⟨name, a, b⟩

/-- The matches from an offset on.  Each turn finds one. -/
def Expression.findAllFrom (e : Expression) (text : Array Char) (turns offset : Nat) :
    List Found :=
  match turns with
  | 0 => []
  | turns + 1 =>
    if offset ≤ text.size then
      match e.search text offset with
      | none => []
      | some (start, r) =>
        let next := if start < r.offset then r.offset else r.offset + 1
        ⟨⟨start, r.offset⟩, e.foundGroups r⟩ :: e.findAllFrom text turns next
    else []

/-- **All matches of an expression in a text.** -/
def Expression.findAll (e : Expression) (text : String) : List Found :=
  let chars := text.toList.toArray
  e.findAllFrom chars (chars.size + 1) 0

/-- A pattern as it was written, its switches, and the expression it stands for. -/
structure Finder where
  pattern : String
  flags : Flags
  expression : Expression
deriving Repr

namespace Finder

variable [Interpreter]

/-- The expression of a pattern in either spelling. -/
def compile (pattern : String) (flags : Flags) : Except PatternFault Expression :=
  match Expression.ofText (String.ofList (expandAliases pattern.toList)) flags with
  | .ok e => .ok e
  | .error fault => .error ⟨pattern, fault⟩

/-- **The finder of a pattern.** -/
def ofPattern (pattern : String) (flags : Flags) : Except PatternFault Finder := do
  pure ⟨pattern, flags, ← compile pattern flags⟩

/-- The finder of another pattern under the same switches. -/
def withPattern (f : Finder) (pattern : String) : Except PatternFault Finder :=
  ofPattern pattern f.flags

/-- The names of the groups, in the order of the pattern. -/
def groupNames (f : Finder) : List String := f.expression.names.map Prod.fst

/-- All matches in a text. -/
def findAll (f : Finder) (text : String) : List Found := f.expression.findAll text

end Finder

end SlotEdit.Regex
