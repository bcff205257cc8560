import SlotEdit.Text.CharClass
import SlotEdit.Text.Tables.CharNames

/-!
# Interpreter — what the interpreter gives

How deep recursion may go depends on the stack of the interpreter and on how much of it is taken
when a reader starts; which character has which name is a table of its library.  Neither is part of
the program, so both are an inferred `Interpreter` that everything above takes as it is.
`Interpreter.standard` is one to run on.
-/

namespace SlotEdit

/-- The characters that names of characters are made of. -/
def isNameLetter (c : Char) : Bool := isAsciiLetter c || isAsciiDigit c || c == ' ' || c == '-'

/-- **What the interpreter gives to the program.**  Recursion ends where its stack does: the fields
say how many frames, or levels of equally many frames, are left to each reader when it starts. -/
class Interpreter where
  /-- The character that has a name. -/
  charNamed? : String → Option Char
  /-- How deep lists and mappings nest in values that are written as JSON and read from it. -/
  valueLevels : Nat
  /-- The frames for the tree of a JSON text. -/
  jsonFrames : Nat
  /-- How deep rules and at-rules nest in a style sheet. -/
  cssLevels : Nat
  /-- The frames for the tree of an expression. -/
  mathFrames : Nat
  /-- The frames for the tree of a Python text. -/
  scriptFrames : Nat
  /-- How deep groups nest in a regular expression. -/
  regexLevels : Nat
  /-- How deep nodes nest in a YAML document. -/
  yamlLevels : Nat
  isNameLetter_of_charNamed? : ∀ {name : String} {c : Char}, charNamed? name = some c →
    ∀ d ∈ name.toList, isNameLetter d = true
  /-- A level of a JSON text takes two frames or more, and one when its value is read. -/
  jsonFrames_le : jsonFrames ≤ 2 * valueLevels
  /-- A statement of one literal in parentheses has a tree. -/
  four_le_scriptFrames : 4 ≤ scriptFrames

namespace Interpreter

/-- An ASCII letter in upper case, and any other character. -/
def upper (c : Char) : Char := if 'a' ≤ c ∧ c ≤ 'z' then Char.ofNat (c.toNat - 32) else c

/-- The character of a name in the table, whatever the case of its letters. -/
def tabled? (name : String) : Option Char :=
  let name := String.ofList (name.toList.map upper)
  Tables.charNames.findSome? fun run =>
    (run.names.idxOf? name).map fun i => Char.ofNat (run.first + i)

/-- An interpreter whose stack has room for a thousand frames, with the names of the table. -/
instance standard : Interpreter where
  charNamed? name := if name.toList.all isNameLetter then tabled? name else none
  valueLevels := 980
  jsonFrames := 985
  cssLevels := 320
  mathFrames := 990
  scriptFrames := 970
  regexLevels := 480
  yamlLevels := 480
  isNameLetter_of_charNamed? {name c} h := by
    split at h
    · next hall => exact List.all_eq_true.mp hall
    · cases h
  jsonFrames_le := by decide
  four_le_scriptFrames := by decide

end Interpreter

end SlotEdit
