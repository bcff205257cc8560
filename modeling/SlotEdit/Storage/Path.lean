/-!
# Storage/Path — names of files

A `Path` is a list of parts, from the working directory or, when absolute, from the root.  Empty
parts and single dots say nothing and are left out.
-/

namespace SlotEdit

/-- The name of a file or directory. -/
structure Path where
  absolute : Bool
  parts : List String
deriving DecidableEq, Repr, Inhabited

namespace Path

/-- A text cut at its slashes. -/
def cutAtSlashes : List Char → List (List Char)
  | [] => [[]]
  | c :: rest =>
    match cutAtSlashes rest with
    | [] => [[c]]
    | part :: parts => if c = '/' then [] :: part :: parts else (c :: part) :: parts

/-- **The path a text names.** -/
def ofText (text : String) : Path :=
  let parts := (cutAtSlashes text.toList).map String.ofList
  ⟨text.toList.head? = some '/', parts.filter fun part => part ≠ "" ∧ part ≠ "."⟩

/-- A path as a text; a dot names the working directory. -/
def render (p : Path) : String :=
  if p.absolute then "/" ++ "/".intercalate p.parts
  else if p.parts.isEmpty then "."
  else "/".intercalate p.parts

/-- The last part, if there is one. -/
def name (p : Path) : String := p.parts.getLast?.getD ""

/-- A path inside a directory. -/
def inside (p : Path) (part : String) : Path := { p with parts := p.parts ++ [part] }

/-- The directory a path is in. -/
def parent (p : Path) : Path := { p with parts := p.parts.dropLast }

/-- What follows the last point of a name, with the point, if something stands on both sides of
it. -/
def suffix (p : Path) : String :=
  let cs := p.name.toList
  let behind := cs.reverse.takeWhile (· ≠ '.')
  let front := cs.length - behind.length
  if front ≤ 1 || behind.isEmpty then "" else String.ofList ('.' :: behind.reverse)

end Path

end SlotEdit
