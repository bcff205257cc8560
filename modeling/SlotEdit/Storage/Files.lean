import SlotEdit.Storage.Path
import SlotEdit.Text.Splitting
import SlotEdit.Text.LooseText

/-!
# Storage/Files — files as a value

`Files` are the files and directories a program can see, with what they hold.  Reading gives a
file's text with a line feed for every line break; writing replaces what a file holds and leaves
all others as they are.
-/

namespace SlotEdit

/-- What a file holds: a text, or bytes that encode none. -/
inductive Content
  | text (s : String)
  | binary (bytes : List UInt8)
deriving DecidableEq, Repr

/-- What some bytes hold. -/
def Content.ofBytes (bytes : List UInt8) : Content :=
  match String.fromUTF8? ⟨bytes.toArray⟩ with
  | some s => .text s
  | none => .binary bytes

/-- A file or a directory. -/
inductive Entry
  | file (content : Content)
  | directory
deriving DecidableEq, Repr

/-- Why a file cannot be read or written. -/
inductive FileFault
  | missing
  | isDirectory
  | notText
deriving DecidableEq, Repr

/-- The files and directories below the working directory, by the parts of their paths. -/
structure Files where
  files : List (List String × Content)
  directories : List (List String)
deriving Repr, Inhabited

namespace Files

/-- The parts of the root directory. -/
def rootParts : List String := ["/"]

/-- Parts that lead up from the working directory, or nowhere. -/
def leadsUp (parts : List String) : Bool := parts.all (· == "..")

/-- A directory is there: it is around all files, holds something, or has been made. -/
def hasDirectory (fs : Files) (parts : List String) : Bool :=
  leadsUp parts || parts == rootParts || fs.directories.any (parts.isPrefixOf ·)
    || fs.files.any fun f => f.1.length > parts.length && parts.isPrefixOf f.1

/-- What some parts name. -/
def entry? (fs : Files) (parts : List String) : Option Entry :=
  match fs.files.lookup parts with
  | some content => some (.file content)
  | none => if fs.hasDirectory parts then some .directory else none

/-- One part further; two dots lead to the directory around, and the root is in itself. -/
def step (here : List String) (part : String) : List String :=
  if part ≠ ".." then here ++ [part]
  else if leadsUp here then here ++ [part]
  else if here = rootParts then here
  else here.dropLast

/-- The parts a path leads to from a directory, along directories that are there. -/
def follow (fs : Files) (here : List String) : List String → Option (List String)
  | [] => some here
  | part :: rest => if fs.hasDirectory here then fs.follow (step here part) rest else none

/-- Where a path starts. -/
def start (p : Path) : List String := if p.absolute then rootParts else []

/-- Where a path leads. -/
def locate (fs : Files) (p : Path) : Option (List String) := fs.follow (start p) p.parts

/-- Where a path leads if all directories along it are there. -/
def location (p : Path) : List String := p.parts.foldl step (start p)

/-- What a path names. -/
def find? (fs : Files) (p : Path) : Option Entry := (fs.locate p).bind fs.entry?

/-- Something has this path. -/
def exists? (fs : Files) (p : Path) : Bool := (fs.find? p).isSome

/-- **The text of a file**, with a line feed for every line break. -/
def readText (fs : Files) (p : Path) : Except FileFault String :=
  match fs.find? p with
  | none => .error .missing
  | some .directory => .error .isDirectory
  | some (.file (.binary _)) => .error .notText
  | some (.file (.text s)) => .ok (unifyNewlines s)

/-- A file with other content, in its place, or behind all others if it is new. -/
def put : List (List String × Content) → List String → Content → List (List String × Content)
  | [], parts, content => [(parts, content)]
  | (other, old) :: rest, parts, content =>
    if other = parts then (parts, content) :: rest else (other, old) :: put rest parts content

/-- **A text written to a file**, in a directory that is there. -/
def writeText (fs : Files) (p : Path) (text : String) : Except FileFault Files :=
  match fs.locate p with
  | none => .error .missing
  | some parts =>
    match fs.entry? parts with
    | some .directory => .error .isDirectory
    | _ =>
      if fs.hasDirectory parts.dropLast then .ok { fs with files := put fs.files parts (.text text) }
      else .error .missing

/-- **A text put in the place of what a file holds**, and whether it could be encoded.  The file is
emptied before anything is written, so a text with half of a surrogate pair in it leaves it empty. -/
def overwrite (fs : Files) (p : Path) (text : LooseText) : Except FileFault (Files × Bool) :=
  (fs.writeText p (text.toString?.getD "")).map fun written => (written, text.toString?.isSome)

/-- A directory is there, with those around it. -/
def makeDirectory (fs : Files) (p : Path) : Files :=
  if fs.hasDirectory (location p) then fs
  else { fs with directories := location p :: fs.directories }

/-- A file is there, in directories that are there. -/
def makeFile (fs : Files) (p : Path) (content : Content) : Files :=
  let along := (List.range p.parts.length).map fun n => location { p with parts := p.parts.take n }
  ⟨put fs.files (location p) content, along ++ fs.directories⟩

/-- What a file holds, unless the path names a directory or nothing. -/
def content? (fs : Files) (p : Path) : Option Content :=
  match fs.find? p with
  | some (.file content) => some content
  | _ => none

theorem lookup_put (files : List (List String × Content)) (parts : List String)
    (content : Content) : (put files parts content).lookup parts = some content := by
  induction files with
  | nil => simp [put]
  | cons f rest ih =>
    obtain ⟨other, old⟩ := f
    by_cases h : other = parts
    · simp [put, h]
    · have h' : (parts == other) = false := beq_eq_false_iff_ne.mpr fun e => h e.symm
      simp [put, h, List.lookup_cons, h', ih]

theorem lookup_put_of_ne {parts other : List String} (h : other ≠ parts)
    (files : List (List String × Content)) (content : Content) :
    (put files parts content).lookup other = files.lookup other := by
  induction files with
  | nil => simp [put, List.lookup_cons, beq_eq_false_iff_ne.mpr h]
  | cons f rest ih =>
    obtain ⟨name, old⟩ := f
    by_cases hn : name = parts
    · subst hn
      simp [put, List.lookup_cons, beq_eq_false_iff_ne.mpr h]
    · by_cases ho : other = name
      · subst ho
        simp [put, hn]
      · simp [put, hn, List.lookup_cons, beq_eq_false_iff_ne.mpr ho, ih]

end Files

end SlotEdit
