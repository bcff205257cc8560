import SlotEdit.CommandLine.Command
import SlotEdit.CommandLine.Report

/-!
# CommandLine/Session — a command while it runs

A `Session` is the console and the files a command sees and what it has shown so far.  A command ends well, or with
an exit code after it has told what is wrong, or in a `Crash`.
-/

namespace SlotEdit

variable [Interpreter]

-- The zero of a sum is that of the core library, whatever else is in scope.
local instance (priority := 10000) Session.coreZero : Zero Nat := Zero.ofOfNat0

/-- What keeps a command from going on without a word of its own. -/
inductive Crash
  | configuration (fault : ConfigurationFault)
  | file (fault : FileFault)
  | languageIsNoText
  | pattern (fault : Regex.PatternFault)
  | template (fault : TemplateFault)
  | batch (fault : BatchFault)
  | notEncodable
  | notShown (o : Output)

/-- The wording of a crash. -/
def Crash.message : Crash → String
  | .configuration fault => fault.message
  | .file .missing => "no such file"
  | .file .isDirectory => "the file is a directory"
  | .file .notText => "the file is no text"
  | .languageIsNoText => "the language configured for the file is no text"
  | .pattern fault => fault.message
  | .template fault => fault.message
  | .batch fault => fault.message
  | .notEncodable => "half of a surrogate pair cannot be encoded"
  | .notShown _ => "the console cannot show what it is given"

/-- How a command ends before its end. -/
inductive Ending
  | exit (code : Nat)
  | crash (c : Crash)

/-- The console and the files of a command, which messages are shown, and what has been shown. -/
structure Session where
  console : Console
  files : Files
  threshold : Option Nat
  output : List Output

/-- A part of a command. -/
abbrev Run (α : Type) := ExceptT Ending (StateM Session) α

namespace Run

/-- Shows something, unless the console cannot; that ends the command. -/
def emit (o : Output) : Run Unit := do
  let s ← get
  if s.console.refuses o then throw (.crash (.notShown o))
  else set { s with output := s.output ++ [o] }

/-- Prints a line. -/
def print (markup : String) : Run Unit := emit (.print markup)

/-- Prints an error. -/
def printError (markup : String) : Run Unit := print ("[red]Error: " ++ markup ++ "[/red]")

/-- Prints an error and ends the command. -/
def fail {α : Type} (markup : String) : Run α := do
  printError markup
  throw (.exit 1)

/-- Ends the command. -/
def crash {α : Type} (c : Crash) : Run α := throw (.crash c)

/-- The end of the command, with an error, unless a condition holds. -/
def require (condition : Bool) (markup : String) : Run Unit :=
  if condition then pure () else fail markup

/-- A result, or the end of the command. -/
def orCrash {ε α : Type} (c : ε → Crash) (r : Except ε α) : Run α :=
  match r with
  | .ok a => pure a
  | .error e => crash (c e)

/-- Shows a message, if it is severe enough.  Messages have no markup, and one that the console
cannot show is passed over. -/
def log (level : LogLevel) (message : String) : Run Unit := modify fun s =>
  if s.threshold.any (· ≤ level.severity) && !s.console.refuses (.log ⟨level, message⟩) then
    { s with output := s.output ++ [.log ⟨level, message⟩] }
  else s

/-! ## What is watched -/

/-- The syntax tree of a document; a message when its text does not fit. -/
def syntaxTree (g : Grammar) (d : Document) : Run SyntaxTree := do
  let tree := SyntaxTree.ofText g d.content
  match tree.fault? with
  | some message => log .warning (g.reporter ++ " could not parse text: " ++ message)
  | none => pure ()
  pure tree

/-- The fragments a finder finds, with a message unless the document is empty. -/
def matchesOf (f : Regex.Finder) (d : Document) : Run (List Fragment) := do
  let fragments := f.fragments d
  if !d.isEmpty then
    log .debug ("Pattern " ++ quoted f.pattern ++ " matched " ++ toString fragments.length
      ++ " time(s)")
  pure fragments

/-- A message on the nodes of a document that were found. -/
def reportNodes (d : Document) (count : Nat) : Run Unit :=
  if d.isEmpty then pure ()
  else log .debug ("Tree pattern matched " ++ toString count ++ " node(s)")

/-- A pass of a template over a document. -/
def compute (t : Template) (d : Document) : Run Template := do
  let t ← orCrash .template (t.compute d)
  match t.subject with
  | .groups finder =>
    let _ ← matchesOf finder d
  | _ => reportNodes d t.bound.length
  let slots := (t.bound.map fun b => b.slots.length).sum
  log .debug (t.settings.name ++ ": " ++ toString t.bound.length ++ " fragment(s), "
    ++ toString slots ++ " slot(s)")
  pure t

/-! ## Files -/

/-- The identifier of the language of a file: one that is asked for, or what the configuration
says. -/
def languageId (asked : Option String) (c : Configuration) (p : Path) : Yaml.Loaded :=
  match asked.filter (· ≠ "") with
  | some id => .text id
  | none => c.languageFor p

/-- **A file as a document.** -/
def document (p : Path) (asked : Option String) (c : Configuration) : Run Document := do
  let s ← get
  require (s.files.exists? p) ("File not found: " ++ escapeMarkup p.render)
  match languageId asked c p with
  | .scalar (.str id) =>
    match Registry.builtin.get? id with
    | some language =>
      let text ← orCrash .file (s.files.readText p)
      pure ⟨text, language⟩
    | none => do
      printError ("Unknown language: " ++ escapeMarkup id)
      print ("Known languages: " ++ ", ".intercalate Registry.builtin.ids)
      throw (.exit 1)
  | _ => crash .languageIsNoText

/-- A text put in the place of what a file holds; the file changes even when it cannot be encoded. -/
def overwrite (p : Path) (text : LooseText) : Run Unit := do
  let s ← get
  let (files, encoded) ← orCrash .file (s.files.overwrite p text)
  set { s with files := files }
  if !encoded then crash .notEncodable

/-- What is told of an edit once it is written. -/
def updated (p : Path) (edit : TextEdit) : Output :=
  .print ("[green]Updated " ++ p.render ++ " (" ++ edit.kind.name ++ " at " ++ edit.range.render
    ++ ")[/green]")

/-- **An edit of a file**: written to it, or only shown as a diff. -/
def applyEdit (d : Document) (edit : TextEdit) (p : Path) (dryRun : Bool) : Run Unit := do
  let editor : Editor Unit := (Editor.ofDocument d).add edit
  if dryRun then
    let diff ← orCrash .batch (editor.previewText defaultContext)
    emit (.panel ("Pending edit: " ++ p.name) diff)
  else
    let text ← orCrash .batch editor.editedText
    log .info ("Applied " ++ toString editor.pending.length ++ " edit(s) to " ++ d.language.id
      ++ " document")
    overwrite p text
    emit (updated p edit)

end Run

end SlotEdit
