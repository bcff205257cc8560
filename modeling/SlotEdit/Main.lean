import SlotEdit.CommandLine.Execution
import SlotEdit.Console.Output

/-!
# Main — the command line

Brings in the files a command line speaks of, runs it, writes what has changed and shows the output
as plain text.
-/

namespace SlotEdit.Main

/-- The names of the variables that configure the program. -/
def variableNames : List String :=
  ["MONOCLE_DEFAULT_LANGUAGE", "MONOCLE_LOG_LEVEL", "MONOCLE_INDENTATION",
   "MONOCLE_MAX_FRAGMENTS"]

/-- The variables that are set. -/
def environment : IO Environment := do
  let values : List (Option (String × LooseText)) ← variableNames.mapM fun name => do
    let value ← IO.getEnv name
    pure (value.map fun v => (name, v))
  pure (values.filterMap id)

/-- The files with one more, if it is there. -/
def bring (files : Files) (p : Path) : IO Files := do
  try
    let bytes ← IO.FS.readBinFile p.render
    pure (files.makeFile p (.ofBytes bytes.toList))
  catch e =>
    match e with
    | .noFileOrDirectory .. => pure files
    | .inappropriateType .. => pure (files.makeDirectory p)
    | e => throw e

/-- The file a command line speaks of. -/
def fileOf (words : List String) : Option Path :=
  match Invocation.ofWords words with
  | .ok (some invocation) =>
    match invocation.name.command invocation.words with
    | .ok command => command.file?
    | .error _ => none
  | _ => none

/-- Writes a file that has changed. -/
def store (before after : Files) (p : Path) : IO Unit := do
  match after.content? p with
  | some (.text s) => if before.content? p ≠ some (.text s) then IO.FS.writeFile p.render s
  | _ => pure ()

/-- Runs a command line. -/
def run (words : List String) : IO UInt32 := do
  let env ← environment
  let home ← IO.getEnv "HOME"
  let home := Path.ofText (home.getD ".")
  let configuration := (ConfigurationStore.ofDirectory (configurationDirectory home)).file
  let file := fileOf words
  let mut files ← bring ⟨[], []⟩ configuration
  if let some p := file then
    files ← bring files p
  let outcome := execute .plain home env files words
  if let some p := file then
    store files outcome.files p
  for o in outcome.output do
    for line in o.lines do
      IO.println line
  if let some c := outcome.crash then
    IO.eprintln c.message
  pure (UInt32.ofNat outcome.exitCode)

end SlotEdit.Main

/-- The program. -/
def main (args : List String) : IO UInt32 := SlotEdit.Main.run args
