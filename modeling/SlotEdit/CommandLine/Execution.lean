import SlotEdit.CommandLine.Session

/-!
# CommandLine/Execution — what commands do

`Command.run` is one command; `execute` runs a whole command line on some files and gives the exit
code, everything that was shown, and the files as they are afterwards.
-/

namespace SlotEdit

variable [Interpreter]

namespace Run

/-! ## Inspecting -/

/-- Shows the syntax tree of a file. -/
def tree (file : Path) (language : Option String) (depth : Option Int) (c : Configuration) :
    Run Unit := do
  let d ← document file language c
  match d.language.grammar with
  | none => print ("[yellow]Language " ++ d.language.id ++ " has no parser[/yellow]")
  | some g =>
    let tree ← syntaxTree g d
    emit (.outline (tree.outline depth))
    match tree.fault? with
    | some message => print ("[red]Parse error: " ++ escapeMarkup message ++ "[/red]")
    | none => pure ()

/-- The finder of a pattern; a malformed one ends the command with its fault. -/
def finder (pattern : String) : Run Regex.Finder :=
  match Regex.Finder.ofPattern pattern [] with
  | .ok f => pure f
  | .error e =>
    match e.fault with
    | .malformed _ _ => fail (escapeMarkup e.message)
    | _ => crash (.pattern e)

/-- The nodes of a type as fragments. -/
def nodesOfType (typeName : String) (skipDescendants : Bool) (d : Document) :
    Run (List Fragment) := do
  match d.language.grammar with
  | none =>
    fail ("Language " ++ d.language.id ++ " does not support structural matching")
  | some g =>
    let descent : Descent := if skipDescendants then .skip else .below
    let fragments := (TreePattern.ofType typeName fun _ _ => descent).fragments d
    if !d.isEmpty then
      let _ ← syntaxTree g d
    reportNodes d fragments.length
    pure fragments

/-- Shows some fragments. -/
def showFragments (fragments : List Fragment) (c : Configuration) : Run Unit :=
  if fragments.isEmpty then print "[yellow]No fragments found[/yellow]"
  else emit (fragmentsTable fragments c.maxFragments)

/-- Shows the matches of a pattern or the nodes of a type. -/
def find (file : Path) (regex nodeType language : Option String) (skipDescendants : Bool)
    (c : Configuration) : Run Unit := do
  match regex, nodeType with
  | some pattern, none =>
    let d ← document file language c
    let f ← finder pattern
    let fragments ← matchesOf f d
    showFragments fragments c
  | none, some typeName =>
    let d ← document file language c
    let fragments ← nodesOfType typeName skipDescendants d
    showFragments fragments c
  | _, _ => fail "Use exactly one of --regex and --node-type"

/-! ## Slots -/

/-- The kinds of slots by name. -/
def slotKinds : List (String × Valuator) := [("text", .text), ("number", .number), ("json", .json)]

/-- The key and the kind of a slot: what stands before and behind the first colon. -/
def slotOption (option : String) : String × String :=
  let cs := option.toList
  let key := cs.takeWhile (· ≠ ':')
  let kind := String.ofList (cs.drop (key.length + 1))
  (String.ofList key, if kind = "" then "text" else kind)

/-- The specification of some slots. -/
def slotSpecification (options : List String) : Run SlotSpecification := do
  let entries ← options.mapM fun option => do
    let (key, kind) := slotOption option
    match slotKinds.lookup kind with
    | some valuator => pure (key, valuator)
    | none => fail ("Unknown slot kind " ++ quoted kind ++ " (use one of "
        ++ ", ".intercalate (slotKinds.map Prod.fst) ++ ")")
  pure (SlotSpecification.ofEntries entries)

/-- A template of the groups of a pattern. -/
def groupTemplate (f : Regex.Finder) (spec : SlotSpecification) : Template :=
  .ofSubject (.groups f) spec (.named Settings.defaultName)

/-- Shows the slots of every match of a pattern. -/
def slots (file : Path) (regex : String) (options : List String) (language : Option String)
    (c : Configuration) : Run Unit := do
  let d ← document file language c
  let spec ← slotSpecification options
  let f ← finder regex
  let t ← compute (groupTemplate f spec) d
  if t.bound.isEmpty then print "[yellow]No fragments found[/yellow]"
  else
    let table ← orCrash (Crash.template ∘ TemplateFault.value) (slotsTable t c.maxFragments)
    emit table

/-- The handle of a fragment by its place in the list. -/
def fragmentAt (t : Template) (index : Int) : Run Handle :=
  match if index < 0 then none else t.handles[index.toNat]? with
  | some h => pure h
  | none => fail ("No fragment #" ++ toString index ++ " (" ++ toString t.bound.length ++ " found)")

/-! ## Editing -/

/-- What a value is read as and what it is written as, in one. -/
def readValue (v : Valuator) (text : String) : Except TemplateFault Value :=
  (v.deserialize text).mapError .value

/-- A fault is one of the text or value that was given, not of the program. -/
def isReported : TemplateFault → Bool
  | .value fault => !fault.isTooDeep && fault.isOfText
  | .noInsertion _ _ => true
  | _ => false

/-- The result of an edit; a fault of what was given is told in some words. -/
def orReport {α : Type} (words : String → String) (r : Except TemplateFault α) : Run α :=
  match r with
  | .ok a => pure a
  | .error fault =>
    if isReported fault then fail (words fault.message) else crash (.template fault)

/-- The finder of a pattern; every refusal but those of a limit ends the command with its
fault. -/
def finderForEdit (pattern : String) : Run Regex.Finder :=
  match Regex.Finder.ofPattern pattern [] with
  | .ok f => pure f
  | .error e =>
    match e.fault with
    | .countTooLarge => crash (.pattern e)
    | .tooDeep => crash (.pattern e)
    | _ => fail (escapeMarkup e.message)

/-- Gives a slot of a match another value. -/
def setSlot (file : Path) (regex : String) (options : List String) (key value : String)
    (fragment : Int) (dryRun : Bool) (language : Option String) (c : Configuration) :
    Run Unit := do
  let d ← document file language c
  let spec ← slotSpecification options
  match spec.lookup key with
  | none => fail ("--key " ++ key ++ " is not one of the declared slots")
  | some valuator =>
    let f ← finderForEdit regex
    let t ← compute (groupTemplate f spec) d
    let h ← fragmentAt t fragment
    let edit ← orReport escapeMarkup do
      let v ← readValue valuator value
      t.commit h key v
    applyEdit d edit file dryRun

/-- A template of the objects assigned to a key, with one property as its slot. -/
def objectTemplate (objectKey key : String) (c : Configuration) : Template :=
  .ofSubject (Template.objectsOf objectKey) [(key, .json)]
    { Settings.named (Template.objectsName objectKey) with indentation := c.indentation }

/-- Gives a property of an object another value, or adds it. -/
def setProperty (file : Path) (objectKey key value : String) (fragment : Int) (dryRun : Bool)
    (c : Configuration) : Run Unit := do
  let d ← document file (some "json") c
  let tree ← syntaxTree .json d
  require tree.fault?.isNone "The document is not valid JSON"
  let t ← compute (objectTemplate objectKey key c) d
  let h ← fragmentAt t fragment
  let told (message : String) : String :=
    "Invalid JSON value " ++ escapeMarkup (quoted value) ++ ": " ++ escapeMarkup message
  let edit ← orReport told do
    let v ← readValue .json value
    t.commit h key v
  applyEdit d edit file dryRun

/-- Shows the configuration. -/
def showConfiguration (store : ConfigurationStore) (c : Configuration) : Run Unit := do
  let s ← get
  let rows ← orCrash .configuration (store.summary s.files c)
  let table ← orCrash (Crash.configuration ∘ ConfigurationFault.invalidNumber)
    (configurationTable rows)
  emit table

end Run

/-- **What a command does** under a configuration. -/
def Command.run (store : ConfigurationStore) (c : Configuration) : Command → Run Unit
  | .languages => Run.emit (languagesTable Registry.builtin)
  | .tree file language depth => Run.tree file language depth c
  | .find file regex nodeType language skipDescendants =>
    Run.find file regex nodeType language skipDescendants c
  | .slots file regex options language => Run.slots file regex options language c
  | .setSlot file regex options key value fragment dryRun language =>
    Run.setSlot file regex options key value fragment dryRun language c
  | .setProperty file objectKey key value fragment dryRun =>
    Run.setProperty file objectKey key value fragment dryRun c
  | .configuration => Run.showConfiguration store c
  | .help => throw (.exit 0)

namespace Run

/-- Which messages are shown from now on: those of the level that is asked for, else of the
configured one; warnings if there is no such level. -/
def setThreshold (asked : Option String) (c : Configuration) : Run Unit := do
  let level := (((asked.filter (· ≠ "")).map LooseText.ofString).getD c.logLevel).upper.shown
  match LogLevel.threshold? level with
  | some least => modify fun s => { s with threshold := some least }
  | none =>
    print ("[yellow]Warning: unknown log level " ++ quoted (escapeMarkup level)
      ++ ", using WARNING[/yellow]")
    modify fun s => { s with threshold := some LogLevel.warning.severity }

/-- The exit code of a command line that is used wrongly. -/
def usageCode : Nat := 2

/-- A result, or the end of the command as of one that is used wrongly. -/
def orUsage {α : Type} (r : Except UsageFault α) : Run α :=
  match r with
  | .ok a => pure a
  | .error _ => throw (.exit usageCode)

/-- The configuration; what is told while it is loaded is not shown. -/
def configuration (env : Environment) (store : ConfigurationStore) : Run Configuration := do
  let s ← get
  orCrash .configuration (store.load s.files env).1

/-- A whole command line.  The words behind the command's name are read last. -/
def line (env : Environment) (store : ConfigurationStore) (words : List String) : Run Unit := do
  match ← orUsage (Invocation.ofWords words) with
  | none => pure ()
  | some invocation =>
    let c ← configuration env store
    setThreshold invocation.logLevel c
    let command ← orUsage (invocation.name.command invocation.words)
    command.run store c

end Run

/-- What a command line did: its exit code, how it crashed if it did, what it showed, and the files
afterwards. -/
structure Outcome where
  exitCode : Nat
  crash : Option Crash
  output : List Output
  files : Files

/-- The directory of the configuration inside a home directory. -/
def configurationDirectory (home : Path) : Path := home.inside ".monocle"

/-- **A command line run on some files.** -/
def execute (console : Console) (home : Path) (env : Environment) (files : Files)
    (words : List String) : Outcome :=
  let store := ConfigurationStore.ofDirectory (configurationDirectory home)
  let (result, s) := (Run.line env store words).run.run ⟨console, files, none, []⟩
  match result with
  | .ok _ => ⟨0, none, s.output, s.files⟩
  | .error (.exit code) => ⟨code, none, s.output, s.files⟩
  | .error (.crash c) => ⟨1, some c, s.output, s.files⟩

end SlotEdit
