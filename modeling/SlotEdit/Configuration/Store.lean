import SlotEdit.Configuration.Basic
import SlotEdit.Storage.Files
import SlotEdit.Yaml.Reading
import SlotEdit.Yaml.Writing

/-!
# Configuration/Store — where a configuration comes from

A `ConfigurationStore` loads the configuration of a directory: the defaults, with the settings of
its file laid over them, and those of the environment over both.  What has been loaded is kept.  A
file that cannot be read, or holds no mapping, is passed over with a warning.  What a file's text stands
for is up to a `ValueReader`; the one at hand is `Yaml.read`.
-/

namespace SlotEdit

open Yaml (Loaded)

variable [Interpreter]

/-- The variables a program is started with. -/
abbrev Environment := List (String × LooseText)

/-- What gives a text's value, or says why there is none. -/
abbrev ValueReader := String → Except Yaml.Fault Loaded

/-- Where the configuration is, and what has been loaded. -/
structure ConfigurationStore where
  directory : Path
  loaded : Option Configuration
deriving Repr, Inhabited

namespace ConfigurationStore

/-- Nothing has been loaded yet. -/
def ofDirectory (directory : Path) : ConfigurationStore := ⟨directory, none⟩

/-- The configuration file. -/
def file (s : ConfigurationStore) : Path := s.directory.inside "config.yaml"

/-! ## Sources -/

/-- The settings of a file's text. -/
def settingsOfText (read : ValueReader) (path : Path) (text : String) : Loading (List (Value × Loaded)) :=
  match read text with
  | .error (.invalid _) => do
    warn ("Could not load config file " ++ path.render)
    pure []
  | .error fault => throw (.noValue fault)
  | .ok v =>
    match v.entries? with
    | some entries => pure entries
    | none => do
      if !v.isFalsy then
        warn ("Ignoring config file " ++ path.render ++ ": expected a mapping")
      pure []

/-- The settings of a file, if it is there. -/
def fileSettings (read : ValueReader) (fs : Files) (path : Path) : Loading (List (Value × Loaded)) :=
  match fs.readText path with
  | .ok text => settingsOfText read path text
  | .error .missing => pure []
  | .error .notText => throw .notText
  | .error .isDirectory => do
    warn ("Could not load config file " ++ path.render)
    pure []

/-- A variable that is set and not empty. -/
def setVariable? (env : Environment) (name : String) : Option LooseText :=
  (env.lookup name).filter fun t => !t.letters.isEmpty

/-- The setting of a variable's text. -/
def textSetting (env : Environment) (name key : String) : List (Value × Loaded) :=
  ((setVariable? env name).map fun t => (Value.str key, Loaded.scalar (.ofText t))).toList

/-- The integer a text is, if it is one. -/
def looseInteger? (t : LooseText) : Option Int := t.toString?.bind fun s => (readInt s).toOption

/-- The setting of a variable that holds an integer; another text is passed over with a
warning. -/
def integerSetting (env : Environment) (name key : String) : Loading (List (Value × Loaded)) :=
  match setVariable? env name with
  | none => pure []
  | some t =>
    match looseInteger? t with
    | some n => pure [(.str key, .scalar (.int n))]
    | none => do
      warn ("Ignoring " ++ name ++ "=" ++ t.quoted ++ ": not an integer")
      pure []

/-- The settings of the environment. -/
def environmentSettings (env : Environment) : Loading (List (Value × Loaded)) := do
  let maxFragments ← integerSetting env "MONOCLE_MAX_FRAGMENTS" "max_fragments"
  pure (textSetting env "MONOCLE_DEFAULT_LANGUAGE" "default_language"
    ++ textSetting env "MONOCLE_LOG_LEVEL" "log_level"
    ++ textSetting env "MONOCLE_INDENTATION" "indentation" ++ maxFragments)

/-! ## Loading -/

/-- **The configuration of all sources**: defaults, then the file, then the environment. -/
def fromSources (read : ValueReader) (fs : Files) (env : Environment) (path : Path) :
    Loading Configuration := do
  let fromFile ← fileSettings read fs path
  let c ← Configuration.default.merge fromFile
  let fromEnvironment ← environmentSettings env
  c.merge fromEnvironment

/-- The configuration, loaded unless it has been; the messages of loading it, and the store that
keeps it. -/
def loadBy (read : ValueReader) (fs : Files) (env : Environment) (s : ConfigurationStore) :
    Except ConfigurationFault Configuration × List LogLine × ConfigurationStore :=
  match s.loaded with
  | some c => (.ok c, [], s)
  | none =>
    let (result, log) := (fromSources read fs env s.file).run.run []
    (result, log, { s with loaded := result.toOption })

/-- The configuration, by the reader at hand. -/
def load (fs : Files) (env : Environment) (s : ConfigurationStore) :
    Except ConfigurationFault Configuration × List LogLine × ConfigurationStore :=
  s.loadBy Yaml.read fs env

/-! ## Saving -/

/-- Settings written to the file, in a directory that is made if it is not there; a message when
the file cannot be written. -/
def save (fs : Files) (settings : List (Value × Value)) (s : ConfigurationStore) :
    Files × List LogLine :=
  let fs := fs.makeDirectory s.directory
  match fs.writeText s.file (Yaml.written settings) with
  | .ok fs => (fs, [])
  | .error _ => (fs, [⟨.warning, "Could not save config file " ++ s.file.render⟩])

/-- The default configuration written to the file. -/
def createDefault (fs : Files) (s : ConfigurationStore) : Files × List LogLine :=
  let (fs, log) := s.save fs Configuration.defaultSettings
  (fs, log ++ [⟨.info, "Created default configuration at " ++ s.file.render⟩])

/-! ## Summary -/

/-- What a configuration says, by name, with where it is kept. -/
def summary (fs : Files) (c : Configuration) (s : ConfigurationStore) :
    Except ConfigurationFault (List (String × Value)) :=
  match c.sortedExtensions? with
  | none => .error .unorderedSuffixes
  | some extensions => .ok
    [("config_file", .str s.file.render), ("config_exists", .bool (fs.exists? s.file)),
     ("default_language", .ofText c.defaultLanguage), ("log_level", .ofText c.logLevel),
     ("indentation", (c.indentation.map Value.ofText).getD .null),
     ("max_fragments", .int c.maxFragments), ("extensions", .list (extensions.map .str))]

end ConfigurationStore

end SlotEdit
