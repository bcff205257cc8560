import SlotEdit.Value
import SlotEdit.Log
import SlotEdit.Yaml.Fault
import SlotEdit.Yaml.Loaded
import SlotEdit.Storage.Path

/-!
# Configuration/Basic — what a user can configure

A `Configuration` says which language a document has when neither an option nor its file's suffix
does, which messages are shown, how inserted lines are indented and how many fragments are listed.
`merge` lays settings that come as names and values over it.
-/

namespace SlotEdit

open Yaml (Loaded)

/-- What a user can configure. -/
structure Configuration where
  defaultLanguage : LooseText
  logLevel : LooseText
  indentation : Option LooseText
  maxFragments : Int
  extensionLanguages : List (Loaded × Loaded)
deriving Repr, Inhabited

/-- Why a configuration cannot be loaded. -/
inductive ConfigurationFault
  | notText
  | noValue (fault : Yaml.Fault)
  | invalidNumber (fault : NumberFault)
  | infinite
  | notATable
  | entryNotAPair (index length : Nat)
  | collectionAsSuffix
  | unorderedSuffixes
deriving DecidableEq, Repr

/-- The wording of a fault. -/
def ConfigurationFault.message : ConfigurationFault → String
  | .notText => "the file is no text"
  | .noValue fault => fault.message
  | .invalidNumber fault => fault.message
  | .infinite => "cannot convert float infinity to integer"
  | .notATable => "the table of suffixes is no table"
  | .entryNotAPair index length =>
    "dictionary update sequence element #" ++ toString index ++ " has length " ++ toString length
      ++ "; 2 is required"
  | .collectionAsSuffix => "a collection is no suffix"
  | .unorderedSuffixes => "suffixes of different kinds have no order"

/-- What loading a configuration gives: the configuration or a fault, and messages. -/
abbrev Loading (α : Type) := ExceptT ConfigurationFault (StateM (List LogLine)) α

/-- A warning. -/
def warn (message : String) : Loading Unit :=
  modify fun log => log ++ [⟨.warning, message⟩]

/-- A step that may fail without a message. -/
def Loading.ofExcept {α : Type} (r : Except ConfigurationFault α) : Loading α :=
  match r with
  | .ok a => pure a
  | .error fault => throw fault

namespace Configuration

/-- The usual suffixes and their languages. -/
def usualSuffixes : List (String × String) :=
  [(".json", "json"), (".css", "css"), (".py", "python"), (".math", "math"), (".txt", "plaintext")]

/-- The languages of the usual suffixes. -/
def defaultExtensionLanguages : List (Loaded × Loaded) :=
  usualSuffixes.map fun (suffix, id) => (.text suffix, .text id)

/-- The configuration of a user who configures nothing. -/
def default : Configuration :=
  ⟨"plaintext", "WARNING", none, 50, defaultExtensionLanguages⟩

/-! ## The table of suffixes -/

/-- A value that may be a suffix. -/
def asSuffix (v : Loaded) : Except ConfigurationFault Loaded :=
  if v.isKey then .ok v else .error .collectionAsSuffix

/-- A pair of suffix and language, by its place in a list of them. -/
def pairOf (index : Nat) (v : Loaded) : Except ConfigurationFault (Loaded × Loaded) :=
  match v.parts? with
  | none => .error .notATable
  | some [suffix, id] => (asSuffix suffix).map fun s => (s, id)
  | some parts => .error (.entryNotAPair index parts.length)

/-- A list of pairs, counted from `index`. -/
def pairsOf (index : Nat) : List Loaded → Except ConfigurationFault (List (Loaded × Loaded))
  | [] => .ok []
  | v :: rest => do
    let head ← pairOf index v
    let tail ← pairsOf (index + 1) rest
    pure (head :: tail)

/-- The entries of a table of suffixes: a mapping, or whatever has pairs as its parts. -/
def tableOf (v : Loaded) : Except ConfigurationFault (List (Loaded × Loaded)) :=
  match v.entries? with
  | some entries => .ok (entries.map fun (suffix, id) => (.scalar suffix, id))
  | none =>
    match v.parts? with
    | some parts => pairsOf 0 parts
    | none => .error .notATable

/-- A table with one more entry: a suffix already there keeps its place and takes the new
language. -/
def insertSuffix : List (Loaded × Loaded) → Loaded → Loaded → List (Loaded × Loaded)
  | [], suffix, id => [(suffix, id)]
  | (k, v) :: rest, suffix, id =>
    if k.sameKey suffix then (k, id) :: rest else (k, v) :: insertSuffix rest suffix id

/-- The entries of a table laid over those of another. -/
def updateTable (table more : List (Loaded × Loaded)) : List (Loaded × Loaded) :=
  more.foldl (fun t e => insertSuffix t e.1 e.2) table

/-- The language a table gives a suffix. -/
def language? (table : List (Loaded × Loaded)) (suffix : String) : Option Loaded :=
  (table.find? fun e => e.1.sameKey (.text suffix)).map Prod.snd

/-! ## Settings by name -/

/-- The blanks of bytes that hold a number. -/
def isByteBlank (c : Char) : Bool := c == ' ' || ('\t' ≤ c && c ≤ '\r')

/-- Bytes as an integer, if they are the text of one. -/
def integerOfBytes (content : List UInt8) : Option Int :=
  let cs := content.map fun b => Char.ofNat b.toNat
  if cs.all fun c => isByteBlank c || ('!' ≤ c && c ≤ '~') then (readInt (String.ofList cs)).toOption
  else none

/-- A value as an integer: texts are read and fractions cut off. -/
def integerOf : Loaded → Except ConfigurationFault (Option Int)
  | .scalar (.bool b) => .ok (some (if b then 1 else 0))
  | .scalar (.int n) => .ok (some n)
  | .scalar (.float (.infinite _)) => .error .infinite
  | .scalar (.float x) => .ok x.truncate?
  | .scalar (.str s) => .ok (readInt s).toOption
  | .scalar (.bytes content) => .ok (integerOfBytes content)
  | _ => .ok none

/-- The value of a setting. -/
def setting? (settings : List (Value × Loaded)) (name : String) : Option Loaded :=
  (settings.find? fun e => e.1.sameKey (.str name)).map Prod.snd

/-- A value as plain text. -/
def plainText (v : Loaded) : Loading LooseText := Loading.ofExcept (v.written.mapError .invalidNumber)

/-- The number of fragments a value asks for; one that is no integer is passed over with a
warning. -/
def mergeMaxFragments (c : Configuration) (v : Loaded) : Loading Configuration := do
  match ← Loading.ofExcept (integerOf v) with
  | some n => pure { c with maxFragments := n }
  | none =>
    let shown ← Loading.ofExcept (v.display.mapError .invalidNumber)
    warn ("Ignoring max_fragments=" ++ shown ++ ": not an integer")
    pure c

/-- The indentation a value asks for; null asks for that of the neighbouring lines. -/
def indentationOf (v : Loaded) : Loading (Option LooseText) :=
  match v with
  | .scalar .null => pure none
  | v => some <$> plainText v

/-- A step for a setting that is there. -/
def mergeSetting (settings : List (Value × Loaded)) (name : String)
    (step : Configuration → Loaded → Loading Configuration) (c : Configuration) :
    Loading Configuration :=
  match setting? settings name with
  | some v => step c v
  | none => pure c

/-- **Settings laid over a configuration**: each replaces what was there, but the table of suffixes
is added to. -/
def merge (c : Configuration) (settings : List (Value × Loaded)) : Loading Configuration := do
  let c ← mergeSetting settings "default_language" (fun c v => do
    let s ← plainText v
    pure { c with defaultLanguage := s }) c
  let c ← mergeSetting settings "log_level" (fun c v => do
    let s ← plainText v
    pure { c with logLevel := s.upper }) c
  let c ← mergeSetting settings "indentation" (fun c v => do
    let s ← indentationOf v
    pure { c with indentation := s }) c
  let c ← mergeSetting settings "max_fragments" mergeMaxFragments c
  mergeSetting settings "extension_languages" (fun c v => do
    let entries ← Loading.ofExcept (tableOf v)
    pure { c with extensionLanguages := updateTable c.extensionLanguages entries }) c

/-! ## Use -/

/-- The language of a file: what the table says of its suffix in lower case, or the default one. -/
def languageFor (c : Configuration) (p : Path) : Loaded :=
  (language? c.extensionLanguages (lowerText p.suffix)).getD (.scalar (.ofText c.defaultLanguage))

/-- The configuration of a user who configures nothing, as settings by name. -/
def defaultSettings : List (Value × Value) :=
  [(.str "default_language", .ofText default.defaultLanguage), (.str "log_level", .ofText default.logLevel),
   (.str "indentation", (default.indentation.map Value.ofText).getD .null),
   (.str "max_fragments", .int default.maxFragments),
   (.str "extension_languages", .dict (usualSuffixes.map fun (suffix, id) => (.str suffix, .str id)))]

/-- The suffixes of the table in order; none if one of them is no text. -/
def sortedExtensions? (c : Configuration) : Option (List String) :=
  let texts := c.extensionLanguages.mapM fun e =>
    match e.1 with
    | .scalar (.str s) => some s
    | _ => none
  texts.map fun ss => ss.mergeSort fun a b => !(b < a)

end Configuration

end SlotEdit
