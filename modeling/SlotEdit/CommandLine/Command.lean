import SlotEdit.CommandLine.Arguments
import SlotEdit.Decimal.Reading
import SlotEdit.Storage.Path

/-!
# CommandLine/Command — what a user can ask for

A `Command` is what one command line asks for.  `Invocation.ofWords` finds its name among the
words; `CommandName.command` reads the words behind the name.
-/

namespace SlotEdit

/-- What a user asks for. -/
inductive Command
  | languages
  | tree (file : Path) (language : Option String) (depth : Option Int)
  | find (file : Path) (regex nodeType language : Option String) (skipDescendants : Bool)
  | slots (file : Path) (regex : String) (slots : List String) (language : Option String)
  | setSlot (file : Path) (regex : String) (slots : List String) (key value : String)
      (fragment : Int) (dryRun : Bool) (language : Option String)
  | setProperty (file : Path) (objectKey key value : String) (fragment : Int) (dryRun : Bool)
  | configuration
  | help
deriving DecidableEq, Repr

/-- The file a command is for. -/
def Command.file? : Command → Option Path
  | .tree file _ _ => some file
  | .find file _ _ _ _ => some file
  | .slots file _ _ _ => some file
  | .setSlot file _ _ _ _ _ _ _ => some file
  | .setProperty file _ _ _ _ _ => some file
  | _ => none

/-- The commands by name. -/
inductive CommandName
  | languages
  | tree
  | find
  | slots
  | set
  | jsonSet
  | config
deriving DecidableEq, Repr

namespace CommandName

/-- All commands. -/
def all : List CommandName := [.languages, .tree, .find, .slots, .set, .jsonSet, .config]

/-- The word for a command. -/
def word : CommandName → String
  | .languages => "languages"
  | .tree => "tree"
  | .find => "find"
  | .slots => "slots"
  | .set => "set"
  | .jsonSet => "json-set"
  | .config => "config"

/-- The command of a word. -/
def ofWord? (w : String) : Option CommandName := all.find? fun c => c.word == w

end CommandName

/-! ## Options -/

/-- The request for help. -/
def helpForm : OptionForm := ⟨"help", none, false⟩

/-- The options in front of the command. -/
def globalForms : List OptionForm := [⟨"log-level", none, true⟩, helpForm]

/-- The language of a file. -/
def languageForm : OptionForm := ⟨"language", some 'l', true⟩

/-- The options of a command. -/
def CommandName.forms : CommandName → List OptionForm
  | .languages => [helpForm]
  | .tree => [languageForm, ⟨"depth", some 'd', true⟩, helpForm]
  | .find =>
    [⟨"regex", some 'r', true⟩, ⟨"node-type", some 't', true⟩, ⟨"skip-descendants", none, false⟩,
     languageForm, helpForm]
  | .slots => [⟨"regex", some 'r', true⟩, ⟨"slot", some 's', true⟩, languageForm, helpForm]
  | .set =>
    [⟨"regex", some 'r', true⟩, ⟨"slot", some 's', true⟩, ⟨"key", some 'k', true⟩,
     ⟨"value", some 'v', true⟩, ⟨"fragment", some 'f', true⟩, ⟨"dry-run", none, false⟩,
     languageForm, helpForm]
  | .jsonSet =>
    [⟨"object-key", some 'o', true⟩, ⟨"key", some 'k', true⟩, ⟨"value", some 'v', true⟩,
     ⟨"fragment", some 'f', true⟩, ⟨"dry-run", none, false⟩, helpForm]
  | .config => [helpForm]

/-- An integer given to an option. -/
def Arguments.integer? (a : Arguments) (name : String) : Except UsageFault (Option Int) :=
  match a.value? name with
  | none => .ok none
  | some text =>
    match readInt text with
    | .ok n => .ok (some n)
    | .error _ => .error (.notAnInteger text)

/-! ## Commands -/

/-- The file among the arguments. -/
def Arguments.file (a : Arguments) : Except UsageFault Path := a.operand.map Path.ofText

/-- The command a name and its arguments make. -/
def CommandName.withArguments (name : CommandName) (a : Arguments) : Except UsageFault Command := do
  match name with
  | .languages =>
    a.noOperand
    pure .languages
  | .config =>
    a.noOperand
    pure .configuration
  | .tree =>
    let file ← a.file
    let depth ← a.integer? "depth"
    pure (.tree file (a.value? "language") depth)
  | .find =>
    let file ← a.file
    pure (.find file (a.value? "regex") (a.value? "node-type") (a.value? "language")
      (a.has "skip-descendants"))
  | .slots =>
    let file ← a.file
    let regex ← a.required "regex"
    let slots ← a.requiredAll "slot"
    pure (.slots file regex slots (a.value? "language"))
  | .set =>
    let file ← a.file
    let regex ← a.required "regex"
    let slots ← a.requiredAll "slot"
    let key ← a.required "key"
    let value ← a.required "value"
    let fragment ← a.integer? "fragment"
    pure (.setSlot file regex slots key value (fragment.getD 0) (a.has "dry-run")
      (a.value? "language"))
  | .jsonSet =>
    let file ← a.file
    let objectKey ← a.required "object-key"
    let key ← a.required "key"
    let value ← a.required "value"
    let fragment ← a.integer? "fragment"
    pure (.setProperty file objectKey key value (fragment.getD 0) (a.has "dry-run"))

/-- **The command of the words behind its name.** -/
def CommandName.command (name : CommandName) (words : List String) : Except UsageFault Command := do
  let a ← Arguments.read name.forms true words
  if a.has "help" then pure .help else name.withArguments a

/-- A command by name with the words behind it, and the options in front of it. -/
structure Invocation where
  logLevel : Option String
  name : CommandName
  words : List String
deriving DecidableEq, Repr

/-- **The invocation of a command line**; nothing when it asks for help. -/
def Invocation.ofWords (words : List String) : Except UsageFault (Option Invocation) := do
  let a ← Arguments.read globalForms false words
  if a.has "help" then return none
  match a.operands with
  | [] => throw .missingCommand
  | word :: rest =>
    match CommandName.ofWord? word with
    | some name => pure (some ⟨a.value? "log-level", name, rest⟩)
    | none => throw (.unknownCommand word)

end SlotEdit
