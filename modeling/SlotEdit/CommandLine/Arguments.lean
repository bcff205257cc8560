/-!
# CommandLine/Arguments — options and operands

`Arguments.read` sorts the words of a command line into options and operands by the forms of the
options.  An option that takes a value takes the next word, whatever it looks like; the value of a
long one may follow an equals sign, that of a letter may follow it at once.  Behind `--` every word
is an operand.
-/

namespace SlotEdit

/-- How an option is written, and whether it takes a value. -/
structure OptionForm where
  name : String
  letter : Option Char
  takesValue : Bool
deriving DecidableEq, Repr

/-- What is wrong with a command line. -/
inductive UsageFault
  | unknownOption
  | missingValue
  | unexpectedValue
  | missingOption (name : String)
  | missingOperand
  | extraOperand
  | notAnInteger (text : String)
  | missingCommand
  | unknownCommand (name : String)
deriving DecidableEq, Repr

/-- An option with its value, if it takes one. -/
structure GivenOption where
  form : OptionForm
  value : String
deriving DecidableEq, Repr

/-- The options and operands of a command line, in order. -/
structure Arguments where
  options : List GivenOption
  operands : List String
deriving DecidableEq, Repr

namespace Arguments

/-- One more option in front. -/
def withOption (form : OptionForm) (value : String) (a : Arguments) : Arguments :=
  { a with options := ⟨form, value⟩ :: a.options }

/-- One more operand in front. -/
def withOperand (word : String) (a : Arguments) : Arguments :=
  { a with operands := word :: a.operands }

/-- An option at the front of a word: its form, and the value the word holds. -/
def optionOf (forms : List OptionForm) (word : List Char) :
    Except UsageFault (OptionForm × Option String) :=
  let name := word.takeWhile (· ≠ '=')
  let value := (word.drop name.length).drop 1
  let valued := name.length < word.length
  match forms.find? fun f => '-' :: '-' :: f.name.toList = name with
  | some form =>
    if valued && !form.takesValue then .error .unexpectedValue
    else .ok (form, if valued then some (String.ofList value) else none)
  | none =>
    match word with
    | '-' :: '-' :: _ => .error .unknownOption
    | '-' :: letter :: rest =>
      match forms.find? fun f => f.letter = some letter with
      | some form => .ok (form, if rest.isEmpty then none else some (String.ofList rest))
      | none => .error .unknownOption
    | _ => .error .unknownOption

/-- A word is an option: a dash with something behind it. -/
def isOption (word : String) : Bool :=
  match word.toList with
  | '-' :: _ :: _ => true
  | _ => false

/-- **The options and operands of some words.**  When `mixed` is false the first operand ends the
options. -/
def read (forms : List OptionForm) (mixed : Bool) : List String → Except UsageFault Arguments
  | [] => .ok ⟨[], []⟩
  | word :: rest =>
    if word = "--" then .ok ⟨[], rest⟩
    else if isOption word then
      match optionOf forms word.toList with
      | .error fault => .error fault
      | .ok (form, some value) => (read forms mixed rest).map (withOption form value)
      | .ok (form, none) =>
        if form.takesValue then
          match rest with
          | [] => .error .missingValue
          | value :: rest => (read forms mixed rest).map (withOption form value)
        else (read forms mixed rest).map (withOption form "")
    else if mixed then (read forms mixed rest).map (withOperand word)
    else .ok ⟨[], word :: rest⟩

/-- The values given to an option. -/
def values (a : Arguments) (name : String) : List String :=
  (a.options.filter fun o => o.form.name == name).map GivenOption.value

/-- The value given to an option last. -/
def value? (a : Arguments) (name : String) : Option String := (a.values name).getLast?

/-- An option is given. -/
def has (a : Arguments) (name : String) : Bool := (a.value? name).isSome

/-- The value of an option that has to be given. -/
def required (a : Arguments) (name : String) : Except UsageFault String :=
  match a.value? name with
  | some s => .ok s
  | none => .error (.missingOption name)

/-- The values of an option that has to be given once at least. -/
def requiredAll (a : Arguments) (name : String) : Except UsageFault (List String) :=
  if a.has name then .ok (a.values name) else .error (.missingOption name)

/-- The only operand. -/
def operand (a : Arguments) : Except UsageFault String :=
  match a.operands with
  | [] => .error .missingOperand
  | [word] => .ok word
  | _ => .error .extraOperand

/-- There is no operand. -/
def noOperand (a : Arguments) : Except UsageFault Unit :=
  if a.operands.isEmpty then .ok () else .error .extraOperand

end Arguments

end SlotEdit
