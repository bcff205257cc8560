import SlotEdit.Json.Decode
import SlotEdit.Json.Encode

/-!
# Template/Valuator — the typed values of slots

A `Valuator` reads the raw text of a slot as a value (`deserialize`) and writes a value as what goes
into the document (`serialize`).
-/

namespace SlotEdit

/-- How the text of a slot and its value go together: the text is the value, a number, or any JSON
value. -/
inductive Valuator
  | text
  | number
  | json
deriving DecidableEq, Repr

/-- Why a value cannot be read or written. -/
inductive ValueFault
  | badJson (text : String) (fault : Json.Fault)
  | badNumber (fault : NumberFault)
  | booleanAsNumber
  | notSerializable
  | tooDeepToWrite
deriving Repr

/-- The wording of a value that cannot be read or written. -/
def ValueFault.message : ValueFault → String
  | .badJson text fault => fault.message text
  | .badNumber fault => fault.message
  | .booleanAsNumber => "Booleans are not numbers"
  | .notSerializable => "Object is not JSON serializable"
  | .tooDeepToWrite => Json.Cause.tooDeep.message

/-- The fault is that a text or a value nests too deep. -/
def ValueFault.isTooDeep : ValueFault → Bool
  | .badJson _ fault => fault.cause = .tooDeep
  | .tooDeepToWrite => true
  | _ => false

/-- The fault lies in a text or number and not in the kind of value. -/
def ValueFault.isOfText : ValueFault → Bool
  | .badJson _ _ => true
  | .badNumber _ => true
  | _ => false

/-- A text is an integer: digits of any script after an optional sign. -/
def isInteger (s : List Char) : Bool :=
  let digits := (splitSign s).2
  !digits.isEmpty && digits.all isDecimalDigit

/-- A text as a number: an integer, or a floating-point number when there is more than digits. -/
def readNumber (text : String) : Except NumberFault Value :=
  let s := trimBlanks text.toList
  if isInteger s then (readInt (String.ofList s)).map .int
  else (readFloat (String.ofList s)).map .float

namespace Valuator

variable [Interpreter]

/-- **The value of a text.** -/
def deserialize (v : Valuator) (text : String) : Except ValueFault Value :=
  match v with
  | .text => .ok (.str text)
  | .number => (readNumber text).mapError .badNumber
  | .json => (Json.decode text).mapError (.badJson text)

/-- **What a value is written as.**  Only `text` leaves a value that is no text as it is. -/
def serialize (v : Valuator) (value : Value) : Except ValueFault Value :=
  match v with
  | .text => .ok value
  | .number =>
    match value with
    | .bool _ => .error .booleanAsNumber
    | value => (value.display.map .str).mapError .badNumber
  | .json =>
    match Json.encode value with
    | .ok t => .ok (.ofText t)
    | .error (.number fault) => .error (.badNumber fault)
    | .error .notSerializable => .error .notSerializable
    | .error .tooDeep => .error .tooDeepToWrite

end Valuator

end SlotEdit
