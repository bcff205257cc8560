import SlotEdit.Calendar
import SlotEdit.Decimal.Reading

/-!
# Yaml/Fault — what is wrong with a YAML text

A text that is no single YAML document of known tags is invalid, for one of the reasons `Problem`
lists.  Some valid texts still have no value: a number, date or word that its tag does not allow.
-/

namespace SlotEdit.Yaml

/-- Why a text is no single document. -/
inductive Problem
  | unprintable (c : Char)
  | strayCharacter
  | malformedDirective
  | malformedTag
  | malformedAnchor
  | malformedEscape
  | malformedBlockHeader
  | unclosedQuote
  | markerInQuote
  | keyWithoutValue
  | misplacedEntry
  | misplacedKey
  | misplacedValue
  | unexpectedToken
  | repeatedDirective
  | unsupportedVersion
  | undefinedHandle (handle : String)
  | undefinedAlias (name : String)
  | repeatedAnchor (name : String)
  | severalDocuments
  | unknownTag (tag : String)
  | unsuitableTag (tag : String)
  | collectionAsKey
  | mergeOfNoMapping
  | pairOfNoMapping
  | malformedBytes
deriving DecidableEq, Repr

/-- Why a text has no value. -/
inductive Fault
  | invalid (problem : Problem)
  | number (fault : NumberFault)
  | notInBase (base : Nat) (digits : String)
  | noDigits
  | moment (fault : MomentFault)
  | unknownCharacter
  | hugeCharacter
  | unknownBoolean (word : String)
  | tooDeep
deriving DecidableEq, Repr

/-- The wording of a text without a value. -/
def Fault.message : Fault → String
  | .invalid _ => "the text is no valid document"
  | .number fault => fault.message
  | .notInBase base digits =>
    "invalid literal for int() with base " ++ toString base ++ ": " ++ quoted digits
  | .noDigits => "string index out of range"
  | .moment fault => fault.message
  | .unknownCharacter => "chr() arg not in range(0x110000)"
  | .hugeCharacter => "signed integer is greater than maximum"
  | .unknownBoolean word => quoted (lowerText word)
  | .tooDeep => "maximum recursion depth exceeded"

/-- The fault of an invalid text. -/
abbrev invalid {α : Type} (problem : Problem) : Except Fault α := .error (.invalid problem)

end SlotEdit.Yaml
