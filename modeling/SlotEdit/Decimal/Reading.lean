import SlotEdit.Text.CharClass
import SlotEdit.Text.Quoted
import SlotEdit.Decimal.Shortest

/-!
# Decimal/Reading — numbers from text

`readInt` and `readFloat` read a whole text as a number: digits of any script, white space around
them and single underscores between them are allowed.  `readDecimal?` is the common part: a plain
ASCII decimal with an optional fraction and exponent.
-/

namespace SlotEdit

/-- Why a text is no number. -/
inductive NumberFault
  | notAnInteger (text : String)
  | notANumber (text : String)
  | tooManyDigits (count : Nat)
  | tooLongToWrite
deriving DecidableEq, Repr

/-- The remedy both digit limits name. -/
def digitLimitAdvice : String :=
  "use sys.set_int_max_str_digits() to increase the limit"

/-- The wording of a refused number. -/
def NumberFault.message : NumberFault → String
  | .notAnInteger text =>
    "invalid literal for int() with base 10: " ++ String.ofList ((quoted text).toList.take 200)
  | .notANumber text => "could not convert string to float: " ++ quoted text
  | .tooManyDigits count =>
    "Exceeds the limit (4300 digits) for integer string conversion: value has "
      ++ toString count ++ " digits; " ++ digitLimitAdvice
  | .tooLongToWrite =>
    "Exceeds the limit (4300 digits) for integer string conversion; " ++ digitLimitAdvice

/-! ## Digits -/

/-- The number a list of digits of any script writes; characters that are no digits are passed
over. -/
def digitsValue (s : List Char) : Nat :=
  s.foldl (fun n c => match digitValue? c with | some d => 10 * n + d | none => n) 0

/-- A sign in front, and the rest. -/
def splitSign : List Char → Bool × List Char
  | '-' :: rest => (true, rest)
  | '+' :: rest => (false, rest)
  | rest => (false, rest)

/-- White space taken off both ends. -/
def trimBlanks (s : List Char) : List Char :=
  ((s.dropWhile isBlank).reverse.dropWhile isBlank).reverse

/-- The text without its underscores, if each of them stands between two digits. -/
def dropUnderscores? (isDigit : Char → Bool) (afterDigit : Bool) :
    List Char → Option (List Char)
  | [] => some []
  | '_' :: rest =>
    if afterDigit && (rest.head?.map isDigit).getD false then
      dropUnderscores? isDigit false rest
    else none
  | c :: rest => (dropUnderscores? isDigit (isDigit c) rest).map (c :: ·)

/-- The integer of a run of digits, refused past `digitLimit`. -/
def integerOfDigits (negative : Bool) (digits : List Char) : Except NumberFault Int :=
  if digits.length > digitLimit then .error (.tooManyDigits digits.length)
  else
    let n : Int := digitsValue digits
    .ok (if negative then -n else n)

/-- **A whole text read as an integer.** -/
def readInt (text : String) : Except NumberFault Int :=
  let (negative, body) := splitSign (trimBlanks text.toList)
  match dropUnderscores? isDecimalDigit false body with
  | some digits =>
    if digits.isEmpty || !digits.all isDecimalDigit then .error (.notAnInteger text)
    else integerOfDigits negative digits
  | none => .error (.notAnInteger text)

/-! ## Decimals -/

/-- An exponent: the letter, a sign and digits, or nothing at all. -/
def readExponent? : List Char → Option Int
  | [] => some 0
  | c :: rest =>
    if c = 'e' ∨ c = 'E' then
      let (negative, digits) := splitSign rest
      if digits.isEmpty || !digits.all isDecimalDigit then none
      else
        let n : Int := digitsValue digits
        some (if negative then -n else n)
    else none

/-- An unsigned decimal: digits with an optional point among or around them, then an optional
exponent. -/
def readDecimal? (negative : Bool) (s : List Char) : Option Binary64 :=
  let whole := s.takeWhile isDecimalDigit
  let rest := s.dropWhile isDecimalDigit
  let (fraction, rest) :=
    match rest with
    | '.' :: more => (more.takeWhile isDecimalDigit, more.dropWhile isDecimalDigit)
    | _ => ([], rest)
  if whole.isEmpty && fraction.isEmpty then none
  else (readExponent? rest).map fun e =>
    Binary64.ofDecimal negative (digitsValue (whole ++ fraction)) (e - fraction.length)

/-- The words for numbers without digits. -/
def readWord? (negative : Bool) (s : List Char) : Option Binary64 :=
  match String.ofList (s.map asciiLowerChar) with
  | "inf" | "infinity" => some (.infinite negative)
  | "nan" => some .nan
  | _ => none

/-- **A whole text read as a number**, or `none`. -/
def readFloat? (text : List Char) : Option Binary64 :=
  let (negative, body) := splitSign (trimBlanks text)
  match readWord? negative body with
  | some x => some x
  | none => (dropUnderscores? isDecimalDigit false body).bind (readDecimal? negative)

/-- A whole text read as a number. -/
def readFloat (text : String) : Except NumberFault Binary64 :=
  match readFloat? text.toList with
  | some x => .ok x
  | none => .error (.notANumber text)

end SlotEdit
