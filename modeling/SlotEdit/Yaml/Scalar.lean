import SlotEdit.Yaml.Fault
import SlotEdit.Value

/-!
# Yaml/Scalar — what plain texts stand for

The type a text asks for when no tag gives one (`typeOf?`), and the value of a text of each type.
The rules are those of YAML 1.1: words such as `yes` and `off` are truth values, integers may be
binary, octal, hexadecimal or counted in sixties, and floating-point numbers need a point.
-/

namespace SlotEdit.Yaml

/-- The types a plain text may have besides that of a text. -/
inductive ScalarType
  | bool
  | float
  | int
  | merge
  | null
  | timestamp
  | value
deriving DecidableEq, Repr

/-- The name of a type in its tag. -/
def ScalarType.name : ScalarType → String
  | .bool => "bool"
  | .float => "float"
  | .int => "int"
  | .merge => "merge"
  | .null => "null"
  | .timestamp => "timestamp"
  | .value => "value"

/-! ## Words -/

/-- The truth values by their lower-case words. -/
def booleanWords : List (String × Bool) :=
  [("yes", true), ("no", false), ("true", true), ("false", false), ("on", true), ("off", false)]

/-- A word in one of its three cases: small, with a capital, in capitals. -/
def isWordForm (word : String) (s : List Char) : Bool :=
  let small := word.toList
  let capitals := small.map upperChar
  s == small || s == capitals || s == capitals.take 1 ++ small.drop 1

/-- A word for a truth value. -/
def isBoolean (s : List Char) : Bool := booleanWords.any fun w => isWordForm w.1 s

/-- A word for nothing, or nothing at all. -/
def isNull (s : List Char) : Bool := s.isEmpty || s == ['~'] || isWordForm "null" s

/-! ## Numbers -/

/-- Digits of a class and underscores, with at least one of them. -/
def isRun (digit : Char → Bool) (s : List Char) : Bool :=
  !s.isEmpty && s.all fun c => digit c || c == '_'

/-- Decimal digits and underscores that start with a digit. -/
def isDecimalRun (s : List Char) : Bool :=
  (s.head?.map isAsciiDigit).getD false && isRun isAsciiDigit s

/-- A part of a number in base sixty: one digit, or two of which the first is below six. -/
def isSixtieth : List Char → Bool
  | [a] => isAsciiDigit a
  | [a, b] => '0' ≤ a ∧ a ≤ '5' ∧ isAsciiDigit b
  | _ => false

/-- A text cut at each of a character. -/
def cutAt (mark : Char) : List Char → List (List Char)
  | [] => [[]]
  | c :: rest =>
    match cutAt mark rest with
    | [] => [[c]]
    | part :: parts => if c = mark then [] :: part :: parts else (c :: part) :: parts

/-- A number in base sixty, of two parts at least. -/
def isSexagesimal (s : List Char) : Bool :=
  match cutAt ':' s with
  | first :: rest => isDecimalRun first && !rest.isEmpty && rest.all isSixtieth
  | [] => false

/-- An integer without its sign. -/
def isUnsignedInt (s : List Char) : Bool :=
  match s with
  | ['0'] => true
  | '0' :: 'b' :: rest => isRun (fun c => c == '0' || c == '1') rest
  | '0' :: 'x' :: rest => isRun isHexDigit rest
  | '0' :: rest => isRun isOctDigit rest
  | _ => isDecimalRun s || isSexagesimal s

/-- An integer. -/
def isInt (s : List Char) : Bool := isUnsignedInt (splitSign s).2

/-- The exponent of a floating-point number, whose sign is written, or nothing. -/
def isExponent : List Char → Bool
  | [] => true
  | e :: sign :: ds =>
    (e == 'e' || e == 'E') && (sign == '-' || sign == '+') && !ds.isEmpty && ds.all isAsciiDigit
  | _ => false

/-- What stands behind the point of a number. -/
def isFraction (s : List Char) : Bool :=
  isExponent (s.dropWhile fun c => isAsciiDigit c || c == '_')

/-- A floating-point number without its sign. -/
def isUnsignedFloat (s : List Char) : Bool :=
  let whole := s.takeWhile (· != '.')
  match s.dropWhile (· != '.') with
  | [] => false
  | _ :: fraction =>
    if whole.isEmpty then isWordForm "inf" fraction
    else (isDecimalRun whole && isFraction fraction)
      || (isSexagesimal whole && fraction.all fun c => isAsciiDigit c || c == '_')

/-- The three ways not to be a number. -/
def isNanWord (s : List Char) : Bool :=
  s == ".nan".toList || s == ".NaN".toList || s == ".NAN".toList

/-- A floating-point number; one that starts with its point has no sign. -/
def isFloat (s : List Char) : Bool :=
  isUnsignedFloat (splitSign s).2 || isNanWord s ||
    (match s with
      | '.' :: d :: rest => isAsciiDigit d && isFraction rest
      | _ => false)

/-! ## Dates -/

/-- The number at the front of a text, of `least` digits at least and `most` at most, and what
follows it. -/
def number? (least most : Nat) (s : List Char) : Option (Nat × List Char) :=
  let ds := (s.takeWhile isAsciiDigit).take most
  if ds.length < least then none else some (digitsValue ds, s.drop ds.length)

/-- What follows a character at the front. -/
def after? (c : Char) : List Char → Option (List Char)
  | d :: rest => if c = d then some rest else none
  | [] => none

/-- The fraction of a second in millionths, cut after six digits. -/
def microseconds (ds : List Char) : Nat :=
  let ds := ds.take 6
  digitsValue (ds ++ List.replicate (6 - ds.length) '0')

/-- The zone at the end of a moment: nothing, the letter of universal time, or how far ahead of it
the time is. -/
def zone? (s : List Char) : Option (Option Int) :=
  let t := s.dropWhile fun c => c == ' ' || c == '\t'
  match t with
  | [] => if s.isEmpty then some none else none
  | ['Z'] => some (some 0)
  | sign :: rest =>
    if sign == '+' || sign == '-' then do
      let (hours, rest) ← number? 1 2 rest
      let minutes ← match rest with
        | [] => some 0
        | _ => do
          let rest ← after? ':' rest
          let (minutes, rest) ← number? 2 2 rest
          if rest.isEmpty then some minutes else none
      let ahead : Int := 60 * hours + minutes
      pure (some (if sign == '-' then -ahead else ahead))
    else none

/-- A time of day behind its date, to the end of a text. -/
def timeOfDay? (s : List Char) : Option TimeOfDay := do
  let s ← match s with
    | c :: rest =>
      if c == 'T' || c == 't' then some rest
      else if c == ' ' || c == '\t' then some (rest.dropWhile fun c => c == ' ' || c == '\t')
      else none
    | [] => none
  let (hour, s) ← number? 1 2 s
  let s ← after? ':' s
  let (minute, s) ← number? 2 2 s
  let s ← after? ':' s
  let (second, s) ← number? 2 2 s
  let (fraction, s) := match s with
    | '.' :: rest => (rest.takeWhile isAsciiDigit, rest.dropWhile isAsciiDigit)
    | _ => ([], s)
  let ahead ← zone? s
  pure ⟨hour, minute, second, microseconds fraction, ahead⟩

/-- A date, or a date and a time; without one, month and day have two digits. -/
def moment? (s : List Char) : Option Moment := do
  let (year, rest) ← number? 4 4 s
  let rest ← after? '-' rest
  let (month, rest) ← number? 1 2 rest
  let rest ← after? '-' rest
  let (day, rest) ← number? 1 2 rest
  if rest.isEmpty then
    if s.length = 10 then some ⟨year, month, day, none⟩ else none
  else do
    let time ← timeOfDay? rest
    pure ⟨year, month, day, some time⟩

/-! ## Types -/

/-- **The type a text asks for**, if it is not a text. -/
def typeOf? (text : String) : Option ScalarType :=
  let s := text.toList
  if isBoolean s then some .bool
  else if isFloat s then some .float
  else if isInt s then some .int
  else if s == ['<', '<'] then some .merge
  else if isNull s then some .null
  else if (moment? s).isSome then some .timestamp
  else if s == ['='] then some .value
  else none

/-! ## Values -/

/-- The value of a digit in some base of at most thirty-six. -/
def digitIn? (base : Nat) (c : Char) : Option Nat :=
  let value := if isAsciiDigit c then c.toNat - 48
    else if isAsciiLetter c then (asciiLowerChar c).toNat - 87
    else base
  if value < base then some value else none

/-- A text of digits in some base. -/
def naturalInBase (base : Nat) (s : List Char) : Except Fault Nat :=
  match s.mapM (digitIn? base) with
  | some (d :: ds) => .ok ((d :: ds).foldl (fun n d => base * n + d) 0)
  | _ => .error (.notInBase base (String.ofList s))

/-- A text of decimal digits. -/
def decimalInt (s : List Char) : Except Fault Int :=
  (readInt (String.ofList s)).mapError .number

/-- The integer of a text without its sign. -/
def unsignedInt (s : List Char) : Except Fault Int :=
  match s with
  | ['0'] => .ok 0
  | '0' :: 'b' :: rest => (naturalInBase 2 rest).map Int.ofNat
  | '0' :: 'x' :: rest => (naturalInBase 16 rest).map Int.ofNat
  | '0' :: _ => (naturalInBase 8 s).map Int.ofNat
  | _ =>
    if s.contains ':' then do
      let parts ← (cutAt ':' s).mapM decimalInt
      pure (parts.foldl (fun n d => 60 * n + d) 0)
    else decimalInt s

/-- **The integer of a text.**  Underscores do not count. -/
def intOf (text : String) : Except Fault Int :=
  let s := text.toList.filter (· != '_')
  if s.isEmpty then .error .noDigits
  else
    let (negative, body) := splitSign s
    (unsignedInt body).map fun n => if negative then -n else n

/-- A text as a floating-point number. -/
def decimalFloat (s : List Char) : Except Fault Binary64 :=
  (readFloat (String.ofList s)).mapError .number

/-- The number whose parts in base sixty are given, the last one first. -/
def sexagesimalFloat (parts : List Binary64) : Binary64 :=
  (parts.foldl (fun (sum, base) d =>
    (sum.add (d.mul (Binary64.ofInt base)), 60 * base)) (Binary64.ofInt 0, (1 : Int))).1

/-- **The floating-point number of a text.**  Underscores do not count. -/
def floatOf (text : String) : Except Fault Binary64 :=
  let s := (lowerText (String.ofList (text.toList.filter (· != '_')))).toList
  if s.isEmpty then .error .noDigits
  else
    let (negative, body) := splitSign s
    let signed (x : Binary64) : Binary64 := if negative then x.neg else x
    if body = ".inf".toList then .ok (.infinite negative)
    else if body = ".nan".toList then .ok .nan
    else if body.contains ':' then do
      let parts ← (cutAt ':' body).mapM decimalFloat
      pure (signed (sexagesimalFloat parts.reverse))
    else (decimalFloat body).map signed

/-- The truth value of a word. -/
def booleanOf (text : String) : Except Fault Bool :=
  match booleanWords.lookup (lowerText text) with
  | some b => .ok b
  | none => .error (.unknownBoolean text)

/-- The value of a digit in base sixty-four. -/
def digit64? (c : Char) : Option Nat :=
  if 'A' ≤ c ∧ c ≤ 'Z' then some (c.toNat - 65)
  else if 'a' ≤ c ∧ c ≤ 'z' then some (c.toNat - 71)
  else if isAsciiDigit c then some (c.toNat + 4)
  else if c = '+' then some 62
  else if c = '/' then some 63
  else none

/-- The bytes of digits in base sixty-four, four of which make three bytes.  `filled` digits of a
group of four have been read, whose last bits are `bits`, and `pads` signs that fill a group up since;
other characters do not count. -/
def bytesFrom (filled bits pads : Nat) : List Char → Except Fault (List UInt8)
  | [] => if filled = 0 then .ok [] else invalid .malformedBytes
  | c :: rest =>
    if c = '=' then
      if filled < 2 then bytesFrom filled bits pads rest
      else if filled + pads + 1 ≥ 4 then .ok [] else bytesFrom filled bits (pads + 1) rest
    else match digit64? c with
      | none => bytesFrom filled bits pads rest
      | some n =>
        match filled with
        | 0 => bytesFrom 1 n 0 rest
        | 1 => (bytesFrom 2 (n % 16) 0 rest).map (UInt8.ofNat (4 * bits + n / 16) :: ·)
        | 2 => (bytesFrom 3 (n % 4) 0 rest).map (UInt8.ofNat (16 * bits + n / 4) :: ·)
        | _ => (bytesFrom 0 0 0 rest).map (UInt8.ofNat (64 * bits + n) :: ·)

/-- The bytes of a text of ASCII characters. -/
def bytesOf (text : String) : Except Fault (List UInt8) :=
  if text.toList.all fun c => c.toNat < 128 then bytesFrom 0 0 0 text.toList else invalid .malformedBytes

/-- The moment of a text that writes one. -/
def momentOf (text : String) : Except Fault Moment :=
  match moment? text.toList with
  | none => invalid (.unsuitableTag "timestamp")
  | some m =>
    match m.fault? with
    | some fault => .error (.moment fault)
    | none => .ok m

end SlotEdit.Yaml
