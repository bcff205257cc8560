import SlotEdit.Decimal.Binary64

/-!
# Decimal/Shortest — the fewest digits that read back

`shortest` finds, for a positive significand and exponent, the decimal number with the fewest
digits that rounds to them; of two such it takes the nearer, and of two as near the even one.

`Binary64.render` lays those digits out: positional while the exponent stays within
`positional`, with a fraction always, and with an exponent of at least two digits otherwise.
`renderInt?` writes an integer unless it has more digits than `digitLimit`.
-/

namespace SlotEdit

-- Powers are those of the core library, whatever else is in scope.
local instance (priority := 10000) Shortest.corePow : Pow Nat Nat := instPowNat

/-- A decimal number: the digits of `digits` with the point after the first one, times ten to
`exponent`. -/
structure Scientific where
  digits : Nat
  exponent : Int
deriving DecidableEq, Repr

namespace Binary64

/-- How many decimal digits a number is written with. -/
def digitCount (n : Nat) : Nat := (Nat.toDigits 10 n).length

/-- The integer part of the decimal logarithm of `num / den`. -/
def floorLog10 (num den : Nat) : Int :=
  if den ≤ num then (digitCount (num / den) : Int) - 1
  else -(digitCount ((den + num - 1) / num - 1) : Int)

/-- The quotient `num / den`, with the numerators of the ends of the interval of numbers that
round to it, over the common denominator `den`, and whether the ends belong to it. -/
structure Rounding where
  low : Nat
  value : Nat
  high : Nat
  den : Nat
  closed : Bool

/-- The interval of the numbers that round to `significand · 2 ^ exponent`: half a unit to either
side, a quarter below a power of two. -/
def rounding (significand : Nat) (exponent : Int) : Rounding :=
  let below := if significand = 2 ^ (52 : Nat) ∧ exponent > leastExponent then 1 else 2
  let scale (n : Nat) : Nat := if 0 ≤ exponent then n * 2 ^ exponent.toNat else n
  ⟨scale (4 * significand - below), scale (4 * significand), scale (4 * significand + 2),
    if 0 ≤ exponent then 4 else 4 * 2 ^ (-exponent).toNat, significand % 2 = 0⟩

/-- A decimal `candidate · 10 ^ shift` lies in the interval. -/
def Rounding.holds (r : Rounding) (candidate : Nat) (shift : Int) : Bool :=
  let (n, d) := scaleByPow 10 candidate 1 (-shift)
  if r.closed then r.low * d ≤ n * r.den ∧ n * r.den ≤ r.high * d
  else r.low * d < n * r.den ∧ n * r.den < r.high * d

/-- The neighbour with `count` digits, below or above, that reads back; the nearer of two. -/
def neighbour? (r : Rounding) (log10 : Int) (count : Nat) : Option Scientific :=
  let shift := log10 - (count : Int) + 1
  let (n, d) := scaleByPow 10 r.value r.den shift
  let below := n / d
  let twice := 2 * (n % d)
  let up := (below + 1, r.holds (below + 1) shift)
  let down := (below, r.holds below shift)
  let pick : Option Nat :=
    match down.2, up.2 with
    | false, false => none
    | true, false => some down.1
    | false, true => some up.1
    | true, true =>
      some (if twice < d then down.1 else if twice > d then up.1 else below + below % 2)
  pick.map fun digits =>
    if digits = 10 ^ count then ⟨1, log10 + 1⟩ else ⟨digits, log10⟩

/-- **The shortest decimal that reads back**, for a significand that is not zero: the first count
of digits, from one to seventeen, with a neighbour that does. -/
def shortest (significand : Nat) (exponent : Int) : Scientific :=
  let r := rounding significand exponent
  let log10 := floorLog10 r.value r.den
  (((List.range 17).findSome? fun k => neighbour? r log10 (k + 1))).getD ⟨0, 0⟩

end Binary64

/-! ## How numbers are written -/

-- Powers are those of the core library, whatever else is in scope.
local instance (priority := 10000) Layout.corePow : Pow Nat Nat := instPowNat

/-- The most decimal digits an integer is read or written with. -/
def digitLimit : Nat := 4300

/-- The decimal text of a natural number. -/
def natText (n : Nat) : List Char := Nat.toDigits 10 n

/-- The decimal text of an integer. -/
def intText : Int → List Char
  | .ofNat n => natText n
  | .negSucc n => '-' :: natText (n + 1)

/-- The decimal text of an integer of at most `digitLimit` digits. -/
def renderInt? (n : Int) : Option String :=
  if n.natAbs < 10 ^ digitLimit then some (String.ofList (intText n)) else none

namespace Scientific

/-- Exponents written without one: at least `-4` and below `16`. -/
def isPositional (s : Scientific) : Bool := -4 ≤ s.exponent ∧ s.exponent < 16

/-- Digits with the point after the first `places` of them, zeros filled in on either side and at
least one digit after the point. -/
def pointed (digits : List Char) (places : Int) : List Char :=
  if places ≤ 0 then '0' :: '.' :: List.replicate (-places).toNat '0' ++ digits
  else
    let whole := digits.take places.toNat ++ List.replicate (places.toNat - digits.length) '0'
    let fraction := digits.drop places.toNat
    whole ++ '.' :: if fraction.isEmpty then ['0'] else fraction

/-- The exponent after the letter `e`: a sign and at least two digits. -/
def exponentText (e : Int) : List Char :=
  let digits := natText e.natAbs
  'e' :: (if e < 0 then '-' else '+') :: List.replicate (2 - digits.length) '0' ++ digits

/-- The written form of a positive decimal number. -/
def chars (s : Scientific) : List Char :=
  let digits := natText s.digits
  if s.isPositional then pointed digits (s.exponent + 1)
  else
    let fraction := digits.drop 1
    digits.take 1 ++ (if fraction.isEmpty then [] else '.' :: fraction) ++ exponentText s.exponent

end Scientific

namespace Binary64

/-- The characters of a number: the shortest digits that read back. -/
def chars : Binary64 → List Char
  | .nan => ['n', 'a', 'n']
  | .infinite negative => (if negative then ['-'] else []) ++ ['i', 'n', 'f']
  | .finite negative m e =>
    (if negative then ['-'] else []) ++
      (if m = 0 then ['0', '.', '0'] else (shortest m e).chars)

/-- **The written form of a number.** -/
def render (x : Binary64) : String := String.ofList x.chars

/-- The digits of a number that is a whole one, without a fraction, as imaginary parts are
written; any other number is written as usual. -/
def renderWhole (x : Binary64) : String :=
  let cs := x.chars
  if cs.drop (cs.length - 2) = ['.', '0'] then String.ofList (cs.take (cs.length - 2))
  else String.ofList cs

end Binary64

end SlotEdit
