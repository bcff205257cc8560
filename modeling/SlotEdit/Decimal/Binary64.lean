/-!
# Decimal/Binary64 — numbers of fifty-three bits

A `Binary64` is a signed significand times a power of two, an infinity or no number at all.
`ofRatio` rounds a quotient to the nearest one, a half to the even neighbour; all arithmetic is
exact on natural numbers, so every statement about it is one about `Nat`.
-/

namespace SlotEdit

-- Powers are those of the core library, whatever else is in scope.
local instance (priority := 10000) Binary64.corePow : Pow Nat Nat := instPowNat

/-- A floating-point number: `significand · 2 ^ exponent` with a sign, an infinity, or not a
number.  Values built by this module keep the significand below `2 ^ 53` and, unless the exponent
is the least one, at or above `2 ^ 52`. -/
inductive Binary64
  | finite (negative : Bool) (significand : Nat) (exponent : Int)
  | infinite (negative : Bool)
  | nan
deriving DecidableEq, Repr, Inhabited

namespace Binary64

/-- The exponent of the smallest positive number. -/
def leastExponent : Int := -1074

/-- The greatest exponent of a finite number. -/
def greatestExponent : Int := 971

/-- `num / den` rounded to the nearest integer, a half to the even one. -/
def roundQuotient (num den : Nat) : Nat :=
  let q := num / den
  let twice := 2 * (num % den)
  if twice < den then q else if twice > den then q + 1 else q + q % 2

/-- The numerator and denominator of `num / den · 2 ^ (-e)`. -/
def scaleByPow (base num den : Nat) (e : Int) : Nat × Nat :=
  if 0 ≤ e then (num, den * base ^ e.toNat) else (num * base ^ (-e).toNat, den)

/-- The integer part of the binary logarithm of `num / den`. -/
def floorLog2 (num den : Nat) : Int :=
  let guess : Int := (num.log2 : Int) - den.log2
  let (n, d) := scaleByPow 2 num den guess
  if n < d then guess - 1 else guess

/-- **The nearest number to `num / den`**, a half to the even significand. -/
def ofRatio (negative : Bool) (num den : Nat) : Binary64 :=
  if num = 0 then .finite negative 0 leastExponent
  else
    let e := max (floorLog2 num den - 52) leastExponent
    let (n, d) := scaleByPow 2 num den e
    let q := roundQuotient n d
    let (m, e) := if q = 2 ^ (53 : Nat) then (2 ^ (52 : Nat), e + 1) else (q, e)
    if e > greatestExponent then .infinite negative else .finite negative m e

/-- The nearest number to `digits · 10 ^ exponent`.  Exponents far outside the range are answered
without building the power. -/
def ofDecimal (negative : Bool) (digits : Nat) (exponent : Int) : Binary64 :=
  if digits = 0 then .finite negative 0 leastExponent
  else
    let size : Int := digits.log2
    if exponent < 0 ∧ size + 3 * exponent < -1200 then
      .finite negative 0 leastExponent
    else if exponent > 400 then .infinite negative
    else if 0 ≤ exponent then ofRatio negative (digits * 10 ^ exponent.toNat) 1
    else ofRatio negative digits (10 ^ (-exponent).toNat)

/-- The exact value as a signed numerator and a denominator, when it is a number. -/
def toRatio? : Binary64 → Option (Int × Nat)
  | .finite negative m e =>
    let signed : Int := if negative then -(m : Int) else m
    some (if 0 ≤ e then (signed * (2 ^ e.toNat : Nat), 1) else (signed, 2 ^ (-e).toNat))
  | _ => none

/-- The nearest number to an integer. -/
def ofInt (n : Int) : Binary64 := ofRatio (n < 0) n.natAbs 1

/-- The number of the other sign. -/
def neg : Binary64 → Binary64
  | .finite s m e => .finite (!s) m e
  | .infinite s => .infinite (!s)
  | .nan => .nan

/-- The nearest number to a signed quotient. -/
def ofSigned (num : Int) (den : Nat) : Binary64 := ofRatio (num < 0) num.natAbs den

/-- The sum of two finite numbers, rounded. -/
def add (x y : Binary64) : Binary64 :=
  match x.toRatio?, y.toRatio? with
  | some (a, b), some (c, d) => ofSigned (a * d + c * b) (b * d)
  | _, _ => .nan

/-- The product of two finite numbers, rounded. -/
def mul (x y : Binary64) : Binary64 :=
  match x.toRatio?, y.toRatio? with
  | some (a, b), some (c, d) => ofSigned (a * c) (b * d)
  | _, _ => .nan

/-- The integer part of a number, cut toward zero. -/
def truncate? (x : Binary64) : Option Int := x.toRatio?.map fun (n, d) => n.tdiv d

end Binary64

end SlotEdit
