/-
Floating-point numbers in 64 bits, as exact values.

A finite number is a significand times a power of two. No arithmetic is
needed here: numbers are read from decimals, compared, cut down to
integers and printed, and all of that is exact integer arithmetic.
-/

namespace Stencil

/-- A number of the 64-bit binary format. A finite one is
`± significand · 2 ^ exponent`, where the significand has at most 53
bits and the exponent is the least that the format allows for it. -/
inductive Binary64
  | nan
  | infinity (negative : Bool)
  | finite (negative : Bool) (significand : Nat) (exponent : Int)
  deriving DecidableEq, Repr

namespace Binary64

/-- The least exponent of the format. -/
def minExponent : Int := -1074

/-- The greatest exponent of the format. -/
def maxExponent : Int := 971

/-- Zero, of either sign. -/
def zero (negative : Bool) : Binary64 := .finite negative 0 minExponent

-- =========================================================== rounding

/-- The integer nearest to a quotient; a half goes to the even one. -/
def roundQuotient (num den : Nat) : Nat :=
  let q := num / den
  let twice := 2 * (num % den)
  if twice < den then q
  else if twice > den then q + 1
  else if q % 2 == 0 then q else q + 1

/-- A quotient of naturals divided by a power of two, as a quotient of
naturals. -/
def unscale (num den : Nat) (exponent : Int) : Nat × Nat :=
  if exponent < 0 then (num * Nat.pow 2 (-exponent).toNat, den)
  else (num, den * Nat.pow 2 exponent.toNat)

/-- The exponent at which a positive quotient has a significand of 53
bits, or the least exponent where it would be smaller than that. -/
def exponentFor (num den : Nat) : Int :=
  let guess := max ((num.log2 : Int) - den.log2 - 53) minExponent
  let (n, d) := unscale num den guess
  if n / d < Nat.pow 2 53 then guess else guess + 1

/-- The number nearest to a quotient of naturals; a half goes to the even
significand, and beyond the greatest number lies infinity. -/
def ofQuotient (negative : Bool) (num den : Nat) : Binary64 :=
  if num == 0 then zero negative
  else
    let e := exponentFor num den
    let (n, d) := unscale num den e
    let m := roundQuotient n d
    let (m, e) :=
      if m == Nat.pow 2 53 then (Nat.pow 2 52, e + 1) else (m, e)
    if e > maxExponent then .infinity negative else .finite negative m e

/-- The number nearest to `digits · 10 ^ exponent`. Exponents far outside
the format need no arithmetic. -/
def ofDecimal (negative : Bool) (digits : Nat) (exponent : Int) : Binary64 :=
  if digits == 0 then zero negative
  else if exponent > 400 then .infinity negative
  else if exponent < -(400 + digits.log2) then zero negative
  else if exponent < 0 then
    ofQuotient negative digits (Nat.pow 10 (-exponent).toNat)
  else ofQuotient negative (digits * Nat.pow 10 exponent.toNat) 1

-- ============================================================= values

/-- The finite numbers are whole multiples of the smallest positive one;
this is the multiple. -/
def scaled? : Binary64 → Option Int
  | .finite negative m e =>
    let magnitude : Int := m * Nat.pow 2 (e - minExponent).toNat
    some (if negative then -magnitude else magnitude)
  | _ => none

/-- The multiple of the smallest positive number that one is. -/
def unity : Int := Nat.pow 2 1074

/-- The multiple of the smallest positive number that an integer is. -/
def scaleInt (n : Int) : Int := n * unity

/-- The integer that a number is, if it is one. -/
def integral? (x : Binary64) : Option Int :=
  match x.scaled? with
  | some s => if s % unity == 0 then some (s / unity) else none
  | none => none

/-- The integer left of a finite number without its fraction. -/
def truncate? (x : Binary64) : Option Int :=
  x.scaled?.map fun s => s.tdiv unity

end Binary64

-- ========================================================= quantities

/-- Where a number stands on the line of all numbers, in units of the
smallest positive float. Numbers that are equal in value, of whatever
kind, are one quantity. -/
inductive Quantity
  | nan
  | low
  | finite (units : Int)
  | high
  deriving DecidableEq, Repr

namespace Quantity

/-- The quantity of an integer. -/
def ofInt (n : Int) : Quantity := .finite (Binary64.scaleInt n)

/-- The quantity of a float. -/
def ofFloat (x : Binary64) : Quantity :=
  match x with
  | .nan => .nan
  | .infinity negative => if negative then .low else .high
  | .finite .. => .finite (x.scaled?.getD 0)

/-- Equal numbers: no number at all equals nothing, itself included. -/
def equal : Quantity → Quantity → Bool
  | .nan, _ => false
  | a, b => a == b

/-- The strict order of numbers; no number at all stands outside it. -/
def less : Quantity → Quantity → Bool
  | .low, .finite _ | .low, .high | .finite _, .high => true
  | .finite a, .finite b => a < b
  | _, _ => false

/-- Smaller or equal. -/
def lessEqual (a b : Quantity) : Bool := less a b || equal a b

end Quantity
end Stencil
