/-
The shortest decimal of a float: the fewest digits that read back as the
same number, and of those the digits nearest to it.

For each count of digits the only candidates are the two neighbours of
the number on the grid of decimals with that many digits. Where both read
back and lie equally near, the even one is taken.
-/
import Stencil.Number.Binary64

namespace Stencil

/-- A positive decimal `digits · 10 ^ exponent`. -/
structure Decimal where
  digits : Nat
  exponent : Int
  deriving DecidableEq, Repr

namespace Binary64

/-- The value of a positive finite number as a quotient of naturals. -/
def quotient (significand : Nat) (exponent : Int) : Nat × Nat :=
  if exponent < 0 then (significand, Nat.pow 2 (-exponent).toNat)
  else (significand * Nat.pow 2 exponent.toNat, 1)

/-- A quotient of naturals in units of a power of ten. -/
def inUnits (num den : Nat) (unit : Int) : Nat × Nat :=
  if unit < 0 then (num * Nat.pow 10 (-unit).toNat, den)
  else (num, den * Nat.pow 10 unit.toNat)

/-- How many decimal digits a natural has; zero has one. -/
def digitCount (n : Nat) : Nat := (Nat.toDigits 10 n).length

/-- The power of ten of the first digit of a positive quotient. -/
def leadingPower (num den : Nat) : Int :=
  if den ≤ num then (digitCount (num / den) : Int) - 1
  else
    -- The least power of ten that lifts the quotient to one or more is
    -- found from the lengths, up to one.
    let guess := digitCount den - digitCount num
    if den ≤ num * Nat.pow 10 guess then -guess else -(guess + 1 : Int)

/-- The grid point with the given unit nearest to the number, among those
that read back as it. -/
def nearestOn (significand : Nat) (exponent : Int) (unit : Int) :
    Option Decimal :=
  let (num, den) := quotient significand exponent
  let (n, d) := inUnits num den unit
  let below := n / d
  let readsBack (k : Nat) : Bool :=
    ofDecimal false k unit == .finite false significand exponent
  let twice := 2 * (n % d)
  let lowFirst := twice < d || (twice == d && below % 2 == 0)
  let (first, second) :=
    if lowFirst then (below, below + 1) else (below + 1, below)
  if readsBack first then some ⟨first, unit⟩
  else if readsBack second then some ⟨second, unit⟩
  else none

/-- The shortest decimal of a positive number, looked for among those of
one digit, then two, and so on. Seventeen digits always read back, so the
search ends there. -/
def shortest? (significand : Nat) (exponent : Int) : Option Decimal :=
  let (num, den) := quotient significand exponent
  let leading := leadingPower num den
  (List.range' 1 17).findSome? fun (count : Nat) =>
    nearestOn significand exponent (leading - (count : Int) + 1)

end Binary64

-- ============================================================ layouts

/-- How a float is laid out: positionally while the power of ten of its
first digit is at least `positionalFrom` and below `scientificFrom`, and
with an exponent of at least `exponentWidth` digits elsewhere. A whole
number keeps a zero after the point when it is written positionally. -/
structure FloatLayout where
  positionalFrom : Int
  scientificFrom : Int
  exponentWidth : Nat
  deriving DecidableEq, Repr

namespace FloatLayout

/-- Digits with the point after the first `X + 1` of them, where `X` is
the power of ten of the first one; zeros fill the gap to the point. -/
def positional (digits : List Char) (leading : Int) : List Char :=
  if leading < 0 then
    '0' :: '.' :: List.replicate (-leading - 1).toNat '0' ++ digits
  else
    let whole := leading.toNat + 1
    if digits.length ≤ whole then
      digits ++ List.replicate (whole - digits.length) '0' ++ ['.', '0']
    else digits.take whole ++ '.' :: digits.drop whole

/-- Digits with the point after the first, and the power of ten. -/
def scientific (layout : FloatLayout) (digits : List Char)
    (leading : Int) : List Char :=
  let body := match digits with
    | d :: rest => if rest.isEmpty then [d] else d :: '.' :: rest
    | [] => []
  let power := Nat.toDigits 10 leading.natAbs
  let pad := List.replicate (layout.exponentWidth - power.length) '0'
  body ++ 'e' :: (if leading < 0 then '-' else '+') :: pad ++ power

/-- A positive decimal, without zeros at the end of its digits. -/
def decimal (layout : FloatLayout) (d : Decimal) : List Char :=
  let all := Nat.toDigits 10 d.digits
  let leading := d.exponent + all.length - 1
  let digits := (all.reverse.dropWhile (· == '0')).reverse
  if layout.positionalFrom ≤ leading && leading < layout.scientificFrom then
    positional digits leading
  else layout.scientific digits leading

/-- The shortest text that reads back as the number. -/
def print (layout : FloatLayout) : Binary64 → String
  | .nan => "nan"
  | .infinity negative => if negative then "-inf" else "inf"
  | .finite negative m e =>
    let body :=
      if m == 0 then ['0', '.', '0']
      else layout.decimal ((Binary64.shortest? m e).getD ⟨0, 0⟩)
    String.ofList (if negative then '-' :: body else body)

end FloatLayout
end Stencil
