/-
Numerals: the texts that spell integers and floats.

Blanks may stand around a numeral, a sign right in front of it, and a
single underscore between two digits. The digits are those of any script.
An integer of more digits than the host converts is neither read nor
written.
-/
import Stencil.Text.Class
import Stencil.Number.Binary64

namespace Stencil.Numeral

open Text

/-- A character that may stand around a numeral: blank, and no separator
control. -/
def isPadding (c : Char) : Bool :=
  isBlank c && !(0x1c ≤ c.toNat && c.toNat ≤ 0x1f)

/-- A numeral without what stands around it. -/
def unpad (cs : List Char) : List Char :=
  ((cs.dropWhile isPadding).reverse.dropWhile isPadding).reverse

/-- The sign in front of a numeral, true for minus, and what follows. -/
def sign : List Char → Bool × List Char
  | '-' :: rest => (true, rest)
  | '+' :: rest => (false, rest)
  | cs => (false, cs)

/-- A text without its underscores, if each stands between two digits.
The flag says whether a digit stands in front. -/
def joinGroups : (afterDigit : Bool) → List Char → Option (List Char)
  | _, [] => some []
  | afterDigit, '_' :: rest =>
    match rest with
    | d :: _ =>
      if afterDigit && isDigit d then joinGroups false rest else none
    | [] => none
  | _, c :: rest => (joinGroups (isDigit c) rest).map (c :: ·)

/-- A nonempty row of digits and nothing else. -/
def isDigits (cs : List Char) : Bool := !cs.isEmpty && cs.all isDigit

/-- An integer with the given sign. -/
def signed (negative : Bool) (n : Nat) : Int := if negative then -n else n

-- =========================================================== integers

/-- The most digits that an integer is read from or written with. Leading
zeros count; a sign and underscores do not. -/
def maxDigits : Nat := 4300

/-- The integer that a text spells. -/
def integer? (cs : List Char) : Option Int :=
  let (negative, body) := sign (unpad cs)
  match joinGroups false body with
  | some digits =>
    if isDigits digits && digits.length ≤ maxDigits then
      some (signed negative (digitsValue digits))
    else none
  | none => none

/-- Whether an integer can be written. -/
def isWritable (n : Int) : Bool :=
  (Nat.toDigits 10 n.natAbs).length ≤ maxDigits

-- ============================================================= floats

/-- A text in small letters, as far as the words for the special numbers
need it. -/
def lower (cs : List Char) : List Char := cs.map Char.toLower

/-- The special number that a word names. -/
def special? (negative : Bool) (cs : List Char) : Option Binary64 :=
  match String.ofList (lower cs) with
  | "inf" | "infinity" => some (.infinity negative)
  | "nan" => some .nan
  | _ => none

/-- The exponent at the end of a float: empty, or the letter `e`, a sign
and digits. -/
def exponent? : List Char → Option Int
  | [] => some 0
  | c :: rest =>
    if c == 'e' || c == 'E' then
      let (negative, digits) := sign rest
      if isDigits digits then some (signed negative (digitsValue digits))
      else none
    else none

/-- The digits after the point, if there is one, and the rest. -/
def fraction : List Char → List Char × List Char
  | '.' :: rest => (rest.takeWhile isDigit, rest.dropWhile isDigit)
  | cs => ([], cs)

/-- The float spelled by digits, a point, digits and an exponent; one of
the two rows of digits may be missing. -/
def decimal? (negative : Bool) (cs : List Char) : Option Binary64 :=
  let whole := cs.takeWhile isDigit
  let (part, rest) := fraction (cs.dropWhile isDigit)
  let digits := whole ++ part
  if digits.isEmpty then none
  else
    (exponent? rest).map fun e =>
      Binary64.ofDecimal negative (digitsValue digits) (e - part.length)

/-- The float that a text spells. -/
def float? (cs : List Char) : Option Binary64 :=
  match joinGroups false (unpad cs) with
  | some body =>
    let (negative, body) := sign body
    match special? negative body with
    | some x => some x
    | none => decimal? negative body
  | none => none

end Stencil.Numeral
