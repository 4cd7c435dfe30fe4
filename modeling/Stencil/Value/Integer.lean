/-
Values as integers: how the bounds of a range are found.

Integers are taken as they are, nil as zero, and floats without their
fraction. A text counts as the integer it starts with, or as zero when it
starts with none. Nothing else is an integer, not even a truth value.

A range with known bounds is a value already, one with an open bound waits
for the data.
-/
import Stencil.Expr
import Stencil.Failure

namespace Stencil

open Text

/-- The part of a text that may be an integer at its start: blanks, a
sign and digits. -/
def leadingInteger? (cs : List Char) : Option (List Char) :=
  let blanks := cs.takeWhile isBlank
  let body := cs.dropWhile isBlank
  let sign := match body with
    | c :: _ => if c == '-' || c == '+' then [c] else []
    | [] => []
  let digits := (body.drop sign.length).takeWhile isDigit
  if digits.isEmpty then none else some (blanks ++ sign ++ digits)

/-- The integer at the start of a text. The separator controls are blank,
yet no numeral may have them around it. -/
def integerOfText (cs : List Char) : Except Failure Int :=
  match leadingInteger? cs with
  | none => .ok 0
  | some start =>
    match Numeral.integer? start with
    | some n => .ok n
    | none => .error (.unreadableInteger (String.ofList start))

/-- The integer that a float is without its fraction. -/
def integerOfFloat (x : Binary64) : Except Failure Int :=
  match x with
  | .nan => .error .missingInteger
  | .infinity _ => .error .infiniteInteger
  | .finite .. => .ok (x.truncate?.getD 0)

/-- The integer that a value counts as, given how values show. -/
def Value.toInteger (display : Value → Except Failure String) :
    Value → Except Failure Int
  | .int n => .ok n
  | .nil => .ok 0
  | .float x => integerOfFloat x
  | .text s => integerOfText s.toList
  | v => do throw (.notAnInteger (← display v))

/-- The range between two values, the second included. -/
def Value.rangeBetween (display : Value → Except Failure String)
    (first last : Value) : Except Failure Value := do
  let first ← first.toInteger display
  let last ← last.toInteger display
  return .range first (last + 1)

/-- The range between two operands. -/
def Expr.between (display : Value → Except Failure String) :
    Expr → Expr → Except Failure Expr
  | .const first, .const last =>
    (Value.rangeBetween display first last).map .const
  | first, last => .ok (.range first last)

end Stencil
