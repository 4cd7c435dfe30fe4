/-
Equality and order of scalars.

Truth values count as the integers zero and one here, and numbers of
different kinds compare by their exact values. Text orders by code
points, bytes by their numbers. No other scalars have an order.
-/
import Stencil.Value

namespace Stencil

/-- The four order relations. -/
inductive Direction
  | less
  | greater
  | lessEqual
  | greaterEqual
  deriving DecidableEq, Repr

namespace Direction

/-- Whether the relation holds of two things that compare as given. -/
def holds : Direction → Ordering → Bool
  | .less, o => o == .lt
  | .greater, o => o == .gt
  | .lessEqual, o => o != .gt
  | .greaterEqual, o => o != .lt

/-- The relation of two quantities. It holds of nothing that is not a
number. -/
def ofQuantities : Direction → Quantity → Quantity → Bool
  | .less, p, q => p.less q
  | .greater, p, q => q.less p
  | .lessEqual, p, q => p.lessEqual q
  | .greaterEqual, p, q => q.lessEqual p

/-- The relation with its sides exchanged. -/
def flip : Direction → Direction
  | .less => .greater
  | .greater => .less
  | .lessEqual => .greaterEqual
  | .greaterEqual => .lessEqual

theorem ofQuantities_flip (d : Direction) (p q : Quantity) :
    d.flip.ofQuantities q p = d.ofQuantities p q := by
  cases d <;> rfl

end Direction

/-- The order of sequences by their first difference; a sequence comes
after those it begins with. -/
def lexOrder : List Nat → List Nat → Ordering
  | [], [] => .eq
  | [], _ :: _ => .lt
  | _ :: _, [] => .gt
  | a :: as, b :: bs =>
    if a < b then .lt else if b < a then .gt else lexOrder as bs

/-- The code points of a text. -/
def codePoints (s : String) : List Nat := s.toList.map Char.toNat

namespace Value

/-- The number that a value counts as. -/
def quantity? : Value → Option Quantity
  | .bool b => some (.ofInt (if b then 1 else 0))
  | .int n => some (.ofInt n)
  | .float x => some (.ofFloat x)
  | _ => none

/-- Two ranges are equal when they hold the same integers, so all empty
ones are. -/
def equalRanges (first stop first2 stop2 : Int) : Bool :=
  (stop ≤ first && stop2 ≤ first2) || (first == first2 && stop == stop2)

/-- Equality of two values that are not numbers; objects are equal when
they are the same object. -/
def equalPlain : Value → Value → Bool
  | .nil, .nil => true
  | .text s, .text t => s == t
  | .bytes s, .bytes t => s == t
  | .range a b, .range c d => equalRanges a b c d
  | .probe p, .probe q => p == q
  | .object i, .object j => i == j
  | _, _ => false

/-- Equality of scalars, and identity of objects. -/
def equal (a b : Value) : Bool :=
  match a.quantity?, b.quantity? with
  | some p, some q => p.equal q
  | _, _ => a.equalPlain b

/-- The order of two values that are not numbers, if they have one. -/
def orderPlain? (d : Direction) : Value → Value → Option Bool
  | .text s, .text t => some (d.holds (lexOrder (codePoints s) (codePoints t)))
  | .bytes s, .bytes t =>
    some (d.holds (lexOrder (s.map UInt8.toNat) (t.map UInt8.toNat)))
  | _, _ => none

/-- The order of scalars, if they have one. -/
def order? (d : Direction) (a b : Value) : Option Bool :=
  match a.quantity?, b.quantity? with
  | some p, some q => some (d.ofQuantities p q)
  | _, _ => orderPlain? d a b

end Value
end Stencil
