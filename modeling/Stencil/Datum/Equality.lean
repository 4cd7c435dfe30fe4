/-
Equality of data that can be keys.

Scalars are equal by value, tuples by their items, and host objects only to
themselves. Inside tuples an object always equals itself. Containers that
can change are no keys and equal nothing here. Whole values, which may hold
such containers and even themselves, are compared in their store
(`Store.equal`).
-/
import Stencil.Datum

namespace Stencil.Datum

mutual

/-- Equality. -/
def equal : Datum → Datum → Bool
  | .atom v, .atom w => v.equal w
  | .tuple _ xs, .tuple _ ys => equalItems xs ys
  | .host i _, .host j _ => i == j
  | .handle i _, .handle j _ => i == j
  | .drop i _ _, .drop j _ _ => i == j
  | .deferred i _ _, .deferred j _ _ => i == j
  | .quoted _ e, .quoted _ f => e.same Value.equal f
  | _, _ => false

/-- Equality of tuples, item by item. -/
def equalItems : List Datum → List Datum → Bool
  | [], [] => true
  | x :: xs, y :: ys => (identical x y || equal x y) && equalItems xs ys
  | _, _ => false

end

/-- Whether two data count as one, as keys and as members of sets. -/
def same (a b : Datum) : Bool := identical a b || equal a b

/-- Whether every member of a set is among those of another. -/
def subset (xs ys : List Datum) : Bool := xs.all fun x => ys.any (same x)

/-- The order of sets by inclusion. -/
def orderSets (d : Direction) (xs ys : List Datum) : Bool :=
  match d with
  | .less => xs.length < ys.length && subset xs ys
  | .greater => ys.length < xs.length && subset ys xs
  | .lessEqual => xs.length ≤ ys.length && subset xs ys
  | .greaterEqual => ys.length ≤ xs.length && subset ys xs

end Stencil.Datum
