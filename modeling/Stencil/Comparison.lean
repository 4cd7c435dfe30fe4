/-
Comparison of values, where they are in their store.

Two lists are compared by their items, two tables by what they hold under
the same keys, and so on down to scalars. Inside containers an object
equals itself, and no closer look is taken at it. Values that contain
themselves may be compared without end. Only then does a comparison come
back to two objects that it is comparing already, so the number of pairs
of objects bounds how deep every other comparison goes.

Keys and members of sets are compared as data: what can be a key holds
nothing that could contain it.
-/
import Stencil.Datum.Equality
import Stencil.Failure

namespace Stencil

/-- Whether two values are one object. -/
def Value.identical : Value → Value → Bool
  | .object i, .object j => i == j
  | _, _ => false

/-- What is compared of two values that have something in common. -/
inductive Counterparts
  /-- The items of two lists. -/
  | lists (xs ys : List Value)
  /-- The items of two tuples. -/
  | tuples (xs ys : List Value)
  /-- The members of two sets. -/
  | sets (xs ys : List Value)
  /-- The entries of two tables. Those of the first one are looked for
  among the others. -/
  | tables (es fs : List (Value × Value))
  /-- Two expressions. -/
  | quotes (e f : Expr)

namespace Store

/-- What is compared of two values, if it is not the values as they are. On
the right side a frozen table takes the comparison over, with the sides
exchanged. -/
def counterparts? (store : Store) (v w : Value) : Option Counterparts :=
  match store.object? v, store.object? w with
  | some (.list xs), some (.list ys) => some (.lists xs ys)
  | some (.tuple xs), some (.tuple ys) => some (.tuples xs ys)
  | some (.set xs), some (.set ys) => some (.sets xs ys)
  | some (.table es), some (.table fs)
  | some (.frozen es), some (.table fs) => some (.tables es fs)
  | some (.table es), some (.frozen fs)
  | some (.frozen es), some (.frozen fs) => some (.tables fs es)
  | some (.quoted e), some (.quoted f) => some (.quotes e f)
  | _, _ => none

/-- Whether a value can be a key. -/
def isHashable (store : Store) (v : Value) : Bool :=
  (store.datum v).isHashable

/-- Whether two values count as one key. -/
def sameKey (store : Store) (a b : Value) : Bool :=
  (store.datum a).same (store.datum b)

/-- How deep a comparison goes at most, unless it has no end. -/
def comparisonDepth (store : Store) : Nat := store.size * store.size + 1

-- =========================================================== equality

/-- Equality inside containers, where an object equals itself, given
equality of values. -/
def inside (equal : Value → Value → Except Failure Bool) (v w : Value) :
    Except Failure Bool :=
  if v.identical w then .ok true else equal v w

/-- Equality of items, one after the other, up to the first that differ. -/
def equalItems (equal : Value → Value → Except Failure Bool) :
    List Value → List Value → Except Failure Bool
  | [], [] => .ok true
  | x :: xs, y :: ys => do
    if ← equal x y then equalItems equal xs ys else return false
  | _, _ => .ok false

/-- Whether every entry has an equal one among others, up to the first that
has none. The value found is the left side of the comparison. -/
def equalEntries (store : Store)
    (equal : Value → Value → Except Failure Bool) :
    List (Value × Value) → List (Value × Value) → Except Failure Bool
  | [], _ => .ok true
  | (k, v) :: rest, others => do
    let found ← others.anyM fun e =>
      if store.sameKey k e.1 then equal e.2 v else .ok false
    if found then equalEntries store equal rest others else return false

/-- Equality of two tables by their entries. -/
def equalTables (store : Store)
    (equal : Value → Value → Except Failure Bool)
    (xs ys : List (Value × Value)) : Except Failure Bool :=
  if xs.length == ys.length then store.equalEntries equal xs ys
  else .ok false

/-- Equality, down to the given depth. -/
def equalWithin (store : Store) :
    (depth : Nat) → Value → Value → Except Failure Bool
  | 0, _, _ => .error .tooDeep
  | depth + 1, v, w =>
    let inside := inside (store.equalWithin depth)
    match store.counterparts? v w with
    | some (.lists xs ys) =>
      if xs.length == ys.length then equalItems inside xs ys else .ok false
    | some (.tuples xs ys) => equalItems inside xs ys
    | some (.sets xs ys) =>
      .ok (xs.length == ys.length &&
        Datum.subset (xs.map store.datum) (ys.map store.datum))
    | some (.tables es fs) => store.equalTables inside es fs
    | some (.quotes e f) => .ok (e.same Value.equal f)
    | none => .ok (v.equal w)

/-- Equality. -/
def equal (store : Store) (v w : Value) : Except Failure Bool :=
  store.equalWithin store.comparisonDepth v w

/-- Equality of items and of the values in tables. -/
def same (store : Store) (v w : Value) : Except Failure Bool :=
  inside store.equal v w

-- ============================================================== order

/-- The order of items: that of the first that differ, or else that of
their numbers. -/
def orderItems (same : Value → Value → Except Failure Bool)
    (order? : Value → Value → Except Failure (Option Bool))
    (d : Direction) : List Value → List Value → Except Failure (Option Bool)
  | [], [] => .ok (some (d.holds .eq))
  | [], _ :: _ => .ok (some (d.holds .lt))
  | _ :: _, [] => .ok (some (d.holds .gt))
  | x :: xs, y :: ys => do
    if ← same x y then orderItems same order? d xs ys else order? x y

/-- The order of two values, if they have one, down to the given depth.
Lists order among lists and tuples among tuples, sets by inclusion, and
scalars as scalars do. -/
def orderWithin (store : Store) (d : Direction) :
    (depth : Nat) → Value → Value → Except Failure (Option Bool)
  | 0, _, _ => .error .tooDeep
  | depth + 1, v, w =>
    match store.counterparts? v w with
    | some (.lists xs ys) | some (.tuples xs ys) =>
      orderItems store.same (store.orderWithin d depth) d xs ys
    | some (.sets xs ys) =>
      .ok (some (Datum.orderSets d (xs.map store.datum)
        (ys.map store.datum)))
    | _ => .ok (v.order? d w)

/-- The order of two values, if they have one. -/
def order? (store : Store) (d : Direction) (v w : Value) :
    Except Failure (Option Bool) :=
  store.orderWithin d store.comparisonDepth v w

end Store
end Stencil
