/-
The comparison operators.

Equality with a probe asks the probe. A truth value equals only itself,
and is no number here. Nil, truth values, tables and probes have no
order, so ordering them is false; two values that should have an order
and do not are an error. Nothing is contained in nil and false, nor are
they in anything.
-/
import Stencil.Comparison
import Stencil.Datum.Text

namespace Stencil

/-- The comparison operators. Two of them deny equality. -/
inductive Operator
  | equal
  | unequal
  | lessOrGreater
  | order (direction : Direction)
  | contains
  deriving DecidableEq, Repr

namespace Operator

/-- All operators, with their spelling. -/
def spellings : List (String × Operator) :=
  [("==", .equal), ("!=", .unequal), ("<>", .lessOrGreater),
    ("<", .order .less), (">", .order .greater),
    ("<=", .order .lessEqual), (">=", .order .greaterEqual),
    ("contains", .contains)]

/-- The operator that a text spells. -/
def ofText? (text : String) : Option Operator := spellings.lookup text

/-- The spelling of an operator. -/
def text : Operator → String
  | .equal => "=="
  | .unequal => "!="
  | .lessOrGreater => "<>"
  | .order .less => "<"
  | .order .greater => ">"
  | .order .lessEqual => "<="
  | .order .greaterEqual => ">="
  | .contains => "contains"

theorem ofText?_text (op : Operator) : ofText? op.text = some op := by
  cases op with
  | order d => cases d <;> rfl
  | _ => rfl

end Operator

-- ============================================================= length

/-- The most items a sequence can count. -/
def maxLength : Int := Nat.pow 2 63 - 1

/-- How many integers a range holds. -/
def rangeLength (first stop : Int) : Except Failure Nat :=
  if stop - first > maxLength then .error .tooLongToMeasure
  else .ok (stop - first).toNat

namespace Datum

/-- The length of text, bytes, ranges and containers. -/
def length? : Datum → Except Failure (Option Nat)
  | .atom (.text s) => .ok (some s.length)
  | .atom (.bytes bs) => .ok (some bs.length)
  | .atom (.range first stop) => (rangeLength first stop).map some
  | .list _ items | .tuple _ items | .set _ items => .ok (some items.length)
  | .table _ entries | .frozen _ entries => .ok (some entries.length)
  | _ => .ok none

end Datum

-- ============================================================= probes

namespace Probe

/-- What a probe says of a datum. Whether something is empty makes sense
only for what has a length; blank are also nil, false and text of blanks,
and nothing else without a length. -/
def test : Probe → Datum → Except Failure (Option Bool)
  | .empty, d => do return (← d.length?).map (· == 0)
  | .blank, .atom .nil => .ok (some true)
  | .blank, .atom (.bool b) => .ok (some !b)
  | .blank, .atom (.text s) => .ok (some (s.toList.all Text.isBlank))
  | .blank, d => do return some ((← d.length?) == some 0)

/-- The probe of a word. -/
def ofWord? : String → Except Failure Probe
  | "empty" => .ok .empty
  | "blank" => .ok .blank
  | name => .error (.unknownProbe name)

end Probe

namespace Store

-- =========================================================== equality

/-- Equality as conditions ask for it; a probe may have no answer. -/
def isEqual? (store : Store) : Value → Value → Except Failure (Option Bool)
  | .probe p, b => p.test (store.datum b)
  | a, .probe p => p.test (store.datum a)
  | .bool a, .bool b => .ok (some (a == b))
  | .bool _, _ | _, .bool _ => .ok (some false)
  | a, b => (store.equal a b).map some

end Store

namespace Datum

-- ============================================================== order

/-- Nil, truth values, tables and probes are never ordered. -/
def isOrderable : Datum → Bool
  | .atom .nil | .atom (.bool _) | .atom (.probe _) => false
  | .table .. | .frozen .. | .again _ .table | .again _ .frozen => false
  | _ => true

/-- What a datum is called when it cannot be compared. -/
def typeName : Datum → String
  | .atom .nil => "NoneType"
  | .atom (.bool _) => "bool"
  | .atom (.int _) => "int"
  | .atom (.float _) => "float"
  | .atom (.text _) => "str"
  | .atom (.bytes _) => "bytes"
  | .atom (.range ..) => "range"
  | .atom (.probe _) => "MethodLiteral"
  | .atom (.object _) => "object"
  | .list .. | .again _ .list => "list"
  | .tuple .. | .again _ .tuple => "tuple"
  | .set .. | .again _ .set => "set"
  | .table .. | .again _ .table => "dict"
  | .frozen .. | .again _ .frozen => "mappingproxy"
  | .host .. => "HostValue"
  | .handle .. => "Opaque"
  | .drop .. => "HostDrop"
  | .deferred _ _ .function => "function"
  | .deferred _ _ .method => "method"
  | .deferred _ _ .partialCall => "partial"
  | .quoted _ (.range ..) => "RangeLookup"
  | .quoted .. => "VariableLookup"

end Datum

/-- Order as conditions ask for it. -/
def Store.isOrdered (store : Store) (d : Direction) (a b : Value) :
    Except Failure Bool := do
  let x := store.datum a
  let y := store.datum b
  if x.isOrderable && y.isOrderable then
    match ← store.order? d a b with
    | some answer => return answer
    | none => throw (.incomparable x.typeName y.typeName)
  else return false

-- ======================================================== containment

/-- Whether a list stands somewhere inside another, unbroken. -/
def occursIn {α : Type} [BEq α] (part : List α) : List α → Bool
  | [] => part.isEmpty
  | x :: xs => part.isPrefixOf (x :: xs) || occursIn part xs

/-- The integer that a value of any kind of number is as a member of a
range. -/
def Value.integral? : Value → Option Int
  | .int n => some n
  | .bool b => some (if b then 1 else 0)
  | .float x => x.integral?
  | _ => none

/-- Whether bytes hold a byte, given by its number, or other bytes. -/
def bytesContain (bs : List UInt8) : Value → Except Failure Bool
  | .bytes part => .ok (occursIn part bs)
  | .int n =>
    if 0 ≤ n && n ≤ 255 then .ok (bs.any fun b => (b.toNat : Int) == n)
    else .error (.byteOutOfRange n)
  | .bool b => .ok (bs.contains (if b then 1 else 0))
  | _ => .ok false

namespace Store

/-- Whether a value is among keys or members, which only a hashable one
can be. -/
def isAmong (store : Store) (v : Value) (keys : List Value) : Bool :=
  store.isHashable v && keys.any (store.sameKey v)

/-- Whether a container holds a value: a key, a member, or a part. Text
holds what the value writes into the output. -/
def holds (store : Store) (a b : Value) : Except Failure Bool :=
  match a with
  | .text s => do return occursIn (← store.output b).toList s.toList
  | .bytes bs => bytesContain bs b
  | .range first stop =>
    match b.integral? with
    | some n => .ok (first ≤ n && n < stop)
    | none => .ok false
  | a =>
    match store.object? a with
    | some (.list items) | some (.tuple items) =>
      items.anyM fun x => store.same x b
    | some (.set items) => .ok (store.isAmong b items)
    | some (.table entries) | some (.frozen entries) =>
      .ok (store.isAmong b (entries.map Prod.fst))
    | _ => .ok false

end Store

-- ========================================================== operators

namespace Operator

/-- What an operator says of two values. -/
def apply (store : Store) : Operator → Value → Value →
    Except Failure (Option Bool)
  | .equal, a, b => store.isEqual? a b
  | .unequal, a, b | .lessOrGreater, a, b => do
    return some ((← store.isEqual? a b) != some true)
  | .order d, a, b => (store.isOrdered d a b).map some
  | .contains, a, b =>
    if a.isTruthy && b.isTruthy then (store.holds a b).map some
    else .ok (some false)

end Operator
end Stencil
