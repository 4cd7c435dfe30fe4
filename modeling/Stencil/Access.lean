/-
Access to the parts of values.

What can be asked of a value depends on its kind: a drop answers any
name, a table its keys, a sequence any integer position, and some
kinds also answer a few commands. Nothing here evaluates anything; the
parts of drops are found elsewhere.
-/
import Stencil.Operator

namespace Stencil

/-- The kinds of values, by what can be asked of them. -/
inductive Access
  /-- Any name. -/
  | drop
  /-- The keys it has. -/
  | table
  /-- Its size, though it has parts. -/
  | text
  /-- Any integer. -/
  | sequence
  /-- Nothing. -/
  | scalar
  deriving DecidableEq, Repr

namespace Access

/-- Whether parts of such a value are found by keys. -/
def isKeyed : Access → Bool
  | .drop | .table | .sequence => true
  | .text | .scalar => false

/-- Whether such a value takes any integer for a key. -/
def isPositional : Access → Bool
  | .sequence => true
  | _ => false

/-- Whether such a value answers a command. -/
def answers : Access → Command → Bool
  | .table, .size | .table, .first => true
  | .sequence, _ => true
  | .text, .size => true
  | _, _ => false

end Access

namespace Store

/-- What can be asked of a value. -/
def access (store : Store) (v : Value) : Access :=
  match v with
  | .text _ | .bytes _ => .text
  | .range .. => .sequence
  | v =>
    match store.object? v with
    | some (.drop _) => .drop
    | some (.table _) | some (.frozen _) => .table
    | some (.list _) | some (.tuple _) => .sequence
    | _ => .scalar

/-- The entries of a table, frozen or not. -/
def entries (store : Store) (v : Value) : List (Value × Value) :=
  match store.object? v with
  | some (.table entries) | some (.frozen entries) => entries
  | _ => []

/-- The value of a key among entries. -/
def entry? (store : Store) (entries : List (Value × Value)) (key : Value) :
    Option Value :=
  (entries.find? fun e => store.sameKey e.1 key).map Prod.snd

/-- Entries with the value of a key replaced, or with a new entry behind
them. The key that is there stays. -/
def setEntry (store : Store) (key value : Value) :
    List (Value × Value) → List (Value × Value)
  | [] => [(key, value)]
  | e :: rest =>
    if store.sameKey e.1 key then (e.1, value) :: rest
    else e :: store.setEntry key value rest

/-- Whether a value holds a key. A drop claims to hold them all. -/
def hasKey (store : Store) (v key : Value) : Bool :=
  match store.access v with
  | .drop => true
  | .table =>
    store.isHashable key && (store.entry? (store.entries v) key).isSome
  | _ => false

-- ========================================================== positions

/-- The position that an index means among that many items: from the
start, or from the end if it is negative. -/
def position? (length : Nat) (index : Int) : Option Nat :=
  let i := if index < 0 then index + length else index
  if 0 ≤ i && i < length then some i.toNat else none

/-- The items of a list or tuple. -/
def items (store : Store) (v : Value) : List Value :=
  match store.object? v with
  | some (.list items) | some (.tuple items) => items
  | _ => []

/-- The item at an index of a sequence, nil outside of it. -/
def item (store : Store) (v : Value) (index : Int) : Value :=
  match v with
  | .range first stop =>
    match position? (stop - first).toNat index with
    | some i => .int (first + i)
    | none => .nil
  | v =>
    let items := store.items v
    match position? items.length index with
    | some i => items[i]?.getD .nil
    | none => .nil

/-- The index that a key of a sequence is. -/
def index? : Value → Option Int
  | .int n => some n
  | .bool b => some (if b then 1 else 0)
  | _ => none

/-- The part of a value under a key, for all kinds but drops. -/
def fetch (store : Store) (v key : Value) : Except Failure Value :=
  match store.access v with
  | .table =>
    if store.isHashable key then
      .ok ((store.entry? (store.entries v) key).getD .nil)
    else .error .notSupported
  | .sequence =>
    match index? key with
    | some i => .ok (store.item v i)
    | none => .error .notSupported
  | _ => .error (.missingKey (store.datum key).display)

-- =========================================================== commands

/-- The size of a value, which is known to have one. -/
def sizeOf (store : Store) (v : Value) : Except Failure Value := do
  return .int ((← (store.datum v).length?).getD 0)

/-- The first item of a sequence, or the first entry of a table as a
new list of its key and value; nil where there is none. -/
def firstOf (store : Store) (v : Value) : Value × Store :=
  match store.access v with
  | .table =>
    match store.entries v with
    | (k, x) :: _ => store.alloc (.list [k, x])
    | [] => (.nil, store)
  | _ => (store.item v 0, store)

/-- What a value answers to a command, if it answers it at all. -/
def command? (store : Store) (v : Value) (command : Command) :
    Option (Except Failure Value × Store) :=
  if (store.access v).answers command then
    some <| match command with
      | .size => (store.sizeOf v, store)
      | .first =>
        let (x, store) := store.firstOf v
        (.ok x, store)
      | .last => (.ok (store.item v (-1)), store)
  else none

end Store
end Stencil
