/-
Data: values spread out over their store.

A datum is the tree that a value unfolds to at one moment: containers
with their contents in place. Texts and the equality of keys are functions
of such trees. A container met again inside itself is a leaf: texts show it
so, and nothing that holds one can be a key. The leaf does not tell what the
container holds, so trees do not serve to compare data that contain
themselves. Values are compared in the store (`Store.equal`,
`Store.order?`), where such a comparison may go on without end.
-/
import Stencil.Store
import Stencil.Value.Order

namespace Stencil

/-- The kinds of containers. -/
inductive Shape
  | list
  | tuple
  | set
  | table
  | frozen
  deriving DecidableEq, Repr

/-- A value with its contents. Objects keep their places, which tell them
apart. The last kind stands for a container met inside itself: this is how
it shows in texts, and nothing that is compared. -/
inductive Datum
  | atom (value : Value)
  | list (id : ObjectId) (items : List Datum)
  | tuple (id : ObjectId) (items : List Datum)
  | set (id : ObjectId) (items : List Datum)
  | table (id : ObjectId) (entries : List (Datum × Datum))
  | frozen (id : ObjectId) (entries : List (Datum × Datum))
  | host (id : ObjectId) (value : Datum)
  | handle (id : ObjectId) (label : String)
  | drop (id : ObjectId) (label : String) (bound : Bool)
  | deferred (id : ObjectId) (label : String) (form : DeferredForm)
  | quoted (id : ObjectId) (expr : Expr)
  | again (id : ObjectId) (shape : Shape)

instance : Inhabited Datum := ⟨.atom .nil⟩

-- ========================================================== unfolding

namespace Store

/-- The shape of an object that is a container. -/
def shape? : Object → Option Shape
  | .list _ => some .list
  | .tuple _ => some .tuple
  | .set _ => some .set
  | .table _ => some .table
  | .frozen _ => some .frozen
  | _ => none

/-- The datum of an object, given the data of the values in it. -/
def datumOf (unfold : Value → Datum) (id : ObjectId) : Object → Datum
  | .list items => .list id (items.map unfold)
  | .tuple items => .tuple id (items.map unfold)
  | .set items => .set id (items.map unfold)
  | .table entries => .table id (entries.map fun e => (unfold e.1, unfold e.2))
  | .frozen entries =>
    .frozen id (entries.map fun e => (unfold e.1, unfold e.2))
  | .host value => .host id (unfold value)
  | .handle label => .handle id label
  | .drop d => .drop id d.label d.bound.isSome
  | .deferred d => .deferred id d.label d.form
  | .quoted expr => .quoted id expr

/-- Unfolds a value below the containers on the way to it. -/
def unfold (store : Store) : (depth : Nat) → (above : List ObjectId) →
    Value → Datum
  | 0, _, v => .atom v
  | depth + 1, above, .object id =>
    match store.get? id with
    | none => .atom (.object id)
    | some o =>
      match shape? o with
      | some shape =>
        if above.contains id then .again id shape
        else datumOf (store.unfold depth (id :: above)) id o
      | none => datumOf (store.unfold depth above) id o
  | _ + 1, _, v => .atom v

/-- The datum of a value. No way down meets more containers than there
are objects before it comes round. -/
def datum (store : Store) (v : Value) : Datum :=
  store.unfold (2 * store.size + 1) [] v

end Store

namespace Datum

/-- The place of an object. -/
def id? : Datum → Option ObjectId
  | .atom (.object id) => some id
  | .atom _ => none
  | .list id _ | .tuple id _ | .set id _ | .table id _ | .frozen id _
  | .host id _ | .handle id _ | .drop id _ _ | .deferred id _ _
  | .quoted id _ | .again id _ => some id

/-- Whether two data are one object. -/
def identical (a b : Datum) : Bool :=
  match a.id?, b.id? with
  | some i, some j => i == j
  | _, _ => false

mutual

/-- Whether a datum can be a key: everything can that never changes
inside. -/
def isHashable : Datum → Bool
  | .tuple _ items => allHashable items
  | .list .. | .set .. | .table .. | .frozen .. | .again .. => false
  | _ => true

/-- Whether all of the data can be keys. -/
def allHashable : List Datum → Bool
  | [] => true
  | d :: rest => isHashable d && allHashable rest

end

end Datum
end Stencil
