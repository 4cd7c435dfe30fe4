/-
The store: the objects behind values, each at its place.

Objects are added and never removed. Only lists and tables ever
change, and only in the slots they have.
-/
import Stencil.Expr

namespace Stencil

/-- The number of a rendering context. -/
abbrev ContextId := Nat

/-- What a deferred value does when it is forced. The code behind it is the
host's. It is taken to do one thing in each call, the same in all of them:
it yields, fails, or evaluates markup and passes on how that ends. Other
than through the markup it neither changes any data nor looks at the
context, its strictness included. -/
inductive Deed
  /-- It yields a value. -/
  | yield (value : Value)
  /-- It evaluates markup in the context that forces it. -/
  | read (markup : String)
  /-- It fails. -/
  | fail (message : String)
  deriving DecidableEq, Repr

/-- The form in which the host hands over a deferred value. All forms act
alike; error messages name them. -/
inductive DeferredForm
  /-- A function of its own. -/
  | function
  /-- A method of some object. -/
  | method
  /-- A function with its arguments put aside. -/
  | partialCall
  deriving DecidableEq, Repr

/-- A value that is computed on demand. Calls are counted per label. -/
structure Deferred where
  label : String
  form : DeferredForm
  deed : Deed
  deriving DecidableEq, Repr

/-- A member of a drop. This is the host's code, of which is taken what is
taken of deferred values: each call does one thing, with at most one reading
of markup whose failure is passed on, and nothing is done besides. -/
inductive Member
  /-- A method that answers with a value. -/
  | method (value : Value)
  /-- A property, which is called as well if its value can be. -/
  | property (value : Value)
  /-- A method that evaluates markup in the context of the drop. -/
  | reader (markup : String)
  /-- A method that answers with the drop. -/
  | itself
  /-- Plain data, which templates cannot reach. -/
  | data (value : Value)
  deriving DecidableEq, Repr

/-- A drop: a host object that answers names through its members, and
that knows the context it has been bound to. -/
structure Drop where
  label : String
  members : List (String × Member)
  bound : Option ContextId
  deriving DecidableEq, Repr

/-- An object of the store. Keys of tables are all different, and so
are the members of sets. -/
inductive Object
  /-- A list, whose slots can be changed. -/
  | list (items : List Value)
  /-- A table, which can be changed, in the order of its entries. -/
  | table (entries : List (Value × Value))
  /-- A table that cannot be changed. -/
  | frozen (entries : List (Value × Value))
  /-- A list that cannot be changed. -/
  | tuple (items : List Value)
  /-- A set. -/
  | set (items : List Value)
  /-- A host object that stands for another value in templates. -/
  | host (value : Value)
  /-- A host object that offers nothing but to be called. -/
  | handle (label : String)
  /-- A host object that answers names. -/
  | drop (drop : Drop)
  /-- A value that is computed on demand. -/
  | deferred (deferred : Deferred)
  /-- An expression that was put into the data as it is. -/
  | quoted (expr : Expr)
  deriving DecidableEq, Repr

/-- The objects, by their places. -/
structure Store where
  objects : Array Object
  deriving Repr

namespace Store

/-- The store without objects. -/
def empty : Store := ⟨#[]⟩

instance : Inhabited Store := ⟨empty⟩

/-- The number of objects. -/
def size (store : Store) : Nat := store.objects.size

/-- The object at a place. -/
def get? (store : Store) (id : ObjectId) : Option Object :=
  store.objects[id]?

/-- The object that a value refers to. -/
def object? (store : Store) : Value → Option Object
  | .object id => store.get? id
  | _ => none

/-- A new object, and the value that refers to it. -/
def alloc (store : Store) (o : Object) : Value × Store :=
  (.object store.size, ⟨store.objects.push o⟩)

/-- Puts an object in the place of another. -/
def put (store : Store) (id : ObjectId) (o : Object) : Store :=
  ⟨store.objects.setIfInBounds id o⟩

/-- The drop that a value is. -/
def drop? (store : Store) (v : Value) : Option Drop :=
  match store.object? v with
  | some (.drop d) => some d
  | _ => none

/-- The deferred value that a value is. -/
def deferred? (store : Store) (v : Value) : Option Deferred :=
  match store.object? v with
  | some (.deferred d) => some d
  | _ => none

theorem get?_alloc_old {store : Store} {id : ObjectId} (o : Object)
    (h : id < store.size) : (store.alloc o).2.get? id = store.get? id := by
  have hne : ¬id = store.objects.size := Nat.ne_of_lt h
  simp [get?, alloc, Array.getElem?_push, hne]

theorem object?_alloc (store : Store) (o : Object) :
    (store.alloc o).2.object? (store.alloc o).1 = some o := by
  simp [object?, alloc, get?, size]

theorem size_put (store : Store) (id : ObjectId) (o : Object) :
    (store.put id o).size = store.size := by
  simp [put, size]

theorem get?_put_of_ne {store : Store} {id other : ObjectId} (o : Object)
    (h : id ≠ other) : (store.put id o).get? other = store.get? other := by
  simp [put, get?, h]

end Store
end Stencil
