/-
Scopes: the changing part of a context.

The innermost scope takes new assignments. The outermost one stays as
long as the context does.
-/
import Stencil.Evaluation

namespace Stencil.Eval

/-- How many scopes a context has. -/
def depth (ctx : ContextId) : Eval Nat := do
  return ((← get).context ctx).scopes.length

/-- The innermost scope of a context. -/
def innermost (ctx : ContextId) : Eval Value := do
  return ((← get).context ctx).scopes.headD .nil

/-- Enters a scope, an empty one if none is given. -/
def enter (ctx : ContextId) (scope : Option Value) : Eval Unit := do
  let n ← depth ctx
  note fun _ => .ok ("Entering scope: " ++ toString n)
  let scope ← match scope with
    | some v => pure v
    | none => alloc (.table [])
  updateContext ctx fun c => { c with scopes := scope :: c.scopes }

/-- Leaves the innermost scope and answers it. The outermost scope cannot
be left. -/
def leave (ctx : ContextId) : Eval Value := do
  let n ← depth ctx
  if n ≤ 1 then throw .outermostScope
  else
    note fun _ => .ok ("Leaving scope: " ++ toString (n - 1))
    let scope ← innermost ctx
    updateContext ctx fun c => { c with scopes := c.scopes.tail }
    return scope

/-- Assigns a name in the innermost scope. -/
def assign (ctx : ContextId) (name v : Value) : Eval Unit := do
  let scope ← innermost ctx
  let store ← store
  match scope, store.object? scope with
  | .object id, some (.table entries) =>
    if store.isHashable name then
      put id (.table (store.setEntry name v entries))
    else throw .notSupported
  | _, _ => throw .notSupported

/-- Acts inside a scope, which the action is given, and leaves the
innermost scope afterwards, whether the action fails or not. -/
def within {α : Type} (ctx : ContextId) (scope : Option Value)
    (action : Value → Eval α) : Eval α := do
  enter ctx scope
  let inner ← innermost ctx
  let result ← attempt (action inner)
  let _ ← leave ctx
  ofExcept result

/-- Whether a layer of a context holds a name, which must be a possible
key. -/
def layerHolds (store : Store) (layer name : Value) : Except Failure Bool :=
  if store.access layer == .table && store.isHashable name then
    .ok (store.hasKey layer name)
  else .error .notSupported

/-- Whether one of the layers holds a name. -/
def anyHolds (store : Store) (name : Value) :
    List Value → Except Failure Bool
  | [] => .ok false
  | layer :: rest => do
    if ← layerHolds store layer name then return true
    else anyHolds store name rest

/-- Whether a context knows a name. -/
def knows (ctx : ContextId) (name : Value) : Eval Bool := do
  let w ← get
  ofExcept (anyHolds w.store name (w.context ctx).layers)

/-- Makes a context strict or lenient. -/
def setStrict (ctx : ContextId) (strict : Bool) : Eval Unit :=
  updateContext ctx fun c => { c with strict := strict }

end Stencil.Eval
