/-
The world that evaluation acts on: the objects, the contexts that names
are looked up in, how often deferred values were called, and the journal.

An action of evaluation changes the world and either answers or fails.
What it did before it failed stays done.
-/
import Stencil.Datum.Text
import Stencil.Journal

namespace Stencil

/-- Where names are looked up: in the scopes, the innermost first, and
then in the environments in order. A strict context refuses names that
are in none of them. -/
structure Context where
  scopes : List Value
  environments : List Value
  strict : Bool
  deriving DecidableEq, Repr

/-- Everything that names are searched in, in order. -/
def Context.layers (c : Context) : List Value := c.scopes ++ c.environments

/-- The world. -/
structure World where
  store : Store
  contexts : Array Context
  calls : List (String × Nat)
  journal : Journal

/-- An action on the world. -/
abbrev Eval := ExceptT Failure (StateM World)

namespace World

/-- A world without anything in it. -/
def fresh (tracing : Bool) : World :=
  ⟨.empty, #[], [], .fresh tracing⟩

/-- The context of a number. -/
def context (w : World) (id : ContextId) : Context :=
  w.contexts[id]?.getD ⟨[], [], false⟩

/-- Counts a call of the deferred values of a label; labels that are new
come last. -/
def countCall (label : String) : List (String × Nat) → List (String × Nat)
  | [] => [(label, 1)]
  | (l, n) :: rest =>
    if l == label then (l, n + 1) :: rest
    else (l, n) :: countCall label rest

/-- All calls together. -/
def totalCalls (w : World) : Nat :=
  w.calls.foldl (fun n call => n + call.2) 0

end World

namespace Eval

/-- The objects as they are now. -/
def store : Eval Store := do return (← get).store

/-- A new object. -/
def alloc (o : Object) : Eval Value := do
  let (v, store) := (← get).store.alloc o
  modify fun w => { w with store := store }
  return v

/-- Puts an object in the place of another. -/
def put (id : ObjectId) (o : Object) : Eval Unit :=
  modify fun w => { w with store := w.store.put id o }

/-- A new context. Without a scope of its own it gets an empty one. -/
def newContext (scope : Option Value) (environments : List Value)
    (strict : Bool) : Eval ContextId := do
  let scope ← match scope with
    | some v => pure v
    | none => alloc (.table [])
  let id := (← get).contexts.size
  let context : Context := ⟨[scope], environments, strict⟩
  modify fun w => { w with contexts := w.contexts.push context }
  return id

/-- Changes a context. -/
def updateContext (id : ContextId) (f : Context → Context) : Eval Unit :=
  modify fun w => { w with contexts := w.contexts.modify id f }

/-- Counts a call of a deferred value. -/
def countCall (label : String) : Eval Unit :=
  modify fun w => { w with calls := World.countCall label w.calls }

/-- Tells a finer note of the objects as they are now, if it can be
written. -/
def note (message : Store → Except Failure String) : Eval Unit :=
  modify fun w =>
    { w with
      journal := w.journal.noteWritten fun _ => (message w.store).toOption }

/-- An outcome that was found without the world. -/
def ofExcept {α : Type} : Except Failure α → Eval α
  | .ok a => pure a
  | .error f => throw f

/-- The outcome of an action, which may be a failure, as an answer. -/
def attempt {α : Type} (action : Eval α) : Eval (Except Failure α) :=
  ExceptT.lift action.run

end Eval
end Stencil
