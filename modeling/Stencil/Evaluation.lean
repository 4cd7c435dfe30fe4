/-
Evaluation of expressions in a context.

Names are looked up in the layers of the context, and the steps of a path
in the values found. A deferred value is forced when it is met, and the
table or list it stands in remembers the outcome. A drop is bound to
the context before anything is asked of it: binding makes a copy, so the
drop in the data stays as it is.

A deferred value or a member of a drop may read further markup. That is
the only way in which evaluation goes back to its start, and the budget
bounds how deeply it may do so.
-/
import Stencil.Access
import Stencil.Expr.Lenient
import Stencil.Markup.Notes
import Stencil.World

namespace Stencil

/-- How markup is evaluated in a context, from within an evaluation. -/
abbrev Reenter := ContextId → String → Eval Value

namespace Eval

-- ============================================================= forcing

/-- Forces a deferred value. The call is counted before it answers. -/
def force (reenter : Reenter) (ctx : ContextId) (d : Deferred) :
    Eval Value := do
  countCall d.label
  match d.deed with
  | .yield v => return v
  | .read markup => reenter ctx markup
  | .fail message => throw (.raised message)

/-- Calls a value without arguments, as far as that is possible: a handle
answers with its label, a deferred value must not need a context, and
nothing else can be called. -/
def call? (store : Store) (v : Value) : Option (Eval Value) :=
  match store.object? v with
  | some (.handle label) => some (return .text ("called:" ++ label))
  | some (.deferred d) =>
    match d.deed with
    | .read _ => some (throw .notSupported)
    | _ => some (force (fun _ _ => throw .notSupported) 0 d)
  | _ => none

-- =============================================================== drops

/-- The names that every drop has for itself. -/
def reservedNames : List String :=
  ["bind", "context", "invoke_drop", "missing"]

/-- Whether templates may ask for a name at all. -/
def isPublic (name : String) : Bool :=
  !"_".toList.isPrefixOf name.toList && !reservedNames.contains name

/-- The member of a drop that a key asks for. -/
def member? (d : Drop) : Value → Option Member
  | .text name =>
    if isPublic name then
      match d.members.lookup name with
      | some (.data _) => none
      | m => m
    else none
  | _ => none

/-- What a drop answers to a name that it has no member for. -/
def missing (d : Drop) (key : Value) : Eval Value := do
  let w ← get
  match d.bound with
  | some ctx =>
    if (w.context ctx).strict then
      throw (.undefinedMember (← ofExcept (w.store.print key)))
    else return .nil
  | none => return .nil

/-- What a member of a drop answers. A property that can be called is
called; a reader works only once the drop is bound. -/
def answer (reenter : Reenter) (self : Value) (d : Drop) :
    Member → Eval Value
  | .method v => return v
  | .property v => do
    match call? (← store) v with
    | some called => called
    | none => return v
  | .reader markup =>
    match d.bound with
    | some ctx => reenter ctx markup
    | none => throw .notSupported
  | .itself => return self
  | .data v => return v

/-- Whether a value may be asked for as a key: all that can be a key, and
sets, which no key equals. -/
def mayBeKey (store : Store) (key : Value) : Bool :=
  match store.object? key with
  | some (.set _) => true
  | _ => store.isHashable key

/-- What a drop answers to a key. -/
def ask (reenter : Reenter) (self : Value) (d : Drop) (key : Value) :
    Eval Value := do
  if mayBeKey (← store) key then
    match member? d key with
    | some m => answer reenter self d m
    | none => missing d key
  else throw .notSupported

/-- The name of the member by which a drop stands for another value. -/
def conversionName : String := "to_template_value"

/-- The value that a host object stands for in templates; all others
stand for themselves, and so does a drop whose conversion is no more than
an empty slot. -/
def toTemplateValue (reenter : Reenter) (v : Value) : Eval Value := do
  match (← store).object? v with
  | some (.host inner) => return inner
  | some (.drop d) =>
    match d.members.lookup conversionName with
    | none | some (.data .nil) => return v
    | some (.property x) | some (.data x) =>
      match call? (← store) x with
      | some called => called
      | none => throw .notSupported
    | some m => answer reenter v d m
  | _ => return v

/-- A drop bound to a context, as a copy unless it is bound to it
already; other values as they are. -/
def bind (ctx : ContextId) (v : Value) : Eval Value := do
  match (← store).object? v with
  | some (.drop d) =>
    if d.bound == some ctx then return v
    else alloc (.drop { d with bound := some ctx })
  | _ => return v

/-- A value as a template meets it. -/
def receive (reenter : Reenter) (ctx : ContextId) (v : Value) : Eval Value := do
  bind ctx (← toTemplateValue reenter v)

-- =============================================================== parts

/-- Puts a forced value in the slot of a table or list that it was
found in. Other objects remember nothing. -/
def remember (v key forced : Value) : Eval Unit := do
  let store ← store
  match v, store.object? v with
  | .object id, some (.table entries) =>
    put id (.table (store.setEntry key forced entries))
  | .object id, some (.list items) =>
    match (Store.index? key).bind (Store.position? items.length) with
    | some i => put id (.list (items.set i forced))
    | none => return ()
  | _, _ => return ()

/-- The part of a value under a key. -/
def part (reenter : Reenter) (v key : Value) : Eval Value := do
  let store ← store
  match store.drop? v with
  | some d => ask reenter v d key
  | none => ofExcept (store.fetch v key)

/-- The part of a value under a key, forced if it is deferred. -/
def forcedPart (reenter : Reenter) (ctx : ContextId) (v key : Value) :
    Eval Value := do
  let x ← part reenter v key
  match (← store).deferred? x with
  | none => return x
  | some d =>
    let forced ← force reenter ctx d
    note fun s => do
      return "Forced lazy value: " ++ (← s.print key) ++ " = " ++
        (← s.display forced)
    remember v key forced
    return forced

-- ============================================================== lookup

/-- The value of a name, as the layers of a context hold it. -/
def findVariable (reenter : Reenter) (ctx : ContextId) (name : Value) :
    Eval Value := do
  let w ← get
  match (w.context ctx).layers.find? fun v => w.store.hasKey v name with
  | some layer =>
    let v ← forcedPart reenter ctx layer name
    note fun s => do
      return "Got var: " ++ (← s.print name) ++ " = " ++ (← s.display v)
    receive reenter ctx v
  | none =>
    note fun s => do return "Var not found: " ++ (← s.print name)
    if (w.context ctx).strict then
      throw (.undefinedVariable (← ofExcept (w.store.print name)))
    else return .nil

/-- One step of a path from a value: the part under a key that is there
or is a position, else the answer to the command of the step. Where there
is neither, a strict context fails and another has no answer. -/
def stepFrom (reenter : Reenter) (ctx : ContextId) (whole : Path)
    (v key : Value) (command : Option Command) : Eval (Option Value) := do
  let store ← store
  let access := store.access v
  if access.isKeyed &&
      (store.hasKey v key || (access.isPositional && key.isIndex)) then
    return some (← receive reenter ctx (← forcedPart reenter ctx v key))
  else match command.bind (store.command? v) with
    | some (answer, store) =>
      modify fun w => { w with store := store }
      return some (← receive reenter ctx (← ofExcept answer))
    | none =>
      note fun s => do
        return "Lookup missed: " ++ (← s.exprText (.path whole)) ++ " at " ++
          (← s.display key)
      if ((← get).context ctx).strict then
        throw (.undefinedVariable (← ofExcept (store.print key)))
      else return none

mutual

/-- Evaluates an expression. -/
def expr (reenter : Reenter) (ctx : ContextId) : Expr → Eval Value
  | .const v => return v
  | .path p => do
    match ← path reenter ctx p p with
    | some v =>
      note fun s => do
        return "Lookup: " ++ (← s.exprText (.path p)) ++ " = " ++
          (← s.display v)
      return v
    | none => return .nil
  | .range first last => do
    let a ← expr reenter ctx first
    let a ← ofExcept (a.toInteger (← store).display)
    let b ← expr reenter ctx last
    let b ← ofExcept (b.toInteger (← store).display)
    return .range a (b + 1)

/-- Evaluates a path, which may come to nothing on the way. The text of
the whole path goes into notes. -/
def path (reenter : Reenter) (ctx : ContextId) (whole : Path) :
    Path → Eval (Option Value)
  | .root name => do
    return some (← findVariable reenter ctx (← expr reenter ctx name))
  | .step p key command => do
    match ← path reenter ctx whole p with
    | none => return none
    | some v =>
      stepFrom reenter ctx whole v (← expr reenter ctx key) command

end

-- ============================================================== markup

/-- Reads an operand and tells of it. -/
def readOperand (markup : String) : Eval Expr := do
  modify fun w =>
    { w with
      journal := w.journal.noteAll fun _ => Notes.operand markup.toList }
  ofExcept (Expr.parse markup)

/-- Evaluates markup, going back to the start at most so often. -/
def markupWithin : (budget : Nat) → ContextId → String → Eval Value
  | 0, _, _ => throw .tooDeep
  | budget + 1, ctx, markup => do
    expr (markupWithin budget) ctx (← readOperand markup)

/-- How deeply evaluation may go back to its start. The number stands for the
host's recursion limit, which depends on all that is nested in between; an
evaluation that goes back without end reaches either. -/
def maxDepth : Nat := 1000

/-- Evaluates markup in a context. -/
def markup (ctx : ContextId) (text : String) : Eval Value :=
  markupWithin maxDepth ctx text

/-- Evaluates an expression in a context. -/
def evaluate (ctx : ContextId) (e : Expr) : Eval Value :=
  expr markup ctx e

end Eval
end Stencil
