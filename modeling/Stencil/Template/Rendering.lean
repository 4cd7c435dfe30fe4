/-
Rendering of templates.

A node writes pieces of output and may change the world. What was written
before a failure stays written.
-/
import Stencil.Condition.Evaluation
import Stencil.Scope
import Stencil.Template

namespace Stencil

/-- A page being written: the world, and the pieces of output, the last
first. -/
structure Page where
  world : World
  pieces : List String

/-- Writing on a page. -/
abbrev Rendering := ExceptT Failure (StateM Page)

namespace Rendering

/-- Writes a piece. -/
def emit (piece : String) : Rendering Unit :=
  modify fun p => { p with pieces := piece :: p.pieces }

/-- An action on the world of the page. -/
def ofEval {α : Type} (action : Eval α) : Rendering α :=
  fun p =>
    let (result, world) := action p.world
    (result, { p with world := world })

/-- Whether a branch is taken, given whether its condition holds. -/
def isTaken (negated : Bool) (index : Nat) (holds : Bool) : Bool :=
  if negated && index == 0 then !holds else holds

/-- Tells which branch is taken. -/
def noteBranch (tag : String) (index : Nat) (c : Condition) :
    Rendering Unit :=
  ofEval (Eval.note fun s => do
    return tag ++ ": taking branch " ++ toString index ++ " (" ++
      (← s.conditionText c) ++ ")")

mutual

/-- Writes a node. -/
def node (ctx : ContextId) : Node → Rendering Unit
  | .text s => emit s
  | .output _ e => do
    let v ← ofEval (Eval.evaluate ctx e)
    emit (← ofEval (do Eval.ofExcept ((← Eval.store).output v)))
  | .leaf .unsupported name _ => throw (.cannotRender name)
  | .leaf .echo _ markup => emit ("[" ++ markup ++ "]")
  | .leaf .silent _ _ => return ()
  | .conditional negated name _ branches =>
    firstTaken ctx negated name 0 branches

/-- Writes nodes one after the other. -/
def nodes (ctx : ContextId) : List Node → Rendering Unit
  | [] => return ()
  | n :: rest => do
    node ctx n
    nodes ctx rest

/-- Writes the first of the branches that is taken, counting from the
given index. -/
def firstTaken (ctx : ContextId) (negated : Bool) (tag : String)
    (index : Nat) : List Branch → Rendering Unit
  | [] => return ()
  | .mk c body :: rest => do
    let holds ← ofEval (Eval.condition ctx c)
    if isTaken negated index holds then
      noteBranch tag index c
      nodes ctx body
    else firstTaken ctx negated tag (index + 1) rest

end

end Rendering

namespace Eval

/-- The pieces that nodes write in a context. -/
def pieces (ctx : ContextId) (nodes : List Node) : Eval (List String) :=
  fun w =>
    let (result, page) := Rendering.nodes ctx nodes ⟨w, []⟩
    (result.map fun _ => page.pieces.reverse, page.world)

/-- The text that a template renders to in a context. -/
def renderIn (ctx : ContextId) (t : Template) : Eval String := do
  let text := String.join (← pieces ctx t.nodes)
  note fun _ => .ok ("Rendered result: " ++ Text.quote text)
  return text

/-- The text that a template renders to in a new context of the data
given: the assigned ones before those of the environments. -/
def render (assigns : Option Value) (environments : List Value)
    (strict : Bool) (t : Template) : Eval String := do
  let ctx ← newContext none (assigns.toList ++ environments) strict
  renderIn ctx t

/-- Reads a template; the journal of the world tells of it. -/
def readTemplate (tags : Registry) (mode : Mode) (source : String) :
    Eval Template :=
  fun w =>
    let (result, journal) := Template.parse tags mode source w.journal
    (result, { w with journal := journal })

end Eval
end Stencil
