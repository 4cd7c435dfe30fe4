/-
Conditions and rendering, whatever evaluates their operands.

Nothing above the operands looks at the context: it only hands it on to
them, so the evaluator of operands may as well be a parameter. With the
evaluator of a context in its place, conditions and templates are what they
are in that context. Two evaluators that mirror each other on the operands
of a template, with the same answers from worlds of the same objects, then
write the same text and end with the same failure (`Accord`). Whether the
two are one evaluator in two contexts, or the evaluator and another one
that looks on, makes no difference here.
-/
import Stencil.Proofs.Evaluation.Mirroring
import Stencil.Proofs.Evaluation.Operands

namespace Stencil

/-- A way to evaluate operands. -/
abbrev Evaluator := Expr → Eval Value

namespace Evaluator

variable (ev : Evaluator)

-- ========================================================== conditions

/-- The value of a clause alone. -/
def clause (c : Clause) : Eval Value := do
  let left ← ev c.left
  match c.operator? with
  | none => return left
  | some op =>
    let right ← ev c.right
    return Eval.ofAnswer (← Eval.ofExcept (op.apply (← Eval.store) left right))

/-- The result of the linked clauses of a chain, from a running one. -/
def linked (result : Bool) : List (Relation × Clause) → Eval Bool
  | [] => return result
  | (r, c) :: rest => do
    let result ←
      if r.matters result then pure (← clause ev c).isTruthy
      else pure result
    Eval.noteClause r.word c result
    linked result rest

/-- Whether a condition holds. -/
def condition (c : Condition) : Eval Bool := do
  if c.isOtherwise then return true
  else
    let result := (← clause ev c.head).isTruthy
    Eval.noteClause "" c.head result
    linked ev result c.tail

-- =========================================================== rendering

mutual

/-- Writes a node. -/
def node : Node → Rendering Unit
  | .text s => Rendering.emit s
  | .output _ e => do
    let v ← Rendering.ofEval (ev e)
    Rendering.emit
      (← Rendering.ofEval (do Eval.ofExcept ((← Eval.store).output v)))
  | .leaf .unsupported name _ => throw (.cannotRender name)
  | .leaf .echo _ markup => Rendering.emit ("[" ++ markup ++ "]")
  | .leaf .silent _ _ => return ()
  | .conditional negated name _ branches =>
    firstTaken negated name 0 branches

/-- Writes nodes one after the other. -/
def nodes : List Node → Rendering Unit
  | [] => return ()
  | n :: rest => do
    node n
    nodes rest

/-- Writes the first of the branches that is taken, counting from the
given index. -/
def firstTaken (negated : Bool) (tag : String) (index : Nat) :
    List Branch → Rendering Unit
  | [] => return ()
  | .mk c body :: rest => do
    let holds ← Rendering.ofEval (condition ev c)
    if Rendering.isTaken negated index holds then
      Rendering.noteBranch tag index c
      nodes body
    else firstTaken negated tag (index + 1) rest

end

/-- The pieces that nodes write. -/
def pieces (ns : List Node) : Eval (List String) :=
  fun w =>
    let (result, page) := nodes ev ns ⟨w, []⟩
    (result.map fun _ => page.pieces.reverse, page.world)

/-- The text that a template renders to. -/
def renderIn (t : Template) : Eval String := do
  let text := String.join (← pieces ev t.nodes)
  Eval.note fun _ => .ok ("Rendered result: " ++ Text.quote text)
  return text

-- ======================================== the evaluator of a context

variable (ctx : ContextId)

theorem linked_evaluate (result : Bool)
    (links : List (Relation × Clause)) :
    linked (Eval.evaluate ctx) result links =
      Eval.linked ctx result links := by
  induction links generalizing result with
  | nil => rfl
  | cons link rest ih =>
    unfold linked Eval.linked
    simp only [ih]
    rfl

theorem condition_evaluate (c : Condition) :
    condition (Eval.evaluate ctx) c = Eval.condition ctx c := by
  unfold condition Eval.condition
  simp only [linked_evaluate]
  rfl

mutual

theorem node_evaluate :
    ∀ n : Node, node (Eval.evaluate ctx) n = Rendering.node ctx n
  | .text _ | .output .. | .leaf .unsupported _ _ | .leaf .echo _ _
  | .leaf .silent _ _ => rfl
  | .conditional negated name _ branches =>
    firstTaken_evaluate negated name 0 branches

theorem nodes_evaluate :
    ∀ ns : List Node, nodes (Eval.evaluate ctx) ns = Rendering.nodes ctx ns
  | [] => rfl
  | n :: rest => by
    rw [nodes, Rendering.nodes, node_evaluate n, nodes_evaluate rest]

theorem firstTaken_evaluate (negated : Bool) (tag : String) :
    ∀ (index : Nat) (branches : List Branch),
      firstTaken (Eval.evaluate ctx) negated tag index branches =
        Rendering.firstTaken ctx negated tag index branches
  | _, [] => rfl
  | index, .mk c body :: rest => by
    rw [firstTaken, Rendering.firstTaken, condition_evaluate,
      nodes_evaluate body, firstTaken_evaluate negated tag (index + 1) rest]

end

theorem renderIn_evaluate (t : Template) :
    renderIn (Eval.evaluate ctx) t = Eval.renderIn ctx t := by
  have hpieces : pieces (Eval.evaluate ctx) t.nodes =
      Eval.pieces ctx t.nodes := by
    unfold pieces
    rw [nodes_evaluate]
    rfl
  rw [renderIn, Eval.renderIn, hpieces]

end Evaluator

-- ============================================================= accord

/-- The same answer is given. -/
abbrev Identically {σ α : Type} : σ → α → α → Prop := fun _ a b => b = a

/-- Two evaluators give the same answers to operands that meet a condition,
from worlds of the same objects. -/
structure Accord (C : Course World) (ev ev' : Evaluator)
    (P : Expr → Prop) : Prop where
  store : ∀ {w w'}, C.related w w' → w'.store = w.store
  note : ∀ w w' message,
    Mirrors C Identically (Eval.note message) (Eval.note message) w w'
  operand : ∀ w w' e, P e → Mirrors C Identically (ev e) (ev' e) w w'

/-- Two pages with the same pieces are written on, while their worlds go
on. -/
def Course.page (C : Course World) : Course Page where
  related p p' := C.related p.world p'.world ∧ p'.pieces = p.pieces
  later p q := C.later p.world q.world
  refl h := C.refl h.1
  trans h := C.trans h.1

namespace Mirrors

variable {α : Type} {C : Course World} {p p' : Page}

/-- Actions that mirror each other on the worlds do so on the pages. -/
theorem ofEval {x y : Eval α}
    (h : Mirrors C Identically x y p.world p'.world) :
    Mirrors C.page Identically (Rendering.ofEval x) (Rendering.ofEval y)
      p p' := by
  rintro ⟨hp, hpieces⟩
  obtain ⟨hlater, hrelated, halike⟩ := h hp
  exact ⟨hlater, ⟨hrelated, hpieces⟩, halike⟩

theorem emit (piece : String) :
    Mirrors C.page Identically (Rendering.emit piece)
      (Rendering.emit piece) p p' :=
  .modify fun ⟨hp, hpieces⟩ =>
    ⟨C.refl hp, ⟨hp, congrArg (piece :: ·) hpieces⟩, rfl⟩

/-- The rest goes on alike from the same answer. -/
theorem bind_identically {σ γ : Type} {C : Course σ} {s s' : σ}
    {x y : ExceptT Failure (StateM σ) α}
    {f g : α → ExceptT Failure (StateM σ) γ}
    (hx : Mirrors C Identically x y s s')
    (hf : ∀ t t' a, Mirrors C Identically (f a) (g a) t t') :
    Mirrors C Identically (x >>= f) (y >>= g) s s' := by
  refine .bind hx ?_
  rintro t t' a _ - rfl
  exact hf t t' _

/-- From related states, the outcomes are the same. -/
theorem identically {σ : Type} {C : Course σ} {s s' : σ}
    {x y : ExceptT Failure (StateM σ) α}
    (h : Mirrors C Identically x y s s') (hs : C.related s s') :
    (y s').1 = (x s).1 ∧ C.related (x s).2 (y s').2 := by
  obtain ⟨-, hrelated, halike⟩ := h hs
  refine ⟨?_, hrelated⟩
  generalize (x s).1 = r at halike
  generalize (y s').1 = r' at halike
  cases halike with
  | ok heq => exact congrArg Except.ok heq
  | error f => rfl

end Mirrors

namespace Accord

variable {C : Course World} {ev ev' : Evaluator} {P : Expr → Prop}
  {L : LeafTag → Prop} {w w' : World}

/-- The objects may be looked at: they are the same. -/
theorem store_bind (h : Accord C ev ev' P) {α : Type}
    {f g : Store → Eval α}
    (hf : Mirrors C Identically (f w.store) (g w.store) w w') :
    Mirrors C Identically (Eval.store >>= f) (Eval.store >>= g) w w' := by
  intro hw
  have hright : (Eval.store >>= g) w' = g w.store w' :=
    congrArg (g · w') (h.store hw)
  rw [hright]
  exact hf hw

-- ========================================================== conditions

/-- A clause has the same value. -/
theorem clause (h : Accord C ev ev' P) {c : Clause} (hc : c.Meets P) :
    Mirrors C Identically (ev.clause c) (ev'.clause c) w w' := by
  refine .bind_identically (h.operand w w' c.left hc.1) fun t t' v => ?_
  cases c.operator? with
  | none => exact .pure rfl
  | some op =>
    refine .bind_identically (h.operand t t' c.right hc.2)
      fun u u' v' => h.store_bind ?_
    exact .bind_identically (.outcome _ fun _ => rfl) fun _ _ _ => .pure rfl

/-- Linked clauses come to the same result from the same one. -/
theorem linked (h : Accord C ev ev' P) {links : List (Relation × Clause)}
    (hlinks : ∀ l ∈ links, l.2.Meets P) (result : Bool) :
    Mirrors C Identically (ev.linked result links)
      (ev'.linked result links) w w' := by
  induction links generalizing w w' result with
  | nil => exact .pure rfl
  | cons link rest ih =>
    obtain ⟨r, c⟩ := link
    obtain ⟨hc, hrest⟩ := List.forall_mem_cons.1 hlinks
    have goOn (b : Bool) (t t' : World) : Mirrors C Identically (do
        Eval.noteClause r.word c b
        ev.linked b rest) (do
        Eval.noteClause r.word c b
        ev'.linked b rest) t t' :=
      .bind_identically (h.note t t' _) fun _ _ _ => ih hrest b
    unfold Evaluator.linked
    dsimp only
    split
    · exact .bind_identically (h.clause hc)
        fun t t' v => goOn v.isTruthy t t'
    · exact goOn result w w'

/-- A condition holds in both or in none. -/
theorem condition (h : Accord C ev ev' P) {c : Condition}
    (hc : c.Meets P) :
    Mirrors C Identically (ev.condition c) (ev'.condition c) w w' := by
  unfold Evaluator.condition
  split
  · exact .pure rfl
  · refine .bind_identically (h.clause hc.1) fun t t' v => ?_
    exact .bind_identically (h.note t t' _) fun _ _ _ => h.linked hc.2 _

-- =========================================================== rendering

mutual

/-- A node is written alike. -/
theorem node (h : Accord C ev ev' P) :
    ∀ {n : Node}, n.Meets P L → ∀ p p',
      Mirrors C.page Identically (ev.node n) (ev'.node n) p p'
  | .text s, _, _, _ => .emit s
  | .output _ e, he, p, p' => by
    refine .bind_identically (.ofEval (h.operand _ _ e he)) fun q q' v => ?_
    exact .bind_identically (.ofEval (h.store_bind (.outcome _ fun _ => rfl)))
      fun r r' piece => .emit piece
  | .leaf .unsupported name _, _, _, _ => .throw _
  | .leaf .echo _ markup, _, _, _ => .emit _
  | .leaf .silent _ _, _, _, _ => .pure rfl
  | .conditional negated name _ _, hbranches, p, p' =>
    firstTaken h negated name 0 hbranches p p'

/-- Nodes are written alike. -/
theorem nodes (h : Accord C ev ev' P) :
    ∀ {ns : List Node}, Node.AllMeet P L ns → ∀ p p',
      Mirrors C.page Identically (ev.nodes ns) (ev'.nodes ns) p p'
  | [], _, _, _ => .pure rfl
  | _ :: _, ⟨hn, hrest⟩, p, p' =>
    .bind_identically (node h hn p p') fun q q' _ => nodes h hrest q q'

/-- The same branch is taken, and written alike. -/
theorem firstTaken (h : Accord C ev ev' P) (negated : Bool)
    (tag : String) :
    ∀ (index : Nat) {bs : List Branch}, Node.BranchesMeet P L bs → ∀ p p',
      Mirrors C.page Identically (ev.firstTaken negated tag index bs)
        (ev'.firstTaken negated tag index bs) p p'
  | _, [], _, _, _ => .pure rfl
  | index, .mk _ _ :: _, ⟨hc, hbody, hrest⟩, p, p' => by
    refine .bind_identically (.ofEval (h.condition hc))
      fun q q' holds => ?_
    split
    · exact .bind_identically (.ofEval (h.note _ _ _))
        fun r r' _ => nodes h hbody r r'
    · exact firstTaken h negated tag (index + 1) hrest q q'

end

/-- The same pieces are written. -/
theorem pieces (h : Accord C ev ev' P) {ns : List Node}
    (hns : ∀ n ∈ ns, n.Meets P L) :
    Mirrors C Identically (ev.pieces ns) (ev'.pieces ns) w w' := by
  intro hw
  obtain ⟨hlater, ⟨hrelated, hpieces⟩, halike⟩ :=
    h.nodes (Node.allMeet_iff.2 hns) ⟨w, []⟩ ⟨w', []⟩ ⟨hw, rfl⟩
  refine ⟨hlater, hrelated, ?_⟩
  show Alike _ (Except.map _ (ev.nodes ns ⟨w, []⟩).1)
    (Except.map _ (ev'.nodes ns ⟨w', []⟩).1)
  rw [hpieces]
  generalize (ev.nodes ns ⟨w, []⟩).1 = r at halike
  generalize (ev'.nodes ns ⟨w', []⟩).1 = r' at halike
  cases halike with
  | ok _ => exact .ok rfl
  | error f => exact .error f

/-- A template renders to the same text. -/
theorem renderIn (h : Accord C ev ev' P) {t : Template}
    (ht : ∀ n ∈ t.nodes, n.Meets P L) :
    Mirrors C Identically (ev.renderIn t) (ev'.renderIn t) w w' := by
  refine .bind_identically (h.pieces ht) fun t t' texts => ?_
  exact .bind_identically (h.note t t' _) fun _ _ _ => .pure rfl

end Accord

end Stencil
