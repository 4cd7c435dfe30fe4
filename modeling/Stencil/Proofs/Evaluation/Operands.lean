/-
Everything above the evaluation of operands goes by the parts.

Clauses and conditions, nodes and templates behave if operands do and the
operators fail as they may: this is what `Evaluates` asks for. Where some
failures of operands are excused, so they are above them
(`EvaluatesUnless`). What operands there are is said by a condition that
all of them meet. So a conduct of rendering is established by what it says
of single operands, and nothing here has to be gone through again for
another one.
-/
import Stencil.Proofs.Conduct
import Stencil.Proofs.Template.Operands
import Stencil.Template.Rendering

namespace Stencil

-- ========================================================== the world

variable {C : Conduct World} {excused : World → Failure → Prop} {w : World}

namespace BehavesUnless

variable {α : Type} {Q : World → α → Prop}

/-- The objects may be looked at. -/
theorem store_bind {f : Store → Eval α}
    (h : BehavesUnless C excused Q (f w.store) w) :
    BehavesUnless C excused Q (Eval.store >>= f) w :=
  h

/-- What was found without the world is answered or fails. -/
theorem ofExcept {r : Except Failure α} (h : Admits (Q w) C.fails r) :
    BehavesUnless C excused Q (Eval.ofExcept r) w := by
  cases h with
  | ok ha => exact .pure ha
  | error hf => exact .throw hf

/-- A failure that tells a text may be that of the text as well. -/
theorem refuse {text : Except Failure String} {failure : String → Failure}
    (htext : ∀ f, text = .error f → C.fails f)
    (hfailure : ∀ shown, C.fails (failure shown)) :
    BehavesUnless C excused Q
      (do throw (failure (← Eval.ofExcept text))) w := by
  cases text with
  | ok shown => exact .throw (hfailure shown)
  | error f => exact .throw (htext f rfl)

end BehavesUnless

namespace Behaves

variable {α : Type} {Q : World → α → Prop}

/-- The objects may be looked at. -/
theorem store_bind {f : Store → Eval α}
    (h : Behaves C Q (f w.store) w) : Behaves C Q (Eval.store >>= f) w :=
  h

/-- What was found without the world is answered or fails. -/
theorem ofExcept {r : Except Failure α} (h : Admits (Q w) C.fails r) :
    Behaves C Q (Eval.ofExcept r) w :=
  (BehavesUnless.ofExcept h).behaves

theorem refuse {text : Except Failure String} {failure : String → Failure}
    (htext : ∀ f, text = .error f → C.fails f)
    (hfailure : ∀ shown, C.fails (failure shown)) :
    Behaves C Q (do throw (failure (← Eval.ofExcept text))) w :=
  (BehavesUnless.refuse htext hfailure).behaves

end Behaves

/-- Operands that meet a condition evaluate, in a context, to values of a
kind, or fail as is excused. A value of the kind stays one, and operators
that are given such values, and the output of one, fail only as they may. -/
structure EvaluatesUnless (C : Conduct World)
    (excused : World → Failure → Prop) (ctx : ContextId) (P : Expr → Prop)
    (Q : World → Value → Prop) : Prop where
  note : ∀ w message,
    BehavesUnless C excused Anything (Eval.note message) w
  operand : ∀ w e, P e →
    BehavesUnless C excused Q (Eval.evaluate ctx e) w
  stays : ∀ {w w' v}, C.later w w' → Q w v → Q w' v
  operator : ∀ {w op v v' f}, C.holds w → Q w v → Q w v' →
    Operator.apply w.store op v v' = .error f → C.fails f
  output : ∀ {w v f}, C.holds w → Q w v → w.store.output v = .error f →
    C.fails f

/-- Operands that meet a condition evaluate, in a context, to values of a
kind. A value of the kind stays one, and operators that are given such
values, and the output of one, fail only as they may. -/
structure Evaluates (C : Conduct World) (ctx : ContextId)
    (P : Expr → Prop) (Q : World → Value → Prop) : Prop where
  note : ∀ w message, Behaves C Anything (Eval.note message) w
  operand : ∀ w e, P e → Behaves C Q (Eval.evaluate ctx e) w
  stays : ∀ {w w' v}, C.later w w' → Q w v → Q w' v
  operator : ∀ {w op v v' f}, C.holds w → Q w v → Q w v' →
    Operator.apply w.store op v v' = .error f → C.fails f
  output : ∀ {w v f}, C.holds w → Q w v → w.store.output v = .error f →
    C.fails f

/-- What evaluates needs no excuse. -/
theorem Evaluates.unless {ctx : ContextId} {P : Expr → Prop}
    {Q : World → Value → Prop} (h : Evaluates C ctx P Q) :
    EvaluatesUnless C (fun _ _ => False) ctx P Q where
  note w message := .of_behaves (h.note w message)
  operand w e he := .of_behaves (h.operand w e he)
  stays := h.stays
  operator := h.operator
  output := h.output

namespace EvaluatesUnless

variable {ctx : ContextId} {P : Expr → Prop} {L : LeafTag → Prop}
  {Q : World → Value → Prop}

-- ========================================================== conditions

/-- A clause behaves. -/
theorem clause (h : EvaluatesUnless C excused ctx P Q) {c : Clause}
    (hc : c.Meets P) :
    BehavesUnless C excused Anything (Eval.clause ctx c) w := by
  refine .bind (h.operand w c.left hc.1) fun v t _ hv => ?_
  cases c.operator? with
  | none => exact .pure trivial
  | some op =>
    refine .bind (h.operand t c.right hc.2) fun v' u hlater hv' => ?_
    refine .store_bind (.assume fun hu => ?_)
    have happly : Admits (Anything u) C.fails (op.apply u.store v v') := by
      cases hout : op.apply u.store v v' with
      | ok answer => exact .ok trivial
      | error f => exact .error (h.operator hu (h.stays hlater hv) hv' hout)
    exact .bind (.ofExcept happly) fun _ _ _ _ => .pure trivial

/-- Linked clauses behave, from any running result. -/
theorem linked (h : EvaluatesUnless C excused ctx P Q)
    {links : List (Relation × Clause)}
    (hlinks : ∀ l ∈ links, l.2.Meets P) (result : Bool) :
    BehavesUnless C excused Anything (Eval.linked ctx result links) w := by
  induction links generalizing w result with
  | nil => exact .pure trivial
  | cons link rest ih =>
    obtain ⟨r, c⟩ := link
    obtain ⟨hc, hrest⟩ := List.forall_mem_cons.1 hlinks
    have goOn (b : Bool) (t : World) : BehavesUnless C excused Anything (do
        Eval.noteClause r.word c b
        Eval.linked ctx b rest) t :=
      .bind (h.note t _) fun _ _ _ _ => ih hrest b
    unfold Eval.linked
    dsimp only
    split
    · exact .bind (h.clause hc) fun v t _ _ => goOn v.isTruthy t
    · exact goOn result w

/-- A condition behaves. -/
theorem condition (h : EvaluatesUnless C excused ctx P Q) {c : Condition}
    (hc : c.Meets P) :
    BehavesUnless C excused Anything (Eval.condition ctx c) w := by
  unfold Eval.condition
  split
  · exact .pure trivial
  · refine .bind (h.clause hc.1) fun v t _ _ => ?_
    exact .bind (h.note t _) fun _ _ _ _ => h.linked hc.2 _

end EvaluatesUnless

namespace Evaluates

variable {ctx : ContextId} {P : Expr → Prop} {Q : World → Value → Prop}

/-- A condition behaves. -/
theorem condition (h : Evaluates C ctx P Q) {c : Condition}
    (hc : c.Meets P) : Behaves C Anything (Eval.condition ctx c) w :=
  (h.unless.condition hc).behaves

end Evaluates

-- =========================================================== rendering

/-- Writing on a page conducts itself as its world does. -/
def Conduct.page (C : Conduct World) : Conduct Page where
  holds p := C.holds p.world
  later p p' := C.later p.world p'.world
  fails := C.fails
  refl p := C.refl p.world
  trans := C.trans

/-- Writing on a page is excused as in its world. -/
abbrev onPage (excused : World → Failure → Prop) : Page → Failure → Prop :=
  fun p => excused p.world

namespace BehavesUnless

variable {α : Type} {Q : World → α → Prop} {p : Page}

theorem ofEval {x : Eval α} (h : BehavesUnless C excused Q x p.world) :
    BehavesUnless C.page (onPage excused) (fun p => Q p.world)
      (Rendering.ofEval x) p :=
  h

theorem emit (piece : String) :
    BehavesUnless C.page (onPage excused) Anything (Rendering.emit piece)
      p :=
  .of_behaves (.modify fun hp => ⟨C.refl p.world, hp, trivial⟩)

end BehavesUnless

namespace EvaluatesUnless

variable {ctx : ContextId} {P : Expr → Prop} {L : LeafTag → Prop}
  {Q : World → Value → Prop}

mutual

/-- A node behaves. -/
theorem node (h : EvaluatesUnless C excused ctx P Q)
    (hleaf : ∀ name, L .unsupported → C.fails (.cannotRender name)) :
    ∀ {n : Node}, n.Meets P L → ∀ p,
      BehavesUnless C.page (onPage excused) Anything
        (Rendering.node ctx n) p
  | .text s, _, _ => .emit s
  | .output _ e, he, p => by
    refine .bind (.ofEval (h.operand p.world e he)) fun v q _ hv => ?_
    have houtput : BehavesUnless C excused Anything
        (do Eval.ofExcept ((← Eval.store).output v)) q.world := by
      refine .store_bind (.assume fun hq => .ofExcept ?_)
      cases hout : q.world.store.output v with
      | ok text => exact .ok trivial
      | error f => exact .error (h.output hq hv hout)
    exact .bind (.ofEval houtput)
      fun text _ _ (_ : Anything _ text) => .emit text
  | .leaf .unsupported name _, hn, _ => .throw (hleaf name hn)
  | .leaf .echo _ markup, _, _ => .emit _
  | .leaf .silent _ _, _, _ => .pure trivial
  | .conditional negated name _ _, hbranches, p =>
    firstTaken h hleaf negated name 0 hbranches p

/-- Nodes behave. -/
theorem nodes (h : EvaluatesUnless C excused ctx P Q)
    (hleaf : ∀ name, L .unsupported → C.fails (.cannotRender name)) :
    ∀ {ns : List Node}, Node.AllMeet P L ns → ∀ p,
      BehavesUnless C.page (onPage excused) Anything
        (Rendering.nodes ctx ns) p
  | [], _, _ => .pure trivial
  | _ :: _, ⟨hn, hrest⟩, p =>
    .bind (node h hleaf hn p) fun _ q _ (_ : Anything _ _) =>
      nodes h hleaf hrest q

/-- Branches behave, whichever is taken. -/
theorem firstTaken (h : EvaluatesUnless C excused ctx P Q)
    (hleaf : ∀ name, L .unsupported → C.fails (.cannotRender name))
    (negated : Bool) (tag : String) :
    ∀ (index : Nat) {bs : List Branch}, Node.BranchesMeet P L bs → ∀ p,
      BehavesUnless C.page (onPage excused) Anything
        (Rendering.firstTaken ctx negated tag index bs) p
  | _, [], _, _ => .pure trivial
  | index, .mk _ _ :: _, ⟨hc, hbody, hrest⟩, p => by
    refine .bind (.ofEval (h.condition hc)) fun holds q _ _ => ?_
    split
    · exact .bind (.ofEval (h.note q.world _))
        fun _ r _ (_ : Anything _ _) => nodes h hleaf hbody r
    · exact firstTaken h hleaf negated tag (index + 1) hrest q

end

/-- The pieces of a template are written as they may be. -/
theorem pieces (h : EvaluatesUnless C excused ctx P Q)
    (hleaf : ∀ name, L .unsupported → C.fails (.cannotRender name))
    {ns : List Node} (hns : ∀ n ∈ ns, n.Meets P L) :
    BehavesUnless C excused Anything (Eval.pieces ctx ns) w := by
  intro hw
  show (∃ f, Except.map _ (Rendering.nodes ctx ns ⟨w, []⟩).1 = .error f ∧
      excused (Rendering.nodes ctx ns ⟨w, []⟩).2.world f) ∨
    C.later w (Rendering.nodes ctx ns ⟨w, []⟩).2.world ∧
      C.holds (Rendering.nodes ctx ns ⟨w, []⟩).2.world ∧
        Admits _ _ (Except.map _ (Rendering.nodes ctx ns ⟨w, []⟩).1)
  rcases h.nodes hleaf (Node.allMeet_iff.2 hns) ⟨w, []⟩ hw with
    ⟨f, hfails, hexcused⟩ | ⟨hlater, hholds, hends⟩
  · rw [hfails]
    exact Or.inl ⟨f, rfl, hexcused⟩
  · refine Or.inr ⟨hlater, hholds, ?_⟩
    cases hout : (Rendering.nodes ctx ns ⟨w, []⟩).1 with
    | ok => exact .ok trivial
    | error f =>
      rw [hout] at hends
      cases hends with
      | error hf => exact .error hf

/-- A template is rendered as it may be. -/
theorem renderIn (h : EvaluatesUnless C excused ctx P Q)
    (hleaf : ∀ name, L .unsupported → C.fails (.cannotRender name))
    {t : Template} (ht : ∀ n ∈ t.nodes, n.Meets P L) :
    BehavesUnless C excused Anything (Eval.renderIn ctx t) w := by
  refine .bind (h.pieces hleaf ht) fun _ t _ _ => ?_
  exact .bind (h.note t _) fun _ _ _ _ => .pure trivial

end EvaluatesUnless

/-- A template is rendered as it may be. -/
theorem Evaluates.renderIn {ctx : ContextId} {P : Expr → Prop}
    {L : LeafTag → Prop} {Q : World → Value → Prop}
    (h : Evaluates C ctx P Q)
    (hleaf : ∀ name, L .unsupported → C.fails (.cannotRender name))
    {t : Template} (ht : ∀ n ∈ t.nodes, n.Meets P L) :
    Behaves C Anything (Eval.renderIn ctx t) w :=
  (h.unless.renderIn hleaf ht).behaves

-- ======================================================== new contexts

/-- The context that was added last. -/
theorem World.context_push (store : Store) (contexts : Array Context)
    (calls : List (String × Nat)) (journal : Journal) (c : Context) :
    World.context ⟨store, contexts.push c, calls, journal⟩ contexts.size =
      c := by
  simp [World.context]

/-- A new context without a scope of its own looks names up in a new table
first. -/
theorem Eval.newContext_apply (environments : List Value) (strict : Bool)
    (w : World) :
    newContext none environments strict w =
      (.ok w.contexts.size,
        ⟨(w.store.alloc (.table [])).2,
          w.contexts.push
            ⟨[(w.store.alloc (.table [])).1], environments, strict⟩,
          w.calls, w.journal⟩) :=
  rfl

namespace World

/-- A world with a new context of the data given. -/
def entered (w : World) (data : List Value) (strict : Bool) : World :=
  { w with
    store := (w.store.alloc (.table [])).2
    contexts :=
      w.contexts.push ⟨[(w.store.alloc (.table [])).1], data, strict⟩ }

theorem size_entered (w : World) (data : List Value) (strict : Bool) :
    (w.entered data strict).contexts.size = w.contexts.size + 1 :=
  Array.size_push _

theorem context_entered (w : World) (data : List Value) (strict : Bool)
    (ctx : ContextId) :
    (w.entered data strict).context ctx =
      if ctx = w.contexts.size then
        ⟨[(w.store.alloc (.table [])).1], data, strict⟩
      else w.context ctx := by
  show (w.contexts.push _)[ctx]?.getD _ = _
  rw [Array.getElem?_push]
  split <;> rfl

end World

theorem Eval.render_apply (assigns : Option Value)
    (environments : List Value) (strict : Bool) (t : Template) (w : World) :
    render assigns environments strict t w =
      renderIn w.contexts.size t
        (w.entered (assigns.toList ++ environments) strict) :=
  rfl

end Stencil
