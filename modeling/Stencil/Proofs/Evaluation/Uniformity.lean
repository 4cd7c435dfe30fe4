/-
Evaluation goes alike in worlds that differ in nothing it asks for.

An evaluation asks the world three things only: what the objects are,
which layers a context has, and whether a context is strict. It changes
the objects, the counts and the journal, and never a context. So a
relation of worlds that agrees on what is asked and is kept by these
three changes is carried along by everything an evaluation does. Such a
relation is `Uniform`.

About strictness there may be a disagreement, if it is excused. A
context is asked whether it is strict in three places: when no layer
holds a name, when a step of a path leads nowhere, and when a drop has
no member of a name. In each of them a strict context fails with an
undefined name where another answers nil, or fails to write that name. So
where the first world may have strict contexts that are not strict in the
second one, such failures have to be excused.

On a page the pieces may differ as well, in what had been written before.
-/
import Stencil.Proofs.Evaluation.Agreement

namespace Stencil

/-- A failure that only a strict context comes to where a name is not
there: the name is undefined, or it has too many digits to be told. -/
def Failure.OfStrictness (f : Failure) : Prop :=
  f.isUndefined = true ∨ f = .tooManyDigits

/-- A relation of worlds that agree on all that evaluation asks for, up
to strictness if what that adds is excused, and that is kept by all that
evaluation does. -/
structure Uniform (R : World → World → Prop) (excused : Failure → Prop) :
    Prop where
  store : ∀ {w w'}, R w w' → w.store = w'.store
  layers : ∀ {w w'}, R w w' → ∀ ctx,
    (w.context ctx).layers = (w'.context ctx).layers
  strict : ∀ {w w'}, R w w' → ∀ ctx,
    (w.context ctx).strict = (w'.context ctx).strict ∨
      (w.context ctx).strict = true ∧ ∀ f, f.OfStrictness → excused f
  changed : ∀ {w w'}, R w w' → ∀ s,
    R { w with store := s } { w' with store := s }
  counted : ∀ {w w'}, R w w' → ∀ label,
    R { w with calls := World.countCall label w.calls }
      { w' with calls := World.countCall label w'.calls }
  told : ∀ {w w'}, R w w' → ∀ tell : Journal → Journal,
    R { w with journal := tell w.journal }
      { w' with journal := tell w'.journal }

/-- Equal worlds agree on everything, and so on what is asked. -/
theorem uniform_eq : Uniform Eq (fun _ => False) where
  store h := congrArg World.store h
  layers h ctx := congrArg (fun w : World => (w.context ctx).layers) h
  strict h ctx :=
    Or.inl (congrArg (fun w : World => (w.context ctx).strict) h)
  changed h s := congrArg (fun w : World => { w with store := s }) h
  counted h label :=
    congrArg (fun w : World =>
      { w with calls := World.countCall label w.calls }) h
  told h tell :=
    congrArg (fun w : World => { w with journal := tell w.journal }) h

namespace Uniform

open Eval

variable {R : World → World → Prop} {excused : Failure → Prop}
  {w w' : World} {reenter : Reenter}

-- ========================================================== the world

/-- The store is the same in both worlds, so what is done with it may be
looked at for one store. -/
theorem store_bind (u : Uniform R excused) {α : Type} {f : Store → Eval α}
    (hf : ∀ s, Parallel R excused (f s)) :
    Parallel R excused (Eval.store >>= f) := by
  intro w w' h
  show Agree R excused (f w.store w) (f w'.store w')
  rw [← u.store h]
  exact hf w.store w w' h

/-- A note is told of both stores alike. -/
theorem note (u : Uniform R excused)
    (message : Store → Except Failure String) :
    Parallel R excused (note message) := by
  refine Parallel.modify fun w w' h => ?_
  have hsame : message w'.store = message w.store := by rw [u.store h]
  rw [hsame]
  exact u.told h fun j =>
    j.noteWritten fun _ => (message w.store).toOption

/-- A call is counted in both worlds alike. -/
theorem countCall (u : Uniform R excused) (label : String) :
    Parallel R excused (countCall label) :=
  Parallel.modify fun _ _ h => u.counted h label

/-- An object is put into both stores alike. -/
theorem put (u : Uniform R excused) (id : ObjectId) (o : Object) :
    Parallel R excused (put id o) := by
  refine Parallel.modify fun w w' h => ?_
  rw [← u.store h]
  exact u.changed h (w.store.put id o)

/-- A new object gets the same place in both stores. -/
theorem alloc (u : Uniform R excused) (o : Object) :
    Parallel R excused (alloc o) := by
  intro w w' h
  show Agree R excused
    (.ok (w.store.alloc o).1, { w with store := (w.store.alloc o).2 })
    (.ok (w'.store.alloc o).1, { w' with store := (w'.store.alloc o).2 })
  rw [← u.store h]
  exact Agree.alike (u.changed h _)

/-- What was found without the world is the same in both. -/
theorem ofExcept {α : Type} (r : Except Failure α) :
    Parallel R excused (Eval.ofExcept r) := by
  cases r with
  | ok a => exact Parallel.pure a
  | error f => exact Parallel.throw f

/-- Where a context is asked whether it is strict, one that is strict
only in the first world may fail with an undefined name in the place of
nil, or for want of a text for that name. -/
theorem undefined (u : Uniform R excused) {α : Type}
    {failure : String → Failure} {a : α} (ctx : ContextId)
    (hf : ∀ shown, (failure shown).isUndefined = true) (s : Store)
    (name : Value) {t t' : World} (h : R w w') (ht : R t t') :
    Agree R excused
      ((do
        if (w.context ctx).strict then
          throw (failure (← Eval.ofExcept (s.print name)))
        else return a : Eval α) t)
      ((do
        if (w'.context ctx).strict then
          throw (failure (← Eval.ofExcept (s.print name)))
        else return a : Eval α) t') := by
  rcases u.strict h ctx with hs | ⟨hs, hexc⟩
  · rw [← hs]
    split
    · cases s.print name with
      | ok shown => exact Agree.alike ht
      | error f => exact Agree.alike ht
    · exact Agree.alike ht
  · rw [if_pos hs]
    cases hprint : s.print name with
    | ok shown => exact Agree.excuse (hexc _ (Or.inl (hf shown)))
    | error f =>
      exact Agree.excuse (hexc f (Or.inr (written_eq_error.1 hprint).2))

-- ======================================================= single steps

/-- Forcing a deferred value is parallel, if going back to markup is. -/
theorem force (u : Uniform R excused)
    (hre : ∀ c m, Parallel R excused (reenter c m)) (ctx : ContextId)
    (d : Deferred) : Parallel R excused (force reenter ctx d) := by
  refine Parallel.bind (u.countCall d.label) fun _ => ?_
  cases d.deed with
  | yield v => exact Parallel.pure v
  | read markup => exact hre ctx markup
  | fail message => exact Parallel.throw _

/-- Calling a value is parallel. -/
theorem call (u : Uniform R excused) {s : Store} {v : Value}
    {called : Eval Value} (hc : call? s v = some called) :
    Parallel R excused called := by
  unfold call? at hc
  split at hc
  · cases hc
    exact Parallel.pure _
  · split at hc
    · cases hc
      exact Parallel.throw _
    · cases hc
      exact u.force (fun _ _ => Parallel.throw _) _ _
  · cases hc

/-- A drop without a member of a name asks whether its context is
strict: the first place where the runs may part. -/
theorem missing (u : Uniform R excused) (d : Drop) (key : Value) :
    Parallel R excused (missing d key) := by
  intro w w' h
  unfold Eval.missing
  cases hb : d.bound with
  | none => exact Agree.alike h
  | some ctx =>
    rw [get_bind_apply, get_bind_apply, ← u.store h]
    exact u.undefined ctx (fun _ => rfl) w.store key h h

/-- A member of a drop answers alike. -/
theorem answer (u : Uniform R excused)
    (hre : ∀ c m, Parallel R excused (reenter c m)) (self : Value)
    (d : Drop) (m : Member) :
    Parallel R excused (answer reenter self d m) := by
  cases m with
  | method v => exact Parallel.pure v
  | property v =>
    refine u.store_bind fun s => ?_
    split
    · exact u.call ‹_›
    · exact Parallel.pure v
  | reader markup =>
    dsimp only [Eval.answer]
    split
    · exact hre _ markup
    · exact Parallel.throw _
  | itself => exact Parallel.pure self
  | data v => exact Parallel.pure v

/-- A drop answers a key alike. -/
theorem ask (u : Uniform R excused)
    (hre : ∀ c m, Parallel R excused (reenter c m)) (self : Value)
    (d : Drop) (key : Value) :
    Parallel R excused (ask reenter self d key) := by
  refine u.store_bind fun s => ?_
  split
  · split
    · exact u.answer hre self d _
    · exact u.missing d key
  · exact Parallel.throw _

/-- Host objects stand for the same values in both worlds. -/
theorem toTemplateValue (u : Uniform R excused)
    (hre : ∀ c m, Parallel R excused (reenter c m)) (v : Value) :
    Parallel R excused (toTemplateValue reenter v) := by
  refine u.store_bind fun s => ?_
  split
  · exact Parallel.pure _
  · split
    · exact Parallel.pure v
    · exact Parallel.pure v
    -- a property and a stored slot are called where that is possible
    · refine u.store_bind fun s => ?_
      split
      · exact u.call ‹_›
      · exact Parallel.throw _
    · refine u.store_bind fun s => ?_
      split
      · exact u.call ‹_›
      · exact Parallel.throw _
    · exact u.answer hre v _ _
  · exact Parallel.pure v

/-- A drop is bound alike. -/
theorem bind (u : Uniform R excused) (ctx : ContextId) (v : Value) :
    Parallel R excused (Eval.bind ctx v) := by
  refine u.store_bind fun s => ?_
  split
  · split
    · exact Parallel.pure v
    · exact u.alloc _
  · exact Parallel.pure v

/-- A value is received alike. -/
theorem receive (u : Uniform R excused)
    (hre : ∀ c m, Parallel R excused (reenter c m)) (ctx : ContextId)
    (v : Value) : Parallel R excused (receive reenter ctx v) :=
  Parallel.bind (u.toTemplateValue hre v) fun x => u.bind ctx x

-- ============================================================= lookup

/-- A forced value is remembered alike. -/
theorem remember (u : Uniform R excused) (v key forced : Value) :
    Parallel R excused (remember v key forced) := by
  refine u.store_bind fun s => ?_
  split
  · exact u.put _ _
  · split
    · exact u.put _ _
    · exact Parallel.pure ()
  · exact Parallel.pure ()

/-- The part of a value under a key is found alike. -/
theorem part (u : Uniform R excused)
    (hre : ∀ c m, Parallel R excused (reenter c m)) (v key : Value) :
    Parallel R excused (part reenter v key) := by
  refine u.store_bind fun s => ?_
  split
  · exact u.ask hre v _ key
  · exact ofExcept _

/-- The forced part of a value under a key is found alike. -/
theorem forcedPart (u : Uniform R excused)
    (hre : ∀ c m, Parallel R excused (reenter c m)) (ctx : ContextId)
    (v key : Value) : Parallel R excused (forcedPart reenter ctx v key) := by
  refine Parallel.bind (u.part hre v key) fun x => ?_
  refine u.store_bind fun s => ?_
  split
  · exact Parallel.pure x
  · refine Parallel.bind (u.force hre ctx _) fun forced => ?_
    refine Parallel.bind (u.note _) fun _ => ?_
    refine Parallel.bind (u.remember v key forced) fun _ => ?_
    exact Parallel.pure forced

/-- A name is looked up alike. Where no layer holds it the context is
asked whether it is strict: the second place where the runs may part. -/
theorem findVariable (u : Uniform R excused)
    (hre : ∀ c m, Parallel R excused (reenter c m)) (ctx : ContextId)
    (name : Value) :
    Parallel R excused (findVariable reenter ctx name) := by
  intro w w' h
  unfold Eval.findVariable
  rw [get_bind_apply, get_bind_apply, ← u.layers h ctx, ← u.store h]
  cases (w.context ctx).layers.find? fun v => w.store.hasKey v name with
  | some layer =>
    refine (u.forcedPart hre ctx layer name w w' h).bind
      fun v t t' ht => ?_
    refine (u.note _ t t' ht).bind fun _ s s' hs => ?_
    exact u.receive hre ctx v s s' hs
  | none =>
    refine (u.note _ w w' h).bind fun _ t t' ht => ?_
    exact u.undefined ctx (fun _ => rfl) w.store name h ht

/-- A step of a path is taken alike. Where it leads nowhere the context
is asked whether it is strict: the third place where the runs may
part. -/
theorem stepFrom (u : Uniform R excused)
    (hre : ∀ c m, Parallel R excused (reenter c m)) (ctx : ContextId)
    (whole : Path) (v key : Value)
    (command : Option Command) :
    Parallel R excused (stepFrom reenter ctx whole v key command) := by
  refine u.store_bind fun s => ?_
  dsimp only
  split
  · refine Parallel.bind (u.forcedPart hre ctx v key) fun x => ?_
    refine Parallel.bind (u.receive hre ctx x) fun y => ?_
    exact Parallel.pure (some y)
  · split
    · refine Parallel.bind (Parallel.modify fun _ _ h => u.changed h _)
        fun _ => ?_
      refine Parallel.bind (ofExcept _) fun x => ?_
      refine Parallel.bind (u.receive hre ctx x) fun y => ?_
      exact Parallel.pure (some y)
    · refine Parallel.bind (u.note _) fun _ => ?_
      intro w w' h
      exact u.undefined ctx (fun _ => rfl) s key h h

mutual

/-- An expression is evaluated alike. -/
theorem expr (u : Uniform R excused)
    (hre : ∀ c m, Parallel R excused (reenter c m)) (ctx : ContextId) :
    ∀ e, Parallel R excused (expr reenter ctx e)
  | .const v => Parallel.pure v
  | .path p => by
    refine Parallel.bind (path u hre ctx _ p) fun v => ?_
    split
    · refine Parallel.bind (u.note _) fun _ => ?_
      exact Parallel.pure _
    · exact Parallel.pure Value.nil
  | .range first last => by
    refine Parallel.bind (expr u hre ctx first) fun a => ?_
    refine u.store_bind fun s => ?_
    refine Parallel.bind (ofExcept _) fun a => ?_
    refine Parallel.bind (expr u hre ctx last) fun b => ?_
    refine u.store_bind fun s => ?_
    refine Parallel.bind (ofExcept _) fun b => ?_
    exact Parallel.pure _

/-- A path is evaluated alike. -/
theorem path (u : Uniform R excused)
    (hre : ∀ c m, Parallel R excused (reenter c m)) (ctx : ContextId)
    (whole : Path) :
    ∀ p, Parallel R excused (path reenter ctx whole p)
  | .root name => by
    refine Parallel.bind (expr u hre ctx name) fun key => ?_
    refine Parallel.bind (u.findVariable hre ctx key) fun v => ?_
    exact Parallel.pure (some v)
  | .step p key command => by
    refine Parallel.bind (path u hre ctx whole p) fun v => ?_
    split
    · exact Parallel.pure none
    · refine Parallel.bind (expr u hre ctx key) fun k => ?_
      exact u.stepFrom hre ctx whole _ k command

end

-- ============================================================= markup

/-- Markup is read alike: it is read without looking at the world. -/
theorem readOperand (u : Uniform R excused) (markup : String) :
    Parallel R excused (readOperand markup) :=
  Parallel.bind (Parallel.modify fun _ _ h =>
    u.told h fun j => j.noteAll fun _ => Notes.operand markup.toList)
    fun _ => ofExcept _

/-- Markup is evaluated alike, however deeply evaluation may go back to
its start. -/
theorem markupWithin (u : Uniform R excused) (budget : Nat) :
    ∀ ctx markup, Parallel R excused (markupWithin budget ctx markup) := by
  induction budget with
  | zero => exact fun _ _ => Parallel.throw _
  | succ budget ih =>
    intro ctx markup
    refine Parallel.bind (u.readOperand markup) fun e => ?_
    exact u.expr ih ctx e

/-- An expression is evaluated alike from the start. -/
theorem evaluate (u : Uniform R excused) (ctx : ContextId) (e : Expr) :
    Parallel R excused (evaluate ctx e) :=
  u.expr (u.markupWithin maxDepth) ctx e

-- ========================================================= conditions

/-- A clause is evaluated alike. -/
theorem clause (u : Uniform R excused) (ctx : ContextId) (c : Clause) :
    Parallel R excused (clause ctx c) := by
  refine Parallel.bind (u.evaluate ctx c.left) fun left => ?_
  split
  · exact Parallel.pure left
  · refine Parallel.bind (u.evaluate ctx c.right) fun right => ?_
    refine u.store_bind fun s => ?_
    refine Parallel.bind (ofExcept _) fun answer => ?_
    exact Parallel.pure _

/-- The linked clauses of a chain are folded alike. -/
theorem linked (u : Uniform R excused) (ctx : ContextId)
    (clauses : List (Relation × Clause)) :
    ∀ result, Parallel R excused (linked ctx result clauses) := by
  induction clauses with
  | nil => exact fun result => Parallel.pure result
  | cons link rest ih =>
    intro result
    obtain ⟨r, c⟩ := link
    -- what follows the clause, whether it was looked at or not
    have goOn : ∀ b, Parallel R excused (do
        noteClause r.word c b
        Eval.linked ctx b rest) := fun b =>
      Parallel.bind (u.note _) fun _ => ih b
    unfold Eval.linked
    dsimp only
    split
    · refine Parallel.bind (u.clause ctx c) fun v => ?_
      exact goOn v.isTruthy
    · exact goOn result

/-- A condition is evaluated alike. -/
theorem condition (u : Uniform R excused) (ctx : ContextId)
    (c : Condition) : Parallel R excused (condition ctx c) := by
  unfold Eval.condition
  split
  · exact Parallel.pure true
  · refine Parallel.bind (u.clause ctx c.head) fun v => ?_
    refine Parallel.bind (u.note _) fun _ => ?_
    exact u.linked ctx c.tail v.isTruthy

end Uniform

-- ========================================================== rendering

/-- Pages on related worlds, of which the second has the pieces of the
first on top of those written earlier. -/
structure Above (R : World → World → Prop) (earlier : List String)
    (p p' : Page) : Prop where
  world : R p.world p'.world
  pieces : p'.pieces = p.pieces ++ earlier

namespace Uniform

variable {R : World → World → Prop} {excused : Failure → Prop}
  {earlier : List String}

/-- An action on the world is parallel on the page. -/
theorem ofEval {α : Type} {x : Eval α} (hx : Parallel R excused x) :
    Parallel (Above R earlier) excused (Rendering.ofEval x) := by
  intro p p' h
  rcases hx p.world p'.world h.world with ⟨hr, hw⟩ | hf
  · exact Or.inl ⟨hr, hw, h.pieces⟩
  · exact Or.inr hf

/-- A piece is written alike. -/
theorem emit (piece : String) :
    Parallel (Above R earlier) excused (Rendering.emit piece) := by
  refine Parallel.modify fun p p' h => ⟨h.world, ?_⟩
  rw [h.pieces]
  rfl

mutual

/-- A node is written alike. -/
theorem node (u : Uniform R excused) (ctx : ContextId) :
    ∀ n, Parallel (Above R earlier) excused (Rendering.node ctx n)
  | .text s => emit s
  | .output _ e => by
    refine Parallel.bind (ofEval (u.evaluate ctx e)) fun v => ?_
    refine Parallel.bind (ofEval (u.store_bind fun s => ofExcept _))
      fun text => ?_
    exact emit text
  | .leaf .unsupported name _ => Parallel.throw _
  | .leaf .echo _ markup => emit _
  | .leaf .silent _ _ => Parallel.pure ()
  | .conditional negated name _ branches =>
    firstTaken u ctx negated name branches 0

/-- Nodes are written alike. -/
theorem nodes (u : Uniform R excused) (ctx : ContextId) :
    ∀ ns, Parallel (Above R earlier) excused (Rendering.nodes ctx ns)
  | [] => Parallel.pure ()
  | n :: rest =>
    Parallel.bind (node u ctx n) fun _ => nodes u ctx rest

/-- The same branch is taken, and written alike. -/
theorem firstTaken (u : Uniform R excused) (ctx : ContextId)
    (negated : Bool) (tag : String) :
    ∀ branches index, Parallel (Above R earlier) excused
      (Rendering.firstTaken ctx negated tag index branches)
  | [], _ => Parallel.pure ()
  | .mk c body :: rest, index => by
    refine Parallel.bind (ofEval (u.condition ctx c)) fun holds => ?_
    split
    · refine Parallel.bind (ofEval (u.note _)) fun _ => ?_
      exact nodes u ctx body
    · exact firstTaken u ctx negated tag rest (index + 1)

end

-- ========================================================== templates

/-- Nodes that are written alike on empty pages give the same pieces. -/
theorem agree_pieces {ctx : ContextId} {ns ns' : List Node} {w w' : World}
    (h : Agree (Above R []) excused (Rendering.nodes ctx ns ⟨w, []⟩)
      (Rendering.nodes ctx ns' ⟨w', []⟩)) :
    Agree R excused (Eval.pieces ctx ns w) (Eval.pieces ctx ns' w') := by
  rcases h with ⟨hr, hw, hpieces⟩ | ⟨f, hf, hu⟩
  · refine Or.inl ⟨?_, hw⟩
    show Except.map _ _ = Except.map _ _
    rw [hr, hpieces, List.append_nil]
  · refine Or.inr ⟨f, ?_, hu⟩
    show Except.map _ _ = _
    rw [hf]
    rfl

/-- The same pieces are written, from the same start. -/
theorem pieces (u : Uniform R excused) (ctx : ContextId)
    (ns : List Node) : Parallel R excused (Eval.pieces ctx ns) :=
  fun w w' h => agree_pieces (u.nodes ctx ns ⟨w, []⟩ ⟨w', []⟩ ⟨h, rfl⟩)

/-- A template is rendered alike in a context of both worlds. -/
theorem renderIn (u : Uniform R excused) (ctx : ContextId) (t : Template) :
    Parallel R excused (Eval.renderIn ctx t) := by
  refine Parallel.bind (u.pieces ctx t.nodes) fun ps => ?_
  refine Parallel.bind (u.note _) fun _ => ?_
  exact Parallel.pure _

end Uniform

end Stencil
