/-
Drops are asked in the context that has reached them.

To say so of every step of every path, those of markup that is read on the
way among them, the evaluator is given a watch: something that is done
whenever a step is about to ask a drop, and that is told the context of
the path. A watch may fail, or change the world. But if it lets drops pass
that are bound to that context, evaluation with the watch and without it
are the same run, whatever was rendered or evaluated on the same data
before (`runAll_watched`). For the watch that raises an alarm at all other
drops this says that none of them is ever asked.

One lemma for each action says that it runs alike if all markup it goes
back to does. Only a step of a path takes an argument: what it starts from
is bound (`bound_path`), and still is once the key has been evaluated.
-/
import Stencil.Proofs.Evaluation.Binding
import Stencil.Proofs.Evaluation.Evaluators
import Stencil.Proofs.Evaluation.Memory

namespace Stencil

-- ============================================================ watching

/-- What is done about a drop that a step of a path asks. It is told the
context that the path is evaluated in, the drop, and the key. -/
abbrev Watch := ContextId → Drop → Value → Eval Unit

namespace Watch

/-- Drops that are bound to the context they are asked in are let pass. -/
def Passes (watch : Watch) : Prop :=
  ∀ ctx d key w, d.bound = some ctx → watch ctx d key w = (.ok (), w)

/-- Asking a drop that is bound to another context, or to none, is a
failure. -/
def alarm (f : Failure) : Watch := fun ctx d _ =>
  if d.bound == some ctx then return () else throw f

theorem passes_alarm (f : Failure) : (alarm f).Passes := by
  intro ctx d key w hbound
  simp only [alarm, hbound, beq_self_eq_true, if_true]
  rfl

end Watch

namespace Eval

section

variable (watch : Watch)

/-- Watches a value that a step starts from. -/
def watchDrop (ctx : ContextId) (v key : Value) : Eval Unit := do
  match (← store).drop? v with
  | some d => watch ctx d key
  | none => return ()

/-- One step of a path, watched. -/
def watchedStep (reenter : Reenter) (ctx : ContextId) (whole : Path)
    (v key : Value) (command : Option Command) : Eval (Option Value) := do
  watchDrop watch ctx v key
  stepFrom reenter ctx whole v key command

mutual

/-- Evaluates an expression with all steps watched. -/
def watchedExpr (reenter : Reenter) (ctx : ContextId) : Expr → Eval Value
  | .const v => return v
  | .path p => do
    match ← watchedPath reenter ctx p p with
    | some v =>
      note fun s => do
        return "Lookup: " ++ (← s.exprText (.path p)) ++ " = " ++
          (← s.display v)
      return v
    | none => return .nil
  | .range first last => do
    let a ← watchedExpr reenter ctx first
    let a ← ofExcept (a.toInteger (← store).display)
    let b ← watchedExpr reenter ctx last
    let b ← ofExcept (b.toInteger (← store).display)
    return .range a (b + 1)

/-- Evaluates a path with all steps watched. -/
def watchedPath (reenter : Reenter) (ctx : ContextId) (whole : Path) :
    Path → Eval (Option Value)
  | .root name => do
    return some (← findVariable reenter ctx
      (← watchedExpr reenter ctx name))
  | .step p key command => do
    match ← watchedPath reenter ctx whole p with
    | none => return none
    | some v =>
      watchedStep watch reenter ctx whole v (← watchedExpr reenter ctx key)
        command

end

/-- Evaluates markup with all steps watched, also those of the markup that
is read on the way. -/
def watchedMarkupWithin : (budget : Nat) → ContextId → String → Eval Value
  | 0, _, _ => throw .tooDeep
  | budget + 1, ctx, markup => do
    watchedExpr watch (watchedMarkupWithin budget) ctx
      (← readOperand markup)

/-- Evaluates an expression in a context with all steps watched. -/
def watchedEvaluate (ctx : ContextId) : Evaluator :=
  watchedExpr watch (watchedMarkupWithin watch maxDepth) ctx

end

end Eval

-- ============================================================ sessions

/-- What is done with data that are shared: an expression is evaluated or a
template rendered in a context that is there, or a template is rendered in
a new context. -/
inductive Act
  | evaluate (ctx : ContextId) (e : Expr)
  | renderIn (ctx : ContextId) (t : Template)
  | render (assigns : Option Value) (environments : List Value)
    (strict : Bool) (t : Template)

namespace Act

/-- Does an act, given how operands are evaluated in a context. -/
def runBy (evaluator : ContextId → Evaluator) : Act → Eval Value
  | .evaluate ctx e => evaluator ctx e
  | .renderIn ctx t => return .text (← (evaluator ctx).renderIn t)
  | .render assigns environments strict t => do
    let ctx ← Eval.newContext none (assigns.toList ++ environments) strict
    return .text (← (evaluator ctx).renderIn t)

/-- Does an act. -/
def run : Act → Eval Value
  | .evaluate ctx e => Eval.evaluate ctx e
  | .renderIn ctx t => return .text (← Eval.renderIn ctx t)
  | .render assigns environments strict t =>
    return .text (← Eval.render assigns environments strict t)

/-- Does an act with all steps of paths watched. -/
def watched (watch : Watch) : Act → Eval Value :=
  runBy (Eval.watchedEvaluate watch)

/-- All values that an act mentions, in its templates and as its data, meet
a condition. -/
def Meets (P : Value → Prop) : Act → Prop
  | .evaluate _ e => e.All P
  | .renderIn _ t => ∀ n ∈ t.nodes, n.Meets (Expr.All P) fun _ => True
  | .render assigns environments _ t =>
    (∀ v ∈ assigns, P v) ∧ (∀ v ∈ environments, P v) ∧
      ∀ n ∈ t.nodes, n.Meets (Expr.All P) fun _ => True

/-- Does one act after the other, each in the world that the one before has
left, whether it answered or failed. -/
def runAll (run : Act → Eval Value) :
    List Act → World → List (Except Failure Value) × World
  | [], w => ([], w)
  | a :: rest, w =>
    let after := runAll run rest (run a w).2
    ((run a w).1 :: after.1, after.2)

theorem runBy_evaluate (a : Act) : a.runBy Eval.evaluate = a.run := by
  cases a with
  | evaluate ctx e => rfl
  | renderIn ctx t => rw [runBy, run, Evaluator.renderIn_evaluate]
  | render assigns environments strict t =>
    simp only [runBy, run, Eval.render, Evaluator.renderIn_evaluate,
      bind_assoc]

end Act

-- ============================================================== alike

namespace Eval

section

variable {n : Nat} {w : World} {α β : Type}

/-- In a well formed world, an action runs as another one does. -/
abbrev Coincides (n : Nat) (x y : Eval α) (w : World) : Prop :=
  (Conduct.memory n).holds w → y w = x w

namespace Coincides

variable {x y : Eval α} {f g : α → Eval β} {Q : World → α → Prop}

/-- That the world is well formed may be taken for granted. -/
theorem assume (h : (Conduct.memory n).holds w → Coincides n x y w) :
    Coincides n x y w :=
  fun hw => h hw hw

/-- In a sequence the rest has to run alike in a world that the first
action, which behaves, has come to. -/
protected theorem bind (hxy : Coincides n x y w)
    (hx : Behaves (.memory n) Q x w)
    (hfg : ∀ a t, (Conduct.memory n).later w t → Q t a →
      Coincides n (f a) (g a) t) :
    Coincides n (x >>= f) (y >>= g) w := by
  intro hw
  obtain ⟨hlater, hholds, hends⟩ := hx hw
  rw [bind_apply, bind_apply, hxy hw]
  rcases hrun : x w with ⟨r, t⟩
  rw [hrun] at hlater hholds hends
  cases hends with
  | error => rfl
  | @ok a ha => exact hfg a t hlater ha hholds

/-- The first action is the same one. -/
theorem bind_right (hx : Behaves (.memory n) Q x w)
    (hfg : ∀ a t, (Conduct.memory n).later w t → Q t a →
      Coincides n (f a) (g a) t) :
    Coincides n (x >>= f) (x >>= g) w :=
  .bind (fun _ => rfl) hx hfg

/-- The rest is the same one. -/
theorem bind_left (hxy : Coincides n x y w) :
    Coincides n (x >>= f) (y >>= f) w := by
  intro hw
  rw [bind_apply, bind_apply, hxy hw]

/-- The objects may be looked at. -/
theorem store_bind {f g : Store → Eval β}
    (h : Coincides n (f w.store) (g w.store) w) :
    Coincides n (store >>= f) (store >>= g) w :=
  h

/-- The world may be looked at. -/
theorem get_bind {f g : World → Eval β} (h : Coincides n (f w) (g w) w) :
    Coincides n (get >>= f) (get >>= g) w :=
  h

end Coincides

end

section

variable {n : Nat} {w : World} {reenter : Reenter} {ctx : ContextId}
  {budget : Nat}

/-- The part of a value is there. -/
theorem memory_part (hre : ∀ c m w, Recalls n (reenter c m) w)
    {v : Value} (hv : w.Knows v) (key : Value) :
    Recalls n (part reenter v key) w := by
  cases hdrop : w.store.drop? v with
  | some d => exact memory_part_drop hre hv (Store.drop?_eq_some.1 hdrop) key
  | none =>
    refine .assume fun hholds => .store_bind ?_
    rw [hdrop]
    cases hfetch : w.store.fetch v key with
    | ok x => exact .pure (hholds.1.closed.fetch_has hfetch)
    | error f => exact .throw trivial

-- ======================================================= single steps

variable {reenter' : Reenter}

theorem coincides_force
    (hsame : ∀ c m w, Coincides n (reenter c m) (reenter' c m) w)
    (d : Deferred) :
    Coincides n (force reenter ctx d) (force reenter' ctx d) w := by
  refine .bind_right (memory_countCall d.label) fun _ t _ _ => ?_
  cases d.deed with
  | read markup => exact hsame ctx markup t
  | yield | fail => exact fun _ => rfl

theorem coincides_answer
    (hsame : ∀ c m w, Coincides n (reenter c m) (reenter' c m) w)
    (self : Value) (d : Drop) (m : Member) :
    Coincides n (answer reenter self d m) (answer reenter' self d m) w := by
  cases m with
  | reader markup =>
    cases hbound : d.bound with
    | none => simp only [answer, hbound]; exact fun _ => rfl
    | some ctx =>
      simp only [answer, hbound]
      exact hsame ctx markup w
  | method | property | itself | data => exact fun _ => rfl

theorem coincides_toTemplateValue
    (hsame : ∀ c m w, Coincides n (reenter c m) (reenter' c m) w)
    (v : Value) :
    Coincides n (toTemplateValue reenter v) (toTemplateValue reenter' v)
      w := by
  refine .store_bind ?_
  split
  · exact fun _ => rfl
  · split
    · exact fun _ => rfl
    · exact fun _ => rfl
    · exact fun _ => rfl
    · exact fun _ => rfl
    · exact coincides_answer hsame v _ _
  · exact fun _ => rfl

theorem coincides_receive
    (hsame : ∀ c m w, Coincides n (reenter c m) (reenter' c m) w)
    (v : Value) :
    Coincides n (receive reenter ctx v) (receive reenter' ctx v) w :=
  .bind_left (coincides_toTemplateValue hsame v)

theorem coincides_part
    (hsame : ∀ c m w, Coincides n (reenter c m) (reenter' c m) w)
    (v key : Value) :
    Coincides n (part reenter v key) (part reenter' v key) w := by
  refine .store_bind ?_
  split
  · refine .store_bind ?_
    split
    · split
      · exact coincides_answer hsame v _ _
      · exact fun _ => rfl
    · exact fun _ => rfl
  · exact fun _ => rfl

theorem coincides_forcedPart (hre : ∀ c m w, Recalls n (reenter c m) w)
    (hsame : ∀ c m w, Coincides n (reenter c m) (reenter' c m) w)
    {v : Value} (hv : w.Knows v) (key : Value) :
    Coincides n (forcedPart reenter ctx v key)
      (forcedPart reenter' ctx v key) w := by
  refine .bind (coincides_part hsame v key) (memory_part hre hv key)
    fun x t _ _ => .store_bind ?_
  split
  · exact fun _ => rfl
  · exact .bind_left (coincides_force hsame _)

theorem coincides_findVariable
    (hre : ∀ c m w, Recalls n (markupWithin budget c m) w)
    (hsame : ∀ c m w,
      Coincides n (markupWithin budget c m) (reenter' c m) w)
    {name : Value} (hname : w.Knows name) :
    Coincides n (findVariable (markupWithin budget) ctx name)
      (findVariable reenter' ctx name) w := by
  refine .get_bind ?_
  split
  · next layer hfind =>
    refine .assume fun hholds => ?_
    have hlayer := hholds.1.layers ctx layer (List.mem_of_find?_eq_some hfind)
    refine .bind (coincides_forcedPart hre hsame hlayer name)
      (memory_forcedPart hre hlayer hname) fun v t _ _ => ?_
    exact .bind_right (memory_note _) fun _ _ _ _ =>
      coincides_receive hsame v
  · exact fun _ => rfl

theorem coincides_stepFrom
    (hre : ∀ c m w, Recalls n (markupWithin budget c m) w)
    (hsame : ∀ c m w,
      Coincides n (markupWithin budget c m) (reenter' c m) w)
    (whole : Path) {v : Value} (hv : w.Knows v)
    {key : Value} (hkey : w.Knows key) (command : Option Command) :
    Coincides n (stepFrom (markupWithin budget) ctx whole v key command)
      (stepFrom reenter' ctx whole v key command) w := by
  refine .store_bind ?_
  dsimp only
  split
  · exact .bind (coincides_forcedPart hre hsame hv key)
      (memory_forcedPart hre hv hkey) fun x t _ _ =>
        .bind_left (coincides_receive hsame x)
  · split
    · next answer store hcommand =>
      obtain ⟨c, -, hcommand⟩ := Option.bind_eq_some_iff.1 hcommand
      refine .bind_right (memory_command hcommand) fun _ t _ _ => ?_
      exact .bind_right (memory_ofExcept answer) fun x u _ _ =>
        .bind_left (coincides_receive hsame x)
    · exact fun _ => rfl

-- ======================================================= watched steps

variable {watch : Watch}

/-- A value that is bound is let pass. -/
theorem watchDrop_apply (hpasses : watch.Passes) {v : Value}
    (hv : w.BoundIn ctx v) (key : Value) :
    watchDrop watch ctx v key w = (.ok (), w) := by
  rw [watchDrop, store_bind_apply]
  cases hdrop : w.store.drop? v with
  | none => rfl
  | some d => exact hpasses ctx d key w (hv d (Store.drop?_eq_some.1 hdrop))

theorem coincides_watchedStep (hpasses : watch.Passes)
    (hre : ∀ c m w, Recalls n (markupWithin budget c m) w)
    (hsame : ∀ c m w,
      Coincides n (markupWithin budget c m) (reenter' c m) w)
    (whole : Path) {v : Value} (hv : w.Knows v)
    (hbound : w.BoundIn ctx v) {key : Value} (hkey : w.Knows key)
    (command : Option Command) :
    Coincides n (stepFrom (markupWithin budget) ctx whole v key command)
      (watchedStep watch reenter' ctx whole v key command) w := by
  intro hw
  rw [watchedStep, bind_apply, watchDrop_apply hpasses hbound]
  exact coincides_stepFrom hre hsame whole hv hkey command hw

mutual

/-- An expression is evaluated alike when all steps are watched. -/
theorem coincides_expr (hpasses : watch.Passes)
    (hre : ∀ c m w, Recalls n (markupWithin budget c m) w)
    (hsame : ∀ c m w,
      Coincides n (markupWithin budget c m) (reenter' c m) w) :
    ∀ {e : Expr}, e.All (Value.Below [] n) → ∀ w,
      Coincides n (expr (markupWithin budget) ctx e)
        (watchedExpr watch reenter' ctx e) w
  | .const _, _, _ => fun _ => rfl
  | .path p, hp, w =>
    .bind_left (coincides_path hpasses hre hsame _ hp w)
  | .range first last, ⟨hfirst, hlast⟩, w => by
    refine .bind (coincides_expr hpasses hre hsame hfirst w)
      (memory_expr hre hfirst w) fun a t _ _ => .store_bind ?_
    refine .bind_right (memory_ofExcept _) fun a t _ _ => ?_
    exact .bind_left (coincides_expr hpasses hre hsame hlast t)

/-- A path is evaluated alike when all steps are watched. -/
theorem coincides_path (hpasses : watch.Passes)
    (hre : ∀ c m w, Recalls n (markupWithin budget c m) w)
    (hsame : ∀ c m w,
      Coincides n (markupWithin budget c m) (reenter' c m) w)
    (whole : Path) :
    ∀ {p : Path}, p.All (Value.Below [] n) → ∀ w,
      Coincides n (path (markupWithin budget) ctx whole p)
        (watchedPath watch reenter' ctx whole p) w
  | .root name, hname, w => by
    refine .bind (coincides_expr hpasses hre hsame hname w)
      (memory_expr hre hname w) fun key t _ hkey => ?_
    exact .bind_left (coincides_findVariable hre hsame hkey)
  | .step p key command, ⟨hp, hkey⟩, w => by
    have hbound : Binds? ctx (path (markupWithin budget) ctx whole p) w :=
      bound_path whole p
    have hbound := (memory_path hre whole hp w).both hbound trivial
    refine .bind (coincides_path hpasses hre hsame whole hp w) hbound
      fun r t _ hr => ?_
    cases r with
    | none => exact fun _ => rfl
    | some v =>
      have hv := hr.1 v rfl
      -- the key is evaluated in between
      refine .bind (coincides_expr hpasses hre hsame hkey t)
        (memory_expr hre hkey t) fun k u hlater hk => ?_
      exact coincides_watchedStep hpasses hre hsame whole
        (hv.later hlater) ((hr.2 v rfl).later hv hlater) hk command

end

/-- Markup is evaluated alike when all steps are watched, however deeply
evaluation may go back to its start. -/
theorem coincides_markupWithin (hpasses : watch.Passes) (budget : Nat) :
    ∀ ctx markup w, Coincides n (markupWithin budget ctx markup)
      (watchedMarkupWithin watch budget ctx markup) w := by
  induction budget with
  | zero => exact fun _ _ _ _ => rfl
  | succ budget ih =>
    intro ctx markup w
    exact .bind_right (memory_readOperand markup) fun e t _ he =>
      coincides_expr hpasses (memory_markupWithin budget) ih he t

end

end Eval

-- =========================================================== rendering

/-- A run that conducts itself, next to the same run. -/
def Conduct.course (C : Conduct World) : Course World where
  related w w' := w' = w ∧ C.holds w
  later := C.later
  refl {w _} _ := C.refl w
  trans _ := C.trans

section

variable {n : Nat} {w : World} {α : Type} {x y : Eval α}

theorem Eval.Coincides.mirrors {Q : World → α → Prop} {w' : World}
    (hxy : Eval.Coincides n x y w) (hx : Behaves (.memory n) Q x w) :
    Mirrors (Conduct.memory n).course Identically x y w w' := by
  rintro ⟨rfl, hw⟩
  obtain ⟨hlater, hholds, -⟩ := hx hw
  rw [hxy hw]
  refine ⟨hlater, ⟨rfl, hholds⟩, ?_⟩
  cases (x w').1 with
  | ok a => exact .ok rfl
  | error f => exact .error f

theorem Eval.coincides_of_mirrors
    (h : Mirrors (Conduct.memory n).course Identically x y w w) :
    Eval.Coincides n x y w := by
  intro hw
  obtain ⟨houtcome, hworld, -⟩ := h.identically ⟨rfl, hw⟩
  exact Prod.ext houtcome hworld

/-- The evaluator of a context and the one that is watched give the same
answers. -/
theorem accord_watched {watch : Watch} (hpasses : watch.Passes) (n : Nat)
    (ctx : ContextId) :
    Accord (Conduct.memory n).course (Eval.evaluate ctx)
      (Eval.watchedEvaluate watch ctx) (Expr.All (Value.Below [] n)) where
  store h := congrArg World.store h.1
  note _ _ message :=
    Eval.Coincides.mirrors (fun _ => rfl) (Eval.memory_note message)
  operand w _ _ he :=
    (Eval.coincides_expr hpasses (Eval.memory_markupWithin _)
      (Eval.coincides_markupWithin hpasses _) he w).mirrors
      (Eval.memory_expr (Eval.memory_markupWithin _) he w)

end

-- ================================================================= acts

namespace Act

variable {w : World} {watch : Watch} {a : Act}

/-- An act behaves if what it mentions is there. -/
theorem memory_run (ha : a.Meets w.Knows) :
    Behaves (.memory w.store.size) Anything a.run w := by
  cases a with
  | evaluate ctx e =>
    exact .mono (fun _ _ _ _ => trivial)
      ((evaluates_memory w.store.size ctx).operand w e ha)
  | renderIn ctx t =>
    exact .bind ((evaluates_memory w.store.size ctx).renderIn
      (fun _ _ => trivial) ha) fun _ _ _ (_ : Anything _ _) => .pure trivial
  | render assigns environments strict t =>
    obtain ⟨hassigns, henvironments, ht⟩ := ha
    exact .bind (Eval.memory_render hassigns henvironments strict ht)
      fun _ _ _ (_ : Anything _ _) => .pure trivial

/-- An act is done alike when all steps are watched. -/
theorem coincides_watched (hpasses : watch.Passes)
    (ha : a.Meets w.Knows) :
    Eval.Coincides w.store.size a.run (a.watched watch) w := by
  have haccord := accord_watched hpasses w.store.size
  rw [← runBy_evaluate, watched]
  cases a with
  | evaluate ctx e =>
    exact Eval.coincides_of_mirrors ((haccord ctx).operand w w e ha)
  | renderIn ctx t =>
    exact .bind_left (Eval.coincides_of_mirrors ((haccord ctx).renderIn ha))
  | render assigns environments strict t =>
    obtain ⟨hassigns, henvironments, ht⟩ := ha
    refine .bind_right (Eval.memory_newContext
      (Eval.knows_environments hassigns henvironments) strict)
      fun ctx u _ _ => ?_
    exact .bind_left (Eval.coincides_of_mirrors ((haccord ctx).renderIn ht))

/-- What is there for an act stays there. -/
theorem Meets.mono {P P' : Value → Prop} (hP : ∀ v, P v → P' v)
    (ha : a.Meets P) : a.Meets P' := by
  have hall {t : Template}
      (ht : ∀ n ∈ t.nodes, n.Meets (Expr.All P) fun _ => True) :
      ∀ n ∈ t.nodes, n.Meets (Expr.All P') fun _ => True :=
    fun n hn => (ht n hn).mono (fun _ => Expr.All.mono hP) fun _ => id
  cases a with
  | evaluate ctx e => exact Expr.All.mono hP ha
  | renderIn ctx t => exact hall ha
  | render assigns environments strict t =>
    exact ⟨fun v hv => hP v (ha.1 v hv), fun v hv => hP v (ha.2.1 v hv),
      hall ha.2.2⟩

/-- Whatever is done with shared data, and in whatever contexts, a step of
a path never asks a drop that is bound to another context than that of the
path, or to none: watching out for such drops makes no difference, neither
to an outcome nor to the world. The drops in the data stay as they are. -/
theorem runAll_watched (hw : w.WellFormed) (hpasses : watch.Passes)
    {acts : List Act} (hacts : ∀ a ∈ acts, a.Meets w.Knows) :
    runAll (watched watch) acts w = runAll run acts w ∧
      ∀ v d, w.store.object? v = some (.drop d) →
        (runAll run acts w).2.store.object? v = some (.drop d) := by
  induction acts generalizing w with
  | nil => exact ⟨by simp only [runAll], fun _ _ hd => hd⟩
  | cons a rest ih =>
    obtain ⟨ha, hrest⟩ := List.forall_mem_cons.1 hacts
    have hholds : (Conduct.memory w.store.size).holds w :=
      ⟨hw, Nat.le_refl _⟩
    obtain ⟨⟨forced, hevolves⟩, ⟨hw', hsize⟩, -⟩ := memory_run ha hholds
    obtain ⟨heq, hdrops⟩ := ih hw' fun a' ha' =>
      (hrest a' ha').mono fun _ hv => hv.mono hsize
    refine ⟨?_, fun v d hd => hdrops v d ?_⟩
    · simp only [runAll, coincides_watched hpasses ha hholds, heq]
    · exact hevolves.memoised.objects.object?_other hd
        (fun _ heq => by cases heq) fun _ heq => by cases heq

/-- A deferred value that answers with a drop, rendered twice: the copy that
the first render has bound is remembered in the data, and the second one
asks a copy of its own. -/
theorem runAll_watched_twice :
    ∃ (w : World) (t : Template) (acts : List Act),
      (Template.parse .standard .lax "{{ l.me.name }}"
        (.fresh false)).1 = .ok t ∧
      acts = [.render none [.object 0] true t,
        .render none [.object 0] true t] ∧
      w.store.objects = #[
        .table [(.text "d", .object 1), (.text "l", .object 2)],
        .drop ⟨"D", [("me", .itself), ("name", .method (.text "Dora"))],
          none⟩,
        .deferred ⟨"l", .function, .read "d"⟩] ∧
      ((runAll run acts w).1.map Except.toOption =
          [some (.text "Dora"), some (.text "Dora")] ∧
        (runAll run acts w).2.store.get? 0 =
          some (.table [(.text "d", .object 1), (.text "l", .object 4)]) ∧
        ((runAll run acts w).2.store.drop? (.object 4)).map Drop.bound =
          some (some 0)) ∧
      runAll (watched (.alarm .notSupported)) acts w = runAll run acts w ∧
      ∀ v d, w.store.object? v = some (.drop d) →
        (runAll run acts w).2.store.object? v = some (.drop d) := by
  let w : World := ⟨⟨#[
      .table [(.text "d", .object 1), (.text "l", .object 2)],
      .drop ⟨"D", [("me", .itself), ("name", .method (.text "Dora"))], none⟩,
      .deferred ⟨"l", .function, .read "d"⟩]⟩,
    #[], [], .fresh false⟩
  let acts (t : Template) : List Act :=
    [.render none [.object 0] true t, .render none [.object 0] true t]
  have hw : w.WellFormed := by decide +kernel
  have hrun : (Template.parse .standard .lax "{{ l.me.name }}"
      (.fresh false)).1.toOption.map (fun t => decide (
        (runAll run (acts t) w).1.map Except.toOption =
          [some (.text "Dora"), some (.text "Dora")] ∧
        (runAll run (acts t) w).2.store.get? 0 =
          some (.table [(.text "d", .object 1), (.text "l", .object 4)]) ∧
        ((runAll run (acts t) w).2.store.drop? (.object 4)).map Drop.bound =
          some (some 0))) = some true := by
    decide +kernel
  -- the template is whatever reading answers, and reading answers
  generalize hparsed : (Template.parse .standard .lax
    "{{ l.me.name }}" (.fresh false)).1 = read at hrun
  cases read with
  | error f => cases hrun
  | ok t =>
    have hdata : w.Knows (.object 0) := Value.below_object.2 (by decide)
    have hact : (Act.render none [.object 0] true t).Meets w.Knows :=
      ⟨(fun _ hv => nomatch hv), List.forall_mem_singleton.2 hdata,
        Template.knows_of_parse hparsed w⟩
    have hacts : ∀ a ∈ acts t, a.Meets w.Knows :=
      List.forall_mem_cons.2 ⟨hact, List.forall_mem_singleton.2 hact⟩
    exact ⟨w, t, acts t, rfl, rfl, rfl,
      of_decide_eq_true (Option.some.inj hrun),
      runAll_watched hw (Watch.passes_alarm .notSupported) hacts⟩

end Act

end Stencil
