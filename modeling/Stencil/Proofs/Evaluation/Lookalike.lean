/-
What evaluation sees of the layers of a context.

Names are looked up in layers, and nothing else is asked of them. So where
no data are deferred and none are drops, two contexts are alike to
evaluation if both are strict or neither is, and the first layer that holds
a name holds the same value in both (`Lookalike`), for each name that is
looked up. Neither how many layers there are makes a difference, nor which
of them holds the name, nor what else they hold. From worlds that differ in
nothing but their contexts, expressions are then evaluated alike in the one
context and the other (`beside_expr`), and so are conditions and templates,
up to the worlds that are left.

The names that are looked up are the roots of paths. Those that stand in
the markup as constants are known beforehand; where a root is evaluated,
its name can be any value.
-/
import Stencil.Proofs.Evaluation.Evaluators
import Stencil.Proofs.Evaluation.Memory
import Stencil.Proofs.Store.Layers

namespace Stencil

-- ================================================================ roots

mutual

/-- All roots of the paths in an expression meet a condition. -/
def Expr.Roots (S : Expr → Prop) : Expr → Prop
  | .const _ => True
  | .path p => p.Roots S
  | .range first last => first.Roots S ∧ last.Roots S

/-- All roots in a path meet a condition. -/
def Path.Roots (S : Expr → Prop) : Path → Prop
  | .root name => S name ∧ name.Roots S
  | .step path key _ => path.Roots S ∧ key.Roots S

end

mutual

/-- Whether all roots in an expression meet a condition is found out from
one to the next. -/
def Expr.decidableRoots (S : Expr → Prop) [DecidablePred S] :
    ∀ e : Expr, Decidable (e.Roots S)
  | .const _ => .isTrue True.intro
  | .path p => Path.decidableRoots S p
  | .range first last =>
    @instDecidableAnd _ _ (first.decidableRoots S) (last.decidableRoots S)

def Path.decidableRoots (S : Expr → Prop) [DecidablePred S] :
    ∀ p : Path, Decidable (p.Roots S)
  | .root name => @instDecidableAnd (S name) _ inferInstance
    (name.decidableRoots S)
  | .step path key _ =>
    @instDecidableAnd _ _ (path.decidableRoots S) (key.decidableRoots S)

end

instance (S : Expr → Prop) [DecidablePred S] (e : Expr) :
    Decidable (e.Roots S) :=
  e.decidableRoots S

mutual

theorem Expr.Roots.of_all {S : Expr → Prop} (hS : ∀ root, S root) :
    ∀ e : Expr, e.Roots S
  | .const _ => True.intro
  | .path p => Path.Roots.of_all hS p
  | .range first last => ⟨.of_all hS first, .of_all hS last⟩

theorem Path.Roots.of_all {S : Expr → Prop} (hS : ∀ root, S root) :
    ∀ p : Path, p.Roots S
  | .root name => ⟨hS name, Expr.Roots.of_all hS name⟩
  | .step path key _ =>
    ⟨Path.Roots.of_all hS path, Expr.Roots.of_all hS key⟩

end

/-- A root is a constant name of a kind, or all values are of that kind. -/
def Expr.Names (N : Value → Prop) (root : Expr) : Prop :=
  (∃ name, root = .const name ∧ N name) ∨ ∀ name, N name

-- =========================================================== lookalikes

/-- Two lists of layers have the same values for names of a kind, in all
stores of a kind. A store is still one of that kind when an entry of a
table has been put into a list. -/
structure Lookalike (holds : Store → Prop) (N : Value → Prop)
    (layers layers' : List Value) : Prop where
  make : ∀ {store k x}, holds store → store.Inert k → store.Inert x →
    holds (store.alloc (.list [k, x])).2
  drop : ∀ {store}, holds store → ∀ v ∈ layers, store.drop? v = none
  drop' : ∀ {store}, holds store → ∀ v ∈ layers', store.drop? v = none
  inert : ∀ {store name x}, holds store → store.Has [] name → N name →
    store.lookUp? layers name = some x → store.Inert x
  same : ∀ {store name}, holds store → store.Has [] name → N name →
    store.lookUp? layers name = store.lookUp? layers' name

theorem Lookalike.symm {holds : Store → Prop} {N : Value → Prop}
    {layers layers' : List Value} (h : Lookalike holds N layers layers') :
    Lookalike holds N layers' layers where
  make := h.make
  drop := h.drop'
  drop' := h.drop
  inert hstore hname hN hx :=
    h.inert hstore hname hN ((h.same hstore hname hN).trans hx)
  same hstore hname hN := (h.same hstore hname hN).symm

/-- The second world is the first one with other contexts. In one context
of each, names are looked up in the given layers, and both are strict or
neither is. -/
structure World.Beside (holds : Store → Prop) (ctx ctx' : ContextId)
    (layers layers' : List Value) (w w' : World) : Prop where
  rest : w' = { w with contexts := w'.contexts }
  layers : (w.context ctx).layers = layers
  layers' : (w'.context ctx').layers = layers'
  strict : (w'.context ctx').strict = (w.context ctx).strict
  holds : holds w.store

namespace World.Beside

variable {holds : Store → Prop} {ctx ctx' : ContextId}
  {layers layers' : List Value} {w w' : World}

theorem store (h : w.Beside holds ctx ctx' layers layers' w') :
    w'.store = w.store := by
  rw [h.rest]

/-- A change that the contexts have no part in is made to both worlds. -/
theorem change (h : w.Beside holds ctx ctx' layers layers' w')
    {f : World → World}
    (hf : ∀ u contexts,
      f { u with contexts := contexts } = { f u with contexts := contexts })
    (hstore : holds (f w).store) :
    (f w).Beside holds ctx ctx' layers layers' (f w') := by
  have hcontexts (u : World) : (f u).contexts = u.contexts := by
    have hu := congrArg World.contexts (hf u u.contexts)
    exact hu
  refine ⟨?_, ?_, ?_, ?_, hstore⟩
  · rw [hcontexts]
    exact (congrArg f h.rest).trans (hf w w'.contexts)
  · rw [World.context, hcontexts]
    exact h.layers
  · rw [World.context, hcontexts]
    exact h.layers'
  · rw [World.context, World.context, hcontexts, hcontexts]
    exact h.strict

theorem symm (h : w.Beside holds ctx ctx' layers layers' w') :
    w'.Beside holds ctx' ctx layers' layers w where
  rest := by rw [h.rest]
  layers := h.layers'
  layers' := h.layers
  strict := h.strict.symm
  holds := h.store ▸ h.holds

end World.Beside

/-- Two runs in contexts that are alike, in worlds that differ in their
contexts. The contexts stay what they are, and so does what is inert. -/
def Course.beside (holds : Store → Prop) (ctx ctx' : ContextId)
    (layers layers' : List Value) : Course World where
  related := World.Beside holds ctx ctx' layers layers'
  later w u := u.contexts = w.contexts ∧
    ∀ v, w.store.Inert v → u.store.Inert v
  refl _ := ⟨rfl, fun _ hv => hv⟩
  trans _ h h' := ⟨h'.1.trans h.1, fun v hv => h'.2 v (h.2 v hv)⟩

namespace Eval

section

variable {w : World} {reenter : Reenter} {ctx : ContextId} {v key : Value}

-- ========================================== reading without evaluating

/-- A part that is not deferred is fetched. -/
theorem forcedPart_of_fetch (hdrop : w.store.drop? v = none)
    (h : ∀ x, w.store.fetch v key = .ok x → w.store.deferred? x = none) :
    forcedPart reenter ctx v key w = (w.store.fetch v key, w) := by
  rw [forcedPart, bind_apply, part_of_fetch hdrop]
  cases hfetch : w.store.fetch v key with
  | error f => rfl
  | ok x =>
    dsimp only
    rw [store_bind_apply, h x hfetch]
    rfl

/-- Inert data are received as what they stand for. -/
theorem receive_of_inert (hv : w.store.Inert v) :
    receive reenter ctx v w = (.ok (w.store.standIn v), w) := by
  have hvalue : toTemplateValue reenter v w =
      (.ok (w.store.standIn v), w) := by
    rw [toTemplateValue, store_bind_apply, Store.standIn]
    cases ho : w.store.object? v with
    | none => rfl
    | some o =>
      cases o with
      | drop d => cases hv.not_acts ho
      | _ => rfl
  have hbind : Eval.bind ctx (w.store.standIn v) w =
      (.ok (w.store.standIn v), w) := by
    rw [Eval.bind, store_bind_apply]
    cases ho : w.store.object? (w.store.standIn v) with
    | none => rfl
    | some o =>
      cases o with
      | drop d => cases hv.standIn.not_acts ho
      | _ => rfl
  rw [receive, bind_apply, hvalue]
  exact hbind

end

-- ========================================================= side by side

section

variable {holds : Store → Prop} {N : Value → Prop} {ctx ctx' : ContextId}
  {layers layers' : List Value} {w w' : World} {α : Type}

/-- The same answer is given, and it is inert. -/
abbrev Inertly : World → Value → Value → Prop := fun t a b =>
  b = a ∧ t.store.Inert a

/-- The same answer is given, and it is inert if it is a value. -/
abbrev Inertly? : World → Option Value → Option Value → Prop := fun t a b =>
  b = a ∧ ∀ v ∈ a, t.store.Inert v

/-- Two actions do alike in worlds that differ in their contexts. -/
abbrev BesideDoes (holds : Store → Prop) (ctx ctx' : ContextId)
    (layers layers' : List Value) (Q : World → α → α → Prop)
    (x y : Eval α) (w w' : World) : Prop :=
  Mirrors (Course.beside holds ctx ctx' layers layers') Q x y w w'

theorem beside_note (message : Store → Except Failure String) :
    BesideDoes holds ctx ctx' layers layers' Identically (note message)
      (note message) w w' :=
  .modify fun h => ⟨⟨rfl, fun _ hv => hv⟩, h.change (f := fun u =>
    { u with
      journal := u.journal.noteWritten fun _ =>
        (message u.store).toOption })
    (fun _ _ => rfl) h.holds, rfl⟩

/-- The objects may be looked at: they are the same. -/
theorem beside_store_bind {Q : World → α → α → Prop} {f g : Store → Eval α}
    (hf : BesideDoes holds ctx ctx' layers layers' Q (f w.store)
      (g w.store) w w') :
    BesideDoes holds ctx ctx' layers layers' Q (store >>= f) (store >>= g)
      w w' := by
  intro h
  have hright : (store >>= g) w' = g w.store w' :=
    congrArg (g · w') h.store
  rw [hright]
  exact hf h

/-- What was found without the world is the same in both. -/
theorem beside_ofExcept {Q : World → α → α → Prop} (r : Except Failure α)
    (hr : ∀ a, r = .ok a → Q w a a) :
    BesideDoes holds ctx ctx' layers layers' Q (ofExcept r) (ofExcept r)
      w w' := by
  refine .ofExcept ?_
  cases r with
  | ok a => exact .ok (hr a rfl)
  | error f => exact .error f

/-- Actions that change nothing, with the same outcome. -/
theorem beside_of_apply {Q : World → α → α → Prop} {x y : Eval α}
    {r : Except Failure α} (hx : x w = (r, w)) (hy : y w' = (r, w'))
    (hr : ∀ a, r = .ok a → Q w a a) :
    BesideDoes holds ctx ctx' layers layers' Q x y w w' := by
  intro h
  rw [hx, hy]
  refine ⟨⟨rfl, fun _ hv => hv⟩, h, ?_⟩
  cases r with
  | ok a => exact .ok (hr a rfl)
  | error f => exact .error f

variable {reenter : Reenter} {v key : Value}

theorem beside_forcedPart (hdrop : w.store.drop? v = none)
    (hparts : ∀ x, w.store.fetch v key = .ok x → w.store.Inert x) :
    BesideDoes holds ctx ctx' layers layers' Inertly
      (forcedPart reenter ctx v key) (forcedPart reenter ctx' v key)
      w w' := by
  have hdeferred : ∀ x, w.store.fetch v key = .ok x →
      w.store.deferred? x = none :=
    fun x hx => (hparts x hx).deferred?_eq_none
  refine .assume fun h => ?_
  refine beside_of_apply (forcedPart_of_fetch hdrop hdeferred) ?_
    fun x hx => ⟨rfl, hparts x hx⟩
  rw [← h.store] at hdrop hdeferred ⊢
  exact forcedPart_of_fetch hdrop hdeferred

theorem beside_receive (hv : w.store.Inert v) :
    BesideDoes holds ctx ctx' layers layers' Inertly
      (receive reenter ctx v) (receive reenter ctx' v) w w' := by
  refine .assume fun h => ?_
  refine beside_of_apply (receive_of_inert hv) ?_ fun x hx => ⟨rfl, ?_⟩
  · rw [← h.store] at hv ⊢
    exact receive_of_inert hv
  · cases hx
    exact hv.standIn

/-- The failure of a name that is not defined: it tells the name, if that
can be written. -/
def undefined (store : Store) (name : Value) : Failure :=
  if store.isWritable name then
    .undefinedVariable (store.datum name).print
  else .tooManyDigits

/-- A name that no layer holds is not defined, if the context is strict, and
else stands for nil. -/
theorem findVariable_of_none {name : Value}
    (hfind : (w.context ctx).layers.find?
      (fun v => w.store.hasKey v name) = none) :
    (findVariable reenter ctx name w).1 =
      if (w.context ctx).strict then .error (undefined w.store name)
      else .ok .nil := by
  rw [findVariable, get_bind_apply, hfind]
  dsimp only
  rw [note_bind_apply, undefined, Store.print, written]
  split
  · split <;> rfl
  · rfl

/-- A name stands for the same value in both, or for none. -/
theorem beside_findVariable (hlayers : Lookalike holds N layers layers')
    {name : Value} (hname : w.store.Has [] name) (hN : N name) :
    BesideDoes holds ctx ctx' layers layers' Inertly
      (findVariable reenter ctx name) (findVariable reenter ctx' name)
      w w' := by
  refine .assume fun h => .get_bind ?_
  rw [h.layers, h.layers', h.store]
  have hsame := hlayers.same h.holds hname hN
  rcases Store.lookUp?_cases (hlayers.drop h.holds) name with
    ⟨hfind, hnone⟩ | ⟨layer, x, hfind, hsome, hdrop, hfetch⟩
  · rcases Store.lookUp?_cases (hlayers.drop' h.holds) name with
      ⟨hfind', -⟩ | ⟨_, _, -, hsome', -⟩
    · rw [hfind, hfind']
      refine .bind (beside_note _) fun t t' _ _ _ _ => ?_
      rw [h.strict]
      split
      · exact .refuse _ _
      · exact .pure ⟨rfl, .of_scalar Value.isScalar_nil⟩
    · rw [← hsame, hnone] at hsome'
      cases hsome'
  · rcases Store.lookUp?_cases (hlayers.drop' h.holds) name with
      ⟨-, hnone'⟩ | ⟨layer', x', hfind', hsome', hdrop', hfetch'⟩
    · rw [← hsame, hsome] at hnone'
      cases hnone'
    · rw [hfind, hfind']
      obtain rfl : x = x' :=
        Option.some.inj (hsome.symm.trans (hsame.trans hsome'))
      have hx := hlayers.inert h.holds hname hN hsome
      -- the layers differ, but what is fetched from them is one value
      have hpart : BesideDoes holds ctx ctx' layers layers' Inertly
          (forcedPart reenter ctx layer name)
          (forcedPart reenter ctx' layer' name) w w' := by
        have hdeferred := hx.deferred?_eq_none
        refine beside_of_apply (r := .ok x) ?_ ?_ fun y hy => ?_
        · rw [← hfetch]
          refine forcedPart_of_fetch hdrop fun y hy => ?_
          cases hfetch.symm.trans hy
          exact hdeferred
        · rw [← h.store] at hdrop' hfetch' hdeferred
          rw [← hfetch']
          refine forcedPart_of_fetch hdrop' fun y hy => ?_
          cases hfetch'.symm.trans hy
          exact hdeferred
        · cases hy
          exact ⟨rfl, hx⟩
      refine .bind hpart ?_
      rintro t t' _ y - ⟨rfl, hy⟩
      refine .bind (beside_note _) fun u u' _ _ hlater _ => ?_
      exact beside_receive (hlater.2 _ hy)

/-- A command of inert data is answered alike, and the same object is made
for it. -/
theorem beside_command (hlayers : Lookalike holds N layers layers')
    (hv : w.store.Inert v) {command : Command}
    {answer : Except Failure Value} {store : Store}
    (h : w.store.command? v command = some (answer, store)) :
    BesideDoes holds ctx ctx' layers layers'
      (fun t _ _ => ∀ x, answer = .ok x → t.store.Inert x)
      (modify fun u => { u with store := store } : Eval PUnit)
      (modify fun u => { u with store := store } : Eval PUnit) w w' := by
  refine .modify fun hw => ?_
  have hchange (hstore : holds store) :=
    hw.change (f := fun u => { u with store := store }) (fun _ _ => rfl)
      hstore
  rcases hv.command? h with ⟨rfl, hanswer⟩ | ⟨k, x, hk, hx, rfl, rfl⟩
  · exact ⟨⟨rfl, fun _ hy => hy⟩, hchange hw.holds, hanswer⟩
  · obtain ⟨hnew, hold⟩ := Store.Inert.alloc (o := .list [k, x]) rfl
      (List.forall_mem_cons.2 ⟨hk, List.forall_mem_singleton.2 hx⟩)
    refine ⟨⟨rfl, hold⟩, hchange (hlayers.make hw.holds hk hx),
      fun y hy => ?_⟩
    cases hy
    exact hnew

/-- A step from inert data leads to the same inert value in both, or fails
alike, or leads nowhere in both. -/
theorem beside_stepFrom (hlayers : Lookalike holds N layers layers')
    (whole : Path) (hv : w.store.Inert v)
    (command : Option Command) :
    BesideDoes holds ctx ctx' layers layers' Inertly?
      (stepFrom reenter ctx whole v key command)
      (stepFrom reenter ctx' whole v key command) w w' := by
  have hreceive {x : Value} {t t' : World} (hx : t.store.Inert x) :
      BesideDoes holds ctx ctx' layers layers' Inertly?
        (do return some (← receive reenter ctx x))
        (do return some (← receive reenter ctx' x)) t t' := by
    refine .bind (beside_receive hx) ?_
    rintro u u' _ y - ⟨rfl, hy⟩
    exact .pure ⟨rfl, fun z hz => Option.some.inj hz ▸ hy⟩
  refine beside_store_bind ?_
  dsimp only
  split
  · refine .bind (beside_forcedPart hv.drop?_eq_none
      fun x hx => hv.fetch hx) ?_
    rintro t t' _ x - ⟨rfl, hx⟩
    exact hreceive hx
  · split
    · next answer store hcommand =>
      obtain ⟨c, -, hcommand⟩ := Option.bind_eq_some_iff.1 hcommand
      refine .bind (beside_command hlayers hv hcommand) ?_
      rintro t t' - - - hanswer
      refine .bind (beside_ofExcept (Q := Inertly) answer
        fun x hx => ⟨rfl, hanswer x hx⟩) ?_
      rintro u u' _ x - ⟨rfl, hx⟩
      exact hreceive hx
    · refine .bind (beside_note _) fun t t' _ _ _ _ => ?_
      refine .assume fun ht => .get_bind ?_
      rw [ht.strict]
      split
      · exact .refuse _ _
      · exact .pure ⟨rfl, fun z hz => by cases hz⟩

variable {K : Value → Prop} {S : Expr → Prop}

mutual

/-- An expression is evaluated to the same value in both, or fails
alike. -/
theorem beside_expr (hlayers : Lookalike holds N layers layers')
    (hK : ∀ {v store}, K v → holds store → store.Inert v)
    (hS : ∀ root : Expr, root.All K → S root → root.Names N) :
    ∀ {e : Expr}, e.All K → e.Roots S → ∀ w w',
      BesideDoes holds ctx ctx' layers layers' Inertly
        (expr reenter ctx e) (expr reenter ctx' e) w w'
  | .const _, hv, _, _, _ => .assume fun h => .pure ⟨rfl, hK hv h.holds⟩
  | .path p, hp, hroots, w, w' => by
    refine .bind (beside_path hlayers hK hS _ hp hroots w w') ?_
    rintro t t' _ r - ⟨rfl, hr⟩
    split
    · next v =>
      exact .bind (beside_note _) fun u u' _ _ hlater _ =>
        .pure ⟨rfl, hlater.2 v (hr v rfl)⟩
    · exact .pure ⟨rfl, .of_scalar Value.isScalar_nil⟩
  | .range first last, ⟨hfirst, hlast⟩, ⟨hroots, hroots'⟩, w, w' => by
    have hinteger (v : Value) (t t' : World) :
        BesideDoes holds ctx ctx' layers layers' Identically
          (ofExcept (v.toInteger t.store.display))
          (ofExcept (v.toInteger t.store.display)) t t' :=
      beside_ofExcept _ fun _ _ => rfl
    refine .bind (beside_expr hlayers hK hS hfirst hroots w w') ?_
    rintro t t' _ a - ⟨rfl, -⟩
    refine beside_store_bind (.bind (hinteger a t t') ?_)
    rintro t t' _ first - rfl
    refine .bind (beside_expr hlayers hK hS hlast hroots' t t') ?_
    rintro u u' _ b - ⟨rfl, -⟩
    refine beside_store_bind (.bind (hinteger b u u') ?_)
    rintro u u' _ last - rfl
    exact .pure ⟨rfl, .of_scalar fun i hi => by cases hi⟩

/-- A path leads to the same value in both, or nowhere in both. -/
theorem beside_path (hlayers : Lookalike holds N layers layers')
    (hK : ∀ {v store}, K v → holds store → store.Inert v)
    (hS : ∀ root : Expr, root.All K → S root → root.Names N)
    (whole : Path) :
    ∀ {p : Path}, p.All K → p.Roots S → ∀ w w',
      BesideDoes holds ctx ctx' layers layers' Inertly?
        (path reenter ctx whole p) (path reenter ctx' whole p) w w'
  | .root name, hname, ⟨hroot, hroots⟩, w, w' => by
    have hnames : BesideDoes holds ctx ctx' layers layers'
        (fun t a b => Inertly t a b ∧ N a)
        (expr reenter ctx name) (expr reenter ctx' name) w w' := by
      rcases hS name hname hroot with ⟨v, rfl, hN⟩ | hN
      · exact .assume fun h => .pure ⟨⟨rfl, hK hname h.holds⟩, hN⟩
      · exact .mono (fun t a b _ hab => ⟨hab, hN a⟩)
          (beside_expr hlayers hK hS hname hroots w w')
    refine .bind hnames ?_
    rintro t t' _ a - ⟨⟨rfl, ha⟩, hN⟩
    refine .bind (beside_findVariable hlayers ha.has hN) ?_
    rintro u u' _ v - ⟨rfl, hv⟩
    exact .pure ⟨rfl, fun z hz => Option.some.inj hz ▸ hv⟩
  | .step p key command, ⟨hp, hkey⟩, ⟨hroots, hroots'⟩, w, w' => by
    refine .bind (beside_path hlayers hK hS whole hp hroots w w') ?_
    rintro t t' _ r - ⟨rfl, hr⟩
    cases r with
    | none => exact .pure ⟨rfl, fun v hv => by cases hv⟩
    | some v =>
      refine .bind (beside_expr hlayers hK hS hkey hroots' t t') ?_
      rintro u u' _ k hlater ⟨rfl, -⟩
      exact beside_stepFrom hlayers whole (hlater.2 v (hr v rfl)) command

end

end

end Eval

/-- In contexts that are alike, operands are evaluated alike. -/
theorem accord_beside {holds : Store → Prop} {N K : Value → Prop}
    {S : Expr → Prop} {layers layers' : List Value}
    (hlayers : Lookalike holds N layers layers')
    (hK : ∀ {v store}, K v → holds store → store.Inert v)
    (hS : ∀ root : Expr, root.All K → S root → root.Names N)
    (ctx ctx' : ContextId) :
    Accord (Course.beside holds ctx ctx' layers layers')
      (Eval.evaluate ctx) (Eval.evaluate ctx')
      fun e => e.All K ∧ e.Roots S where
  store h := h.store
  note _ _ message := Eval.beside_note message
  operand w w' _ he :=
    .mono (fun _ _ _ _ hab => hab.1)
      (Eval.beside_expr hlayers hK hS he.1 he.2 w w')

end Stencil
