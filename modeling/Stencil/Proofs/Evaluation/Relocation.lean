/-
Evaluation does not depend on where objects stand.

From a world and the same world with its objects moved, evaluation gives
the same answers, moved, or the same failures (`mirrors_evaluate`). There
is one lemma for each action of the evaluator, in the order in which they
are built from each other. Calls and notes are left out of the relation:
no answer depends on them.

The worlds may differ in one more way. Where a root holds a deferred
value in the first one, the second may hold what it yields. Then the
first run forces the value and remembers it, the second finds it, and
from there on the roots agree (`mirrors_root`). This is the only place
where anything is remembered: in other tables and in lists no deferred
value stands.

Only conditions ask for more. To find out what a list contains its output
may have to be written, and for that the stores must have been built from
the inside out.
-/
import Stencil.Condition.Evaluation
import Stencil.Proofs.Evaluation.Mirroring
import Stencil.Proofs.Evaluation.Remembering
import Stencil.Proofs.Expr.Scalars
import Stencil.Proofs.Store.Roots

namespace Stencil

section

variable (f : ObjectId → ObjectId) (g : ContextId → ContextId)
  (roots : List ObjectId) (built : Prop)

-- ============================================================== worlds

/-- A value that names may be looked up in: a root, or an object that is
there, or none. -/
def Store.Layer (store : Store) (v : Value) : Prop :=
  store.Has roots v ∨ ∃ i ∈ roots, v = .object i

/-- A world is another one with its objects and contexts moved. -/
structure World.Moved (w w' : World) : Prop where
  store : Store.Moved f g roots built w.store w'.store
  injective : Function.Injective g
  layers : ∀ ctx, (w'.context (g ctx)).layers =
    (w.context ctx).layers.map (Value.move f)
  strict : ∀ ctx, (w'.context (g ctx)).strict = (w.context ctx).strict
  there : ∀ ctx, ∀ v ∈ (w.context ctx).layers, w.store.Layer roots v

/-- A later world: a later store, and the same contexts. -/
structure World.Later (w later : World) : Prop where
  store : Store.Later roots w.store later.store
  contexts : later.contexts = w.contexts

/-- Two runs on worlds of which the second is the first one moved. -/
def World.course : Course World where
  related := World.Moved f g roots built
  later := World.Later roots
  refl h := ⟨h.store.later_refl, rfl⟩
  trans h h₁ h₂ :=
    ⟨h₁.store.trans h₂.store h.store.closed h.store.steady,
      h₂.contexts.trans h₁.contexts⟩

/-- A value is there in the first world, and the other one is that value
moved. -/
def Carried (w : World) (v v' : Value) : Prop :=
  w.store.Has roots v ∧ v' = v.move f

end

section

variable {f : ObjectId → ObjectId} {g : ContextId → ContextId}
  {roots : List ObjectId} {built : Prop}

/-- Scalars are carried as they are. -/
theorem Carried.scalar {w : World} {v : Value} (hv : v.IsScalar) :
    Carried f roots w v v :=
  ⟨hv.below _ _, (Value.move_eq_self hv).symm⟩

theorem Store.Layer.later {store later : Store}
    (h : Store.Later roots store later) {v : Value}
    (hv : store.Layer roots v) : later.Layer roots v :=
  hv.imp_left h.has

/-- A context that is not there has no layers. -/
theorem World.context_of_ge {w : World} {ctx : ContextId}
    (h : w.contexts.size ≤ ctx) : w.context ctx = ⟨[], [], false⟩ := by
  rw [context, Array.getElem?_eq_none h]
  rfl

theorem World.Later.context {w later : World} (h : w.Later roots later)
    (ctx : ContextId) : later.context ctx = w.context ctx := by
  rw [World.context, World.context, h.contexts]

/-- Worlds stay moved when only their stores go on, the second one as the
first one moved. -/
theorem World.Moved.of_store {w w' u u' : World}
    (h : w.Moved f g roots built w')
    (hstore : Store.Moved f g roots built u.store u'.store)
    (hlater : w.Later roots u) (hcontexts : u'.contexts = w'.contexts) :
    u.Moved f g roots built u' := by
  have hctx (ctx : ContextId) : u'.context ctx = w'.context ctx := by
    rw [World.context, World.context, hcontexts]
  refine ⟨hstore, h.injective, fun ctx => ?_, fun ctx => ?_,
    fun ctx v hv => ?_⟩
  · rw [hctx, hlater.context, h.layers]
  · rw [hctx, hlater.context, h.strict]
  · rw [hlater.context] at hv
    exact (h.there ctx v hv).later hlater.store

namespace Eval

variable {w w' : World} {reenter : Reenter}

/-- An action on worlds is mirrored. -/
abbrev MirrorsMoved (f : ObjectId → ObjectId) (g : ContextId → ContextId)
    (roots : List ObjectId) (built : Prop) {α β : Type}
    (Q : World → α → β → Prop) (x : Eval α) (y : Eval β)
    (w w' : World) : Prop :=
  Mirrors (World.course f g roots built) Q x y w w'

/-- An action is mirrored, and the answers are one value, moved. -/
abbrev Carries (f : ObjectId → ObjectId) (g : ContextId → ContextId)
    (roots : List ObjectId) (built : Prop) (x y : Eval Value)
    (w w' : World) : Prop :=
  MirrorsMoved f g roots built (Carried f roots) x y w w'

/-- Going back to the start is mirrored, in the context moved. -/
abbrev Reenters (f : ObjectId → ObjectId) (g : ContextId → ContextId)
    (roots : List ObjectId) (built : Prop) (reenter : Reenter) : Prop :=
  ∀ ctx markup w w',
    Carries f g roots built (reenter ctx markup) (reenter (g ctx) markup)
      w w'

-- ======================================================= single steps

theorem mirrors_store_bind {α β : Type} {Q : World → α → β → Prop}
    {x : Store → Eval α} {y : Store → Eval β}
    (h : MirrorsMoved f g roots built Q (x w.store) (y w'.store) w w') :
    MirrorsMoved f g roots built Q (store >>= x) (store >>= y) w w' :=
  h

theorem mirrors_ofExcept {α β : Type} {Q : World → α → β → Prop}
    {r : Except Failure α} {r' : Except Failure β}
    (h : w.Moved f g roots built w' → Alike (Q w) r r') :
    MirrorsMoved f g roots built Q (ofExcept r) (ofExcept r') w w' :=
  .assume fun hm => .ofExcept (h hm)

/-- What was found without the world is the same. -/
theorem mirrors_outcome {α : Type} (r : Except Failure α) :
    MirrorsMoved f g roots built (fun _ => Eq) (ofExcept r) (ofExcept r)
      w w' := by
  refine mirrors_ofExcept fun _ => ?_
  cases r with
  | ok a => exact .ok rfl
  | error e => exact .error e

/-- Whatever is done to calls and journals, nothing comes of it. -/
theorem mirrors_modify {k k' : World → World}
    (hk : ∀ w, (k w).store = w.store ∧ (k w).contexts = w.contexts)
    (hk' : ∀ w, (k' w).store = w.store ∧ (k' w).contexts = w.contexts) :
    MirrorsMoved f g roots built (fun _ _ _ => True) (modify k) (modify k')
      w w' := by
  refine .modify fun hm => ?_
  obtain ⟨hstore, hcontexts⟩ := hk w
  obtain ⟨hstore', hcontexts'⟩ := hk' w'
  have hlater : w.Later roots (k w) :=
    ⟨hstore ▸ hm.store.later_refl, hcontexts⟩
  refine ⟨hlater, hm.of_store ?_ hlater hcontexts', trivial⟩
  rw [hstore, hstore']
  exact hm.store

theorem mirrors_note (message message' : Store → Except Failure String) :
    MirrorsMoved f g roots built (fun _ _ _ => True)
      (note message) (note message') w w' :=
  mirrors_modify (fun _ => ⟨rfl, rfl⟩) fun _ => ⟨rfl, rfl⟩

theorem mirrors_countCall (label label' : String) :
    MirrorsMoved f g roots built (fun _ _ _ => True)
      (countCall label) (countCall label') w w' :=
  mirrors_modify (fun _ => ⟨rfl, rfl⟩) fun _ => ⟨rfl, rfl⟩

/-- A new object is moved with its values. -/
theorem mirrors_alloc {o : Object}
    (ho : ∀ v ∈ o.values, w.store.Has roots v)
    (hslots : ∀ v ∈ o.slots, w.store.deferred? v = none) :
    Carries f g roots built (alloc o) (alloc (o.move f g)) w w' := by
  intro hm
  have hlater : w.Later roots (alloc o w).2 :=
    ⟨hm.store.later_refl.alloc o, rfl⟩
  exact ⟨hlater, hm.of_store (hm.store.alloc ho hslots) hlater rfl,
    .ok ⟨hm.store.has_alloc o, hm.store.alloc_fst o⟩⟩

/-- A deferred value is forced alike, if going back to markup is. -/
theorem mirrors_force {reenter reenter' : Reenter} {ctx ctx' : ContextId}
    {d : Deferred}
    (hread : ∀ markup, d.deed = .read markup → ∀ t t',
      Carries f g roots built (reenter ctx markup) (reenter' ctx' markup) t t')
    (hd : ∀ v ∈ d.deed.values, w.store.Has roots v) :
    Carries f g roots built (force reenter ctx d)
      (force reenter' ctx' (d.move f)) w w' := by
  refine .bind (mirrors_countCall _ _) fun t t' _ _ hlater _ => ?_
  obtain ⟨label, form, deed⟩ := d
  cases deed with
  | yield v =>
    exact .pure ⟨hlater.store.has (hd v (List.mem_singleton.2 rfl)), rfl⟩
  | read markup => exact hread markup rfl t t'
  | fail message => exact .throw _

/-- The same values can be called, and calling them is mirrored. -/
theorem call?_rel (hm : w.Moved f g roots built w') {v : Value}
    (hv : w.store.Has roots v) :
    Option.Rel (fun x y => Carries f g roots built x y w w')
      (call? w.store v) (call? w'.store (v.move f)) := by
  unfold call?
  rw [hm.store.object? hv]
  cases ho : w.store.object? v with
  | none => exact .none
  | some o =>
    cases o with
    | handle label =>
      exact .some (.pure (.scalar (Value.isScalar_text _)))
    | deferred d =>
      have hvalues : ∀ x ∈ d.deed.values, w.store.Has roots x :=
        fun x hx => hm.store.closed.has_of_object? ho hx
      obtain ⟨label, form, deed⟩ := d
      cases deed with
      | read markup => exact .some (.throw _)
      | _ => exact .some (mirrors_force (fun _ h => by cases h) hvalues)
    | _ => exact .none

-- =============================================================== drops

/-- A drop without a member of a name fails alike. -/
theorem mirrors_missing (d : Drop) {key : Value}
    (hkey : w.store.Has roots key) :
    Carries f g roots built (missing d key)
      (missing (d.move f g) (key.move f)) w w' := by
  refine Mirrors.assume fun hm => .get_bind ?_
  obtain ⟨label, members, bound⟩ := d
  cases bound with
  | none =>
    exact .pure (.scalar Value.isScalar_nil)
  | some ctx =>
    simp only [Drop.move, Option.map_some, hm.strict ctx,
      hm.store.print hkey]
    split
    · exact .refuse _ _
    · exact .pure (.scalar Value.isScalar_nil)

/-- A member of a drop answers alike. -/
theorem mirrors_answer (hre : Reenters f g roots built reenter) {self : Value}
    (d : Drop) {m : Member} (hself : w.store.Has roots self)
    (hmember : ∀ v ∈ m.values, w.store.Has roots v) :
    Carries f g roots built (answer reenter self d m)
      (answer reenter (self.move f) (d.move f g) (m.move f)) w w' := by
  refine Mirrors.assume fun hm => ?_
  cases m with
  | method v | data v =>
    exact .pure ⟨hmember v (List.mem_singleton.2 rfl), rfl⟩
  | property v =>
    have hv := hmember v (List.mem_singleton.2 rfl)
    refine mirrors_store_bind ?_
    have hcall := call?_rel hm hv
    generalize call? w.store v = called,
      call? w'.store (v.move f) = called' at hcall ⊢
    cases hcall with
    | some h => exact h
    | none => exact .pure ⟨hv, rfl⟩
  | reader markup =>
    obtain ⟨label, members, bound⟩ := d
    cases bound with
    | none => exact .throw _
    | some ctx => exact hre ctx markup w w'
  | itself => exact .pure ⟨hself, rfl⟩

theorem lookup_move (name : String) (members : List (String × Member)) :
    (members.map fun m => (m.1, m.2.move f)).lookup name =
      (members.lookup name).map (Member.move f) := by
  induction members with
  | nil => rfl
  | cons m members ih =>
    rw [List.map_cons, List.lookup_cons, List.lookup_cons]
    cases name == m.1 with
    | true => rfl
    | false => exact ih

theorem member?_move (d : Drop) (key : Value) :
    member? (d.move f g) (key.move f) =
      (member? d key).map (Member.move f) := by
  cases key with
  | text name =>
    simp only [Value.move, member?, Drop.move, lookup_move]
    split
    · cases d.members.lookup name with
      | none => rfl
      | some m => cases m <;> rfl
    · rfl
  | _ => rfl

theorem mayBeKey_move (hm : w.Moved f g roots built w') {key : Value}
    (hkey : w.store.Has roots key) :
    mayBeKey w'.store (key.move f) = mayBeKey w.store key := by
  unfold mayBeKey
  rw [hm.store.object? hkey, hm.store.isHashable hkey]
  cases w.store.object? key with
  | none => rfl
  | some o => cases o <;> rfl

/-- A drop answers a key alike. -/
theorem mirrors_ask (hre : Reenters f g roots built reenter)
    {self key : Value} {d : Drop} (hself : w.store.Has roots self)
    (hd : ∀ v ∈ (Object.drop d).values, w.store.Has roots v)
    (hkey : w.store.Has roots key) :
    Carries f g roots built (ask reenter self d key)
      (ask reenter (self.move f) (d.move f g) (key.move f)) w w' := by
  refine Mirrors.assume fun hm => mirrors_store_bind ?_
  rw [mayBeKey_move hm hkey, member?_move]
  split
  · cases hmember : member? d key with
    | none => exact mirrors_missing d hkey
    | some m =>
      exact mirrors_answer hre d hself fun v hv =>
        hd v (values_of_member? hmember v hv)
  · exact .throw _

/-- Host objects stand for the same values. -/
theorem mirrors_toTemplateValue (hre : Reenters f g roots built reenter)
    {v : Value} (hv : w.store.Has roots v) :
    Carries f g roots built (toTemplateValue reenter v)
      (toTemplateValue reenter (v.move f)) w w' := by
  refine Mirrors.assume fun hm => mirrors_store_bind ?_
  rw [hm.store.object? hv]
  cases ho : w.store.object? v with
  | none => exact .pure ⟨hv, rfl⟩
  | some o =>
    have hvalues := fun x hx =>
      hm.store.closed.has_of_object? (x := x) ho hx
    cases o with
    | host inner =>
      exact .pure ⟨hvalues inner (List.mem_singleton.2 rfl), rfl⟩
    | drop d =>
      simp only [Option.map_some, Object.move, Drop.move, lookup_move]
      cases hlookup : d.members.lookup conversionName with
      | none => exact .pure ⟨hv, rfl⟩
      | some m =>
        have hm' : ∀ x ∈ m.values, w.store.Has roots x := fun x hx =>
          hvalues x (values_of_lookup hlookup x hx)
        cases m with
        | data x =>
          cases x with
          | nil => exact .pure ⟨hv, rfl⟩
          | _ =>
            have hcall := call?_rel hm (hm' _ (List.mem_singleton.2 rfl))
            refine mirrors_store_bind ?_
            generalize call? w.store _ = called,
              call? w'.store _ = called' at hcall ⊢
            cases hcall with
            | some h => exact h
            | none => exact .throw _
        | property x =>
          have hcall := call?_rel hm (hm' x (List.mem_singleton.2 rfl))
          refine mirrors_store_bind ?_
          generalize call? w.store x = called,
            call? w'.store (x.move f) = called' at hcall ⊢
          cases hcall with
          | some h => exact h
          | none => exact .throw _
        | _ => exact mirrors_answer hre d hv hm'
    | _ => exact .pure ⟨hv, rfl⟩

/-- A drop is bound alike, to the context moved. -/
theorem mirrors_bind (ctx : ContextId) {v : Value}
    (hv : w.store.Has roots v) :
    Carries f g roots built (Eval.bind ctx v) (Eval.bind (g ctx) (v.move f))
      w w' := by
  refine Mirrors.assume fun hm => mirrors_store_bind ?_
  rw [hm.store.object? hv]
  cases ho : w.store.object? v with
  | none => exact .pure ⟨hv, rfl⟩
  | some o =>
    cases o with
    | drop d =>
      have hbound : ((d.move f g).bound == some (g ctx)) =
          (d.bound == some ctx) := by
        obtain ⟨label, members, bound⟩ := d
        cases bound with
        | none => rfl
        | some c => simp [Drop.move, hm.injective.eq_iff]
      simp only [Option.map_some, Object.move, hbound]
      split
      · exact .pure ⟨hv, rfl⟩
      · exact mirrors_alloc (o := .drop { d with bound := some ctx })
          (fun x hx => hm.store.closed.has_of_object? ho hx)
          fun x hx => by cases hx
    | _ => exact .pure ⟨hv, rfl⟩

/-- A value is received alike. -/
theorem mirrors_receive (hre : Reenters f g roots built reenter)
    (ctx : ContextId) {v : Value} (hv : w.store.Has roots v) :
    Carries f g roots built (receive reenter ctx v)
      (receive reenter (g ctx) (v.move f)) w w' := by
  refine .bind (mirrors_toTemplateValue hre hv) ?_
  rintro t t' x _ - ⟨hx, rfl⟩
  exact mirrors_bind ctx hx

-- =============================================================== parts

/-- Where nothing can be remembered, nothing is. -/
theorem mirrors_forget {v key key' forced forced' : Value}
    (hv : w.store.Has roots v) (hforgets : w.store.Forgets v) :
    MirrorsMoved f g roots built (fun _ _ _ => True)
      (remember v key forced) (remember (v.move f) key' forced') w w' := by
  refine Mirrors.assume fun hm => mirrors_store_bind ?_
  have hobj := hm.store.object? hv
  cases v with
  | object i =>
    change w'.store.object? (.object (f i)) = _ at hobj
    simp only [Value.move]
    rw [hobj]
    cases ho : w.store.object? (.object i) with
    | none => exact .pure trivial
    | some o =>
      obtain ⟨htable, hlist⟩ := hforgets o ho
      cases o with
      | table es => exact absurd rfl (htable es)
      | list xs => exact absurd rfl (hlist xs)
      | _ => exact .pure trivial
  | _ => exact .pure trivial

/-- The part of a value under a key is found alike. If it is deferred,
the value cannot remember it. -/
theorem mirrors_part (hre : Reenters f g roots built reenter) {v key : Value}
    (hv : w.store.Has roots v) (hkey : w.store.Has roots key) :
    MirrorsMoved f g roots built
      (fun t x x' => Carried f roots t x x' ∧
        ∀ d, t.store.deferred? x = some d → t.store.Forgets v)
      (part reenter v key) (part reenter (v.move f) (key.move f)) w w' := by
  refine Mirrors.assume fun hm => mirrors_store_bind ?_
  rw [hm.store.drop? hv]
  cases hdrop : w.store.drop? v with
  | none =>
    refine mirrors_ofExcept fun _ => ?_
    rw [hm.store.fetch hv hkey]
    cases hx : w.store.fetch v key with
    | error e => exact .error e
    | ok x =>
      exact .ok ⟨⟨hm.store.closed.fetch_has hx, rfl⟩, fun d hd =>
        hm.store.steady.forgets_of_fetch hv hx hd⟩
  | some d =>
    have ho : w.store.object? v = some (.drop d) := by
      unfold Store.drop? at hdrop
      split at hdrop
      · next ho =>
        cases hdrop
        exact ho
      · cases hdrop
    have hforgets : w.store.Forgets v := by
      intro o ho'
      obtain rfl : Object.drop d = o := Option.some.inj (ho.symm.trans ho')
      exact ⟨(fun _ h => by cases h), (fun _ h => by cases h)⟩
    refine Mirrors.mono ?_ (mirrors_ask hre hv
      (fun x hx => hm.store.closed.has_of_object? ho hx) hkey)
    exact fun t x x' hlater hx =>
      ⟨hx, fun _ _ => hforgets.later hlater.store hv⟩

/-- The forced part of a value under a key is found alike. -/
theorem mirrors_forcedPart (hre : Reenters f g roots built reenter)
    (ctx : ContextId) {v key : Value} (hv : w.store.Has roots v)
    (hkey : w.store.Has roots key) :
    Carries f g roots built (forcedPart reenter ctx v key)
      (forcedPart reenter (g ctx) (v.move f) (key.move f)) w w' := by
  refine .bind (mirrors_part hre hv hkey) ?_
  rintro t t' x _ hlater ⟨⟨hx, rfl⟩, hforgets⟩
  refine .assume fun hm => mirrors_store_bind ?_
  rw [hm.store.deferred? hx]
  cases hd : t.store.deferred? x with
  | none => exact .pure ⟨hx, rfl⟩
  | some d =>
    obtain ⟨i, rfl, ho⟩ := Store.deferred?_eq_some.1 hd
    refine .bind (mirrors_force (fun markup _ => hre ctx markup)
      (hm.store.closed i _ ho)) ?_
    rintro u u' y _ hlater₁ ⟨hy, rfl⟩
    refine .bind (mirrors_note _ _) fun a a' _ _ hlater₂ _ => ?_
    have hv' := hlater.store.has hv
    have hthere := hlater₂.store.has (hlater₁.store.has hv')
    have hforgets' := ((hforgets d hd).later hlater₁.store hv').later
      hlater₂.store (hlater₁.store.has hv')
    refine .bind (mirrors_forget hthere hforgets')
      fun b b' _ _ hlater₃ _ => ?_
    exact .pure ⟨hlater₃.store.has (hlater₂.store.has hy), rfl⟩

-- =============================================================== roots

theorem part_root (reenter : Reenter) {i : ObjectId}
    {entries : List (Value × Value)} {key x : Value}
    (hget : w.store.get? i = some (.table entries))
    (hhas : w.store.hasKey (.object i) key = true)
    (hx : w.store.entry? entries key = some x) :
    part reenter (.object i) key w = (.ok x, w) := by
  have hdrop : w.store.drop? (.object i) = none := by
    have ho : w.store.object? (.object i) = some (.table entries) := hget
    rw [Store.drop?, ho]
  rw [part, store_bind_apply, hdrop]
  show ofExcept _ w = _
  rw [Store.fetch_table hget hhas hx]
  rfl

section

variable (ctx : ContextId) {v key x : Value} {d : Deferred}
  (hpart : part reenter v key w = (.ok x, w))

include hpart

/-- A part that is not deferred is what it is. -/
theorem forcedPart_of_plain (hd : w.store.deferred? x = none) :
    forcedPart reenter ctx v key w = (.ok x, w) := by
  rw [forcedPart, bind_apply, hpart]
  show (store >>= _) w = _
  rw [store_bind_apply, hd]
  rfl

/-- A part that fails when it is forced. -/
theorem forcedPart_of_fail (hd : w.store.deferred? x = some d)
    {message : String} (hdeed : d.deed = .fail message) :
    ∃ calls, forcedPart reenter ctx v key w =
      (.error (.raised message), { w with calls := calls }) := by
  obtain ⟨label, form, deed⟩ := d
  obtain rfl : deed = .fail message := hdeed
  rw [forcedPart, bind_apply, hpart]
  refine ⟨World.countCall label w.calls, ?_⟩
  show (store >>= _) w = _
  rw [store_bind_apply, hd]
  rfl

end

/-- A part of a table that yields a value is forced, and the table
remembers it. -/
theorem forcedPart_of_yield (ctx : ContextId) {i : ObjectId}
    {entries : List (Value × Value)} {key x y : Value} {d : Deferred}
    (hget : w.store.get? i = some (.table entries))
    (hpart : part reenter (.object i) key w = (.ok x, w))
    (hd : w.store.deferred? x = some d) (hdeed : d.deed = .yield y) :
    ∃ calls journal, forcedPart reenter ctx (.object i) key w =
      (.ok y, ⟨w.store.put i (.table (w.store.setEntry key y entries)),
        w.contexts, calls, journal⟩) := by
  obtain ⟨calls, journal, hrun⟩ := forcedPart_remembers ctx hpart hd hdeed
  have hremember : remember (.object i) key y
      { w with calls := calls, journal := journal } =
      (.ok (), ⟨w.store.put i (.table (w.store.setEntry key y entries)),
        w.contexts, calls, journal⟩) := remember_table hget
  refine ⟨calls, journal, ?_⟩
  rw [hrun, bind_apply, hremember]
  rfl

/-- A deferred value that a root holds in the first world is forced there,
and remembered. In the second world it is as well, or it is found forced.
Then the slots agree. -/
theorem mirrors_yield (ctx : ContextId) {i : ObjectId} (hi : i ∈ roots)
    {name x x' y : Value} {es es' : List (Value × Value)}
    (hname : w.store.Has roots name)
    (hslot : Store.RootSlot f w.store w'.store i name es es' x x')
    (hpart : part reenter (.object i) name w = (.ok x, w))
    (hpart' : part reenter (.object (f i)) (name.move f) w' = (.ok x', w'))
    {d : Deferred} (hd : w.store.deferred? x = some d)
    (hdeed : d.deed = .yield y) :
    Carries f g roots built (forcedPart reenter ctx (.object i) name)
      (forcedPart reenter (g ctx) (.object (f i)) (name.move f)) w w' := by
  intro hm
  have hfill : w.store.Filled id x y :=
    Or.inr ⟨d, y, hd, hdeed, y.move_id.symm⟩
  have hlater := hm.store.later_refl.put hi hslot.table
    (Store.forall₂_setEntry hslot.value hfill)
  have hthere := hlater.has (hm.store.closed.has_yield hd hdeed)
  obtain ⟨calls, journal, hrun⟩ :=
    forcedPart_of_yield ctx hslot.table hpart hd hdeed
  rw [hrun]
  have hl : w.Later roots
      ⟨w.store.put i (.table (w.store.setEntry name y es)),
        w.contexts, calls, journal⟩ := ⟨hlater, rfl⟩
  rcases hslot.deferred hm.store hi hd with hd' | ⟨z, hz, hx', hnone⟩
  · have hdeed' : (d.move f).deed = .yield (y.move f) := by
      rw [Deferred.move, hdeed]
      rfl
    have hfill' : w'.store.Filled id x' (y.move f) :=
      Or.inr ⟨_, _, hd', hdeed', (y.move f).move_id.symm⟩
    obtain ⟨calls', journal', hrun'⟩ :=
      forcedPart_of_yield (g ctx) hslot.table' hpart' hd' hdeed'
    rw [hrun']
    exact ⟨hl, hm.of_store (hslot.fill hm.store hi hname hfill hfill') hl
      rfl, .ok ⟨hthere, rfl⟩⟩
  · obtain rfl : y = z := Deed.yield.inj (hdeed.symm.trans hz)
    rw [forcedPart_of_plain (g ctx) hpart' hnone]
    exact ⟨hl, hm.of_store (hslot.fill_left hm.store hi hname hfill hx') hl
      rfl, .ok ⟨hthere, hx'⟩⟩

/-- The value of a name in a root is found alike. -/
theorem mirrors_root (ctx : ContextId) {i : ObjectId} (hi : i ∈ roots)
    {name : Value} (hname : w.store.Has roots name)
    (hhas : w.store.hasKey (.object i) name = true) :
    Carries f g roots built (forcedPart reenter ctx (.object i) name)
      (forcedPart reenter (g ctx) (.object (f i)) (name.move f)) w w' := by
  intro hm
  obtain ⟨es, es', x, x', hslot⟩ := hm.store.exists_rootSlot hi hname hhas
  have hhas' : w'.store.hasKey (.object (f i)) (name.move f) = true :=
    (hm.store.hasKey_root hi hname).trans hhas
  have hpart := part_root reenter hslot.table hhas hslot.value
  have hpart' := part_root reenter hslot.table' hhas' hslot.value'
  have hin := hslot.inRoot hi
  cases hd : w.store.deferred? x with
  | none =>
    obtain ⟨rfl, hd'⟩ := hslot.plain hm.store hi hd
    rw [forcedPart_of_plain ctx hpart hd,
      forcedPart_of_plain (g ctx) hpart' hd']
    exact ⟨⟨hm.store.later_refl, rfl⟩, hm,
      .ok ⟨hm.store.closed.has_inRoot hin, rfl⟩⟩
  | some d =>
    cases hdeed : d.deed with
    | read markup =>
      exact absurd hdeed (hm.store.steady.reads x d hin hd markup)
    | yield y =>
      exact mirrors_yield ctx hi hname hslot hpart hpart' hd hdeed hm
    | fail message =>
      have hdeed' : (d.move f).deed = .fail message := by
        rw [Deferred.move, hdeed]
        rfl
      have hd' : w'.store.deferred? x' = some (d.move f) := by
        rcases hslot.deferred hm.store hi hd with hd' | ⟨y, hy, -, -⟩
        · exact hd'
        · cases hdeed.symm.trans hy
      obtain ⟨calls, hrun⟩ := forcedPart_of_fail ctx hpart hd hdeed
      obtain ⟨calls', hrun'⟩ :=
        forcedPart_of_fail (g ctx) hpart' hd' hdeed'
      rw [hrun, hrun']
      have hl : w.Later roots { w with calls := calls } :=
        ⟨hm.store.later_refl, rfl⟩
      exact ⟨hl, hm.of_store hm.store hl rfl, .error _⟩

-- ============================================================== lookup

/-- The same layer of a context holds a name. -/
theorem find?_layer (hm : w.Moved f g roots built w') {name : Value}
    (hname : w.store.Has roots name) {layers : List Value}
    (hlayers : ∀ v ∈ layers, w.store.Layer roots v) :
    ((layers.map (Value.move f)).find? fun v =>
        w'.store.hasKey v (name.move f)) =
      (layers.find? fun v => w.store.hasKey v name).map (Value.move f) := by
  induction layers with
  | nil => rfl
  | cons v layers ih =>
    obtain ⟨hv, hrest⟩ := List.forall_mem_cons.1 hlayers
    have hsame : w'.store.hasKey (v.move f) (name.move f) =
        w.store.hasKey v name := by
      rcases hv with hv | ⟨i, hi, rfl⟩
      · exact hm.store.hasKey hv hname
      · exact hm.store.hasKey_root hi hname
    rw [List.map_cons, List.find?_cons, List.find?_cons, hsame]
    cases w.store.hasKey v name with
    | true => rfl
    | false => exact ih hrest

/-- The forced value of a name in a layer that holds it is found alike. -/
theorem mirrors_layer (hre : Reenters f g roots built reenter)
    (ctx : ContextId) {layer name : Value}
    (hlayer : w.store.Layer roots layer) (hname : w.store.Has roots name)
    (hhas : w.store.hasKey layer name = true) :
    Carries f g roots built (forcedPart reenter ctx layer name)
      (forcedPart reenter (g ctx) (layer.move f) (name.move f)) w w' := by
  rcases hlayer with hv | ⟨i, hi, rfl⟩
  · exact mirrors_forcedPart hre ctx hv hname
  · exact mirrors_root ctx hi hname hhas

/-- A name is looked up alike. -/
theorem mirrors_findVariable (hre : Reenters f g roots built reenter)
    (ctx : ContextId) {name : Value} (hname : w.store.Has roots name) :
    Carries f g roots built (findVariable reenter ctx name)
      (findVariable reenter (g ctx) (name.move f)) w w' := by
  refine Mirrors.assume fun hm => .get_bind ?_
  rw [hm.layers ctx, find?_layer hm hname (hm.there ctx)]
  cases hfind : (w.context ctx).layers.find? fun v =>
      w.store.hasKey v name with
  | some layer =>
    have hlayer := hm.there ctx layer (List.mem_of_find?_eq_some hfind)
    have hhas : w.store.hasKey layer name = true :=
      List.find?_some (p := fun v => w.store.hasKey v name) hfind
    refine .bind (mirrors_layer hre ctx hlayer hname hhas) ?_
    rintro t t' v _ - ⟨hv, rfl⟩
    refine .bind (mirrors_note _ _) fun u u' _ _ hlater _ => ?_
    exact mirrors_receive hre ctx (hlater.store.has hv)
  | none =>
    refine .bind (mirrors_note _ _) fun u u' _ _ _ _ => ?_
    rw [hm.strict ctx, hm.store.print hname]
    split
    · exact .refuse _ _
    · exact .pure (.scalar Value.isScalar_nil)

/-- Where a path may come to nothing, both come to nothing, or to one
value, moved. -/
abbrev CarriedAny (f : ObjectId → ObjectId) (roots : List ObjectId)
    (w : World) : Option Value → Option Value → Prop :=
  Option.Rel (Carried f roots w)

/-- A step of a path is taken alike. -/
theorem mirrors_stepFrom (hre : Reenters f g roots built reenter)
    (ctx : ContextId) (whole : Path) {v key : Value}
    (command : Option Command) (hv : w.store.Has roots v)
    (hkey : w.store.Has roots key) :
    MirrorsMoved f g roots built (CarriedAny f roots)
      (stepFrom reenter ctx whole v key command)
      (stepFrom reenter (g ctx) whole (v.move f) (key.move f) command)
      w w' := by
  refine Mirrors.assume fun hm => mirrors_store_bind ?_
  have hindex : (key.move f).isIndex = key.isIndex := by
    cases key <;> rfl
  dsimp only
  rw [hm.store.access hv, hm.store.hasKey hv hkey, hindex]
  split
  · refine .bind (mirrors_forcedPart hre ctx hv hkey) ?_
    rintro t t' x _ - ⟨hx, rfl⟩
    refine .bind (mirrors_receive hre ctx hx) ?_
    rintro u u' y _ - hy
    exact .pure (.some hy)
  · cases hc : command.bind (w.store.command? v) with
    | none =>
      have hc' : command.bind (w'.store.command? (v.move f)) = none := by
        cases command with
        | none => rfl
        | some c => exact hm.store.command?_none hv hc
      rw [hc']
      refine .bind (mirrors_note _ _) fun u u' _ _ hlater _ => ?_
      refine .assume fun hm' => .get_bind ?_
      rw [hm'.strict ctx, hm.store.print hkey]
      split
      · exact .refuse _ _
      · exact .pure .none
    | some answered =>
      obtain ⟨answer, later⟩ := answered
      obtain ⟨c, rfl, hc⟩ := Option.bind_eq_some_iff.1 hc
      obtain ⟨later', hc', hmoved, hlater, hthere⟩ :=
        hm.store.command? hv hc
      have hcommand : (some c).bind (w'.store.command? (v.move f)) =
          some (answer.map (Value.move f), later') := hc'
      rw [hcommand]
      dsimp only
      refine .bind (Q := fun t _ _ => ∀ x, answer = .ok x →
        t.store.Has roots x) (.modify fun _ => ?_) ?_
      · have hl : w.Later roots { w with store := later } := ⟨hlater, rfl⟩
        exact ⟨hl, hm.of_store hmoved hl rfl, hthere⟩
      · intro t t' _ _ _ hanswer
        refine .bind (Q := Carried f roots) (mirrors_ofExcept fun _ => ?_) ?_
        · cases answer with
          | error e => exact .error e
          | ok x => exact .ok ⟨hanswer x rfl, rfl⟩
        · rintro u u' x _ - ⟨hx, rfl⟩
          refine .bind (mirrors_receive hre ctx hx) ?_
          rintro a a' y _ - hy
          exact .pure (.some hy)

mutual

/-- An expression without objects in it is evaluated alike. -/
theorem mirrors_expr (hre : Reenters f g roots built reenter)
    (ctx : ContextId) :
    ∀ e : Expr, e.Scalar → ∀ w w', Carries f g roots built
      (expr reenter ctx e) (expr reenter (g ctx) e) w w'
  | .const v, hv, w, w' =>
    .pure (.scalar hv)
  | .path p, hp, w, w' => by
    refine .bind (mirrors_path hre ctx _ p hp w w') ?_
    rintro t t' _ _ - (⟨⟨hv, rfl⟩⟩ | _)
    · refine .bind (mirrors_note _ _) fun u u' _ _ hlater _ => ?_
      exact .pure ⟨hlater.store.has hv, rfl⟩
    · exact .pure (.scalar Value.isScalar_nil)
  | .range first last, ⟨hfirst, hlast⟩, w, w' => by
    refine .bind (mirrors_expr hre ctx first hfirst w w') ?_
    rintro t t' v _ - ⟨hv, rfl⟩
    refine .assume fun hm => mirrors_store_bind ?_
    rw [hm.store.toInteger hv]
    refine .bind (mirrors_outcome _) ?_
    rintro u u' a _ - rfl
    refine .bind (mirrors_expr hre ctx last hlast u u') ?_
    rintro t t' v _ - ⟨hv, rfl⟩
    refine .assume fun hm => mirrors_store_bind ?_
    rw [hm.store.toInteger hv]
    refine .bind (mirrors_outcome _) ?_
    rintro u u' b _ - rfl
    exact .pure (.scalar fun i hi => by cases hi)

/-- A path without objects in it is evaluated alike. -/
theorem mirrors_path (hre : Reenters f g roots built reenter) (ctx : ContextId)
    (whole : Path) :
    ∀ p : Path, p.Scalar → ∀ w w',
      MirrorsMoved f g roots built (CarriedAny f roots)
        (path reenter ctx whole p) (path reenter (g ctx) whole p) w w'
  | .root name, hname, w, w' => by
    refine .bind (mirrors_expr hre ctx name hname w w') ?_
    rintro t t' v _ - ⟨hv, rfl⟩
    refine .bind (mirrors_findVariable hre ctx hv) ?_
    rintro u u' x _ - hx
    exact .pure (.some hx)
  | .step p key command, ⟨hp, hkey⟩, w, w' => by
    refine .bind (mirrors_path hre ctx whole p hp w w') ?_
    rintro t t' _ _ - (⟨⟨hv, rfl⟩⟩ | _)
    · refine .bind (mirrors_expr hre ctx key hkey t t') ?_
      rintro u u' k _ hlater ⟨hk, rfl⟩
      exact mirrors_stepFrom hre ctx whole command
        (hlater.store.has hv) hk
    · exact .pure .none

end

-- ============================================================== markup

/-- Markup is read alike, to an expression without objects in it. -/
theorem mirrors_readOperand (markup : String) :
    MirrorsMoved f g roots built (fun _ e e' => e.Scalar ∧ e' = e)
      (readOperand markup) (readOperand markup) w w' := by
  refine .bind
    (mirrors_modify (fun _ => ⟨rfl, rfl⟩) fun _ => ⟨rfl, rfl⟩)
    fun t t' _ _ _ _ => ?_
  refine mirrors_ofExcept fun _ => ?_
  cases he : Expr.parse markup with
  | ok e => exact .ok ⟨Expr.parseChars_scalar he, rfl⟩
  | error e => exact .error e

/-- Markup is evaluated alike, however deeply evaluation may go back to
its start. -/
theorem mirrors_markupWithin (budget : Nat) :
    Reenters f g roots built (markupWithin budget) := by
  induction budget with
  | zero => exact fun _ _ _ _ => .throw _
  | succ budget ih =>
    intro ctx markup w w'
    refine .bind (mirrors_readOperand markup) ?_
    rintro t t' _ e - ⟨he, rfl⟩
    exact mirrors_expr ih ctx e he t t'

/-- An expression is evaluated alike from the start. -/
theorem mirrors_evaluate (ctx : ContextId) {e : Expr} (he : e.Scalar) :
    Carries f g roots built (evaluate ctx e) (evaluate (g ctx) e) w w' :=
  mirrors_expr (mirrors_markupWithin maxDepth) ctx e he w w'

-- ========================================================== conditions

/-- A clause is evaluated alike. -/
theorem mirrors_clause (ctx : ContextId) {c : Clause} (hc : c.Scalar) :
    Carries f g roots True (clause ctx c) (clause (g ctx) c) w w' := by
  refine .bind (mirrors_evaluate ctx hc.1) ?_
  rintro t t' left _ - ⟨hleft, rfl⟩
  split
  · exact .pure ⟨hleft, rfl⟩
  · refine .bind (mirrors_evaluate ctx hc.2) ?_
    rintro u u' right _ hlater ⟨hright, rfl⟩
    refine .assume fun hm => mirrors_store_bind ?_
    rw [hm.store.apply trivial _ (hlater.store.has hleft) hright]
    refine .bind (mirrors_outcome _) ?_
    rintro a a' answer _ - rfl
    exact .pure (.scalar fun i hi => by cases answer <;> cases hi)

/-- The linked clauses of a chain are folded alike. -/
theorem mirrors_linked (ctx : ContextId)
    {clauses : List (Relation × Clause)}
    (hclauses : ∀ link ∈ clauses, link.2.Scalar) :
    ∀ result w w', MirrorsMoved f g roots True (fun _ => Eq)
      (linked ctx result clauses) (linked (g ctx) result clauses) w w' := by
  induction clauses with
  | nil => exact fun _ _ _ => .pure rfl
  | cons link rest ih =>
    intro result w w'
    obtain ⟨r, c⟩ := link
    obtain ⟨hc, hrest⟩ := List.forall_mem_cons.1 hclauses
    -- what follows the clause, whether it was looked at or not
    have goOn (b : Bool) (t t' : World) :
        MirrorsMoved f g roots True (fun _ => Eq)
          (do noteClause r.word c b; linked ctx b rest)
          (do noteClause r.word c b; linked (g ctx) b rest) t t' :=
      .bind (mirrors_note _ _) fun u u' _ _ _ _ => ih hrest b u u'
    unfold linked
    dsimp only
    split
    · refine .bind (mirrors_clause ctx hc) ?_
      rintro t t' v _ - ⟨-, rfl⟩
      rw [Value.isTruthy_move]
      exact goOn v.isTruthy t t'
    · exact goOn result w w'

/-- A condition is evaluated alike. -/
theorem mirrors_condition (ctx : ContextId) {c : Condition}
    (hc : c.Scalar) :
    MirrorsMoved f g roots True (fun _ => Eq) (condition ctx c)
      (condition (g ctx) c) w w' := by
  unfold condition
  split
  · exact .pure rfl
  · refine .bind (mirrors_clause ctx hc.1) ?_
    rintro t t' v _ - ⟨-, rfl⟩
    rw [Value.isTruthy_move]
    refine .bind (mirrors_note _ _) fun u u' _ _ _ _ => ?_
    exact mirrors_linked ctx hc.2 _ u u'

end Eval

end

end Stencil
