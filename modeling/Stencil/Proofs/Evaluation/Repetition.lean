/-
Rendering again.

Rendering changes the world. It makes a scope and a context, it binds
copies of drops, and it puts what deferred values yielded in the place of
them. In general this can be seen: a list that is asked what it contains
before one of its slots is forced may answer otherwise afterwards
(`render_again_ne`).

In a settled world it cannot be seen. There the deferred values that a
slot may hold stand in the tables that names are looked up in, which
nothing else refers to, and what they yield stands for itself. The world
after a render is the world before it with new objects and a new context
at its end, and with some slots of those tables filled. So it is the
world before with its objects moved, if those that are still to come are
moved behind the new ones, and the next render mirrors the first one step
by step (`render_again`).
-/
import Mathlib.Logic.Function.Iterate
import Stencil.Proofs.Evaluation.Operands
import Stencil.Proofs.Evaluation.Relocation
import Stencil.Proofs.Template.Scalars
import Stencil.Template.Rendering

namespace Stencil

section

variable {f : ObjectId → ObjectId} {g : ContextId → ContextId}
  {roots : List ObjectId}

-- =========================================================== rendering

/-- A page is another one on a world moved, with the same pieces. -/
structure Page.Moved (f : ObjectId → ObjectId) (g : ContextId → ContextId)
    (roots : List ObjectId) (p p' : Page) : Prop where
  world : p.world.Moved f g roots True p'.world
  pieces : p.pieces = p'.pieces

/-- Two runs on pages of which the second is the first one moved. -/
def Page.course (f : ObjectId → ObjectId) (g : ContextId → ContextId)
    (roots : List ObjectId) : Course Page where
  related := Page.Moved f g roots
  later p q := p.world.Later roots q.world
  refl h := (World.course f g roots True).refl h.world
  trans h := (World.course f g roots True).trans h.world

namespace Rendering

variable {p p' : Page}

/-- Writing is mirrored: the same pieces are written. -/
abbrev Rewrites (f : ObjectId → ObjectId) (g : ContextId → ContextId)
    (roots : List ObjectId) (x y : Rendering Unit) (p p' : Page) : Prop :=
  Mirrors (Page.course f g roots) (fun _ _ _ => True) x y p p'

/-- An action on the world is mirrored on the page. -/
theorem mirrors_ofEval {α β : Type} {Q : World → α → β → Prop}
    {x : Eval α} {y : Eval β}
    (h : Eval.MirrorsMoved f g roots True Q x y p.world p'.world) :
    Mirrors (Page.course f g roots) (fun q => Q q.world)
      (ofEval x) (ofEval y) p p' := by
  intro hp
  obtain ⟨hlater, hmoved, houtcome⟩ := h hp.world
  exact ⟨hlater, ⟨hmoved, hp.pieces⟩, houtcome⟩

/-- A piece is written alike. -/
theorem mirrors_emit (piece : String) :
    Rewrites f g roots (emit piece) (emit piece) p p' := by
  refine .modify fun hp => ?_
  refine ⟨(World.course f g roots True).refl hp.world, ⟨hp.world, ?_⟩,
    trivial⟩
  exact congrArg (piece :: ·) hp.pieces

mutual

/-- A node is written alike. -/
theorem mirrors_node (ctx : ContextId) :
    ∀ n : Node, n.Scalar → ∀ p p',
      Rewrites f g roots (node ctx n) (node (g ctx) n) p p'
  | .text s, _, _, _ => mirrors_emit s
  | .output _ e, he, p, p' => by
    refine .bind (mirrors_ofEval (Eval.mirrors_evaluate ctx he)) ?_
    rintro q q' v _ - ⟨hv, rfl⟩
    refine .bind (mirrors_ofEval (Q := fun _ => Eq) ?_) ?_
    · refine .assume fun hm => Eval.mirrors_store_bind ?_
      rw [hm.store.output trivial hv]
      exact .outcome _ fun _ => rfl
    · rintro q q' piece _ - rfl
      exact mirrors_emit piece
  | .leaf .unsupported name _, _, _, _ => .throw _
  | .leaf .echo _ markup, _, _, _ => mirrors_emit _
  | .leaf .silent _ _, _, _, _ => .pure trivial
  | .conditional negated name _ branches, hb, p, p' =>
    mirrors_firstTaken ctx negated name branches hb 0 p p'

/-- Nodes are written alike. -/
theorem mirrors_nodes (ctx : ContextId) :
    ∀ ns : List Node, Node.AllScalar ns → ∀ p p',
      Rewrites f g roots (nodes ctx ns) (nodes (g ctx) ns) p p'
  | [], _, _, _ => .pure trivial
  | n :: rest, ⟨hn, hrest⟩, p, p' =>
    .bind (mirrors_node ctx n hn p p') fun q q' _ _ _ _ =>
      mirrors_nodes ctx rest hrest q q'

/-- The same branch is taken, and written alike. -/
theorem mirrors_firstTaken (ctx : ContextId) (negated : Bool)
    (tag : String) :
    ∀ branches : List Branch, Node.BranchesScalar branches →
      ∀ index p p', Rewrites f g roots
        (firstTaken ctx negated tag index branches)
        (firstTaken (g ctx) negated tag index branches) p p'
  | [], _, _, _, _ => .pure trivial
  | .mk c body :: rest, ⟨hc, hbody, hrest⟩, index, p, p' => by
    refine .bind (mirrors_ofEval (Eval.mirrors_condition ctx hc)) ?_
    rintro q q' holds _ - rfl
    split
    · refine .bind (mirrors_ofEval (Eval.mirrors_note _ _))
        fun a a' _ _ _ _ => ?_
      exact mirrors_nodes ctx body hbody a a'
    · exact mirrors_firstTaken ctx negated tag rest hrest (index + 1) q q'

end

end Rendering

namespace Eval

variable {w w' : World}

/-- The same pieces are written. -/
theorem mirrors_pieces (ctx : ContextId) {ns : List Node}
    (hns : Node.AllScalar ns) :
    MirrorsMoved f g roots True (fun _ => Eq)
      (pieces ctx ns) (pieces (g ctx) ns) w w' := by
  intro hm
  obtain ⟨hlater, hmoved, houtcome⟩ := Rendering.mirrors_nodes ctx ns hns
    ⟨w, []⟩ ⟨w', []⟩ ⟨hm, rfl⟩
  rcases hp : Rendering.nodes ctx ns ⟨w, []⟩ with ⟨r, q⟩
  rcases hq : Rendering.nodes (g ctx) ns ⟨w', []⟩ with ⟨r', q'⟩
  rw [hp, hq] at hmoved houtcome
  rw [hp] at hlater
  have hleft : pieces ctx ns w =
      (r.map fun _ => q.pieces.reverse, q.world) := by
    rw [pieces, hp]
  have hright : pieces (g ctx) ns w' =
      (r'.map fun _ => q'.pieces.reverse, q'.world) := by
    rw [pieces, hq]
  rw [hleft, hright, hmoved.pieces]
  refine ⟨hlater, hmoved.world, ?_⟩
  cases houtcome with
  | ok _ => exact .ok rfl
  | error e => exact .error e

/-- A template is rendered alike in a context moved. -/
theorem mirrors_renderIn (ctx : ContextId) {t : Template}
    (ht : ∀ n ∈ t.nodes, n.Scalar) :
    MirrorsMoved f g roots True (fun _ => Eq)
      (renderIn ctx t) (renderIn (g ctx) t) w w' := by
  refine .bind (mirrors_pieces ctx (Node.allScalar_iff.2 ht)) ?_
  rintro u u' ps _ - rfl
  exact .bind (mirrors_note _ _) fun _ _ _ _ _ _ => .pure rfl

end Eval

-- ====================================================== settled worlds

/-- A world in which looking up a name changes nothing that can be seen:
roots are tables that no object refers to, deferred values stand in no
other slots than theirs, and yield there what is not deferred again. -/
structure World.Settled (roots : List ObjectId) (w : World) : Prop where
  grounded : w.store.Grounded roots
  tables : ∀ i ∈ roots, ∃ entries, w.store.get? i = some (.table entries)
  steady : w.store.Steady roots
  bound : ∀ i d ctx, w.store.get? i = some (.drop d) →
    d.bound = some ctx → ctx < w.contexts.size
  layers : ∀ ctx, ∀ v ∈ (w.context ctx).layers, w.store.Layer roots v

namespace World

variable {w u w' : World}

theorem Settled.later_refl (h : w.Settled roots) :
    Store.Later roots w.store w.store :=
  .refl h.tables

/-- What names are looked up in stays where it is. -/
theorem Settled.move_layer (h : w.Settled roots) {v : Value}
    (hv : w.store.Layer roots v) (j : Nat) :
    v.move (Store.shift w.store.size j) = v := by
  rcases hv with hv | ⟨i, hi, rfl⟩
  · exact Value.move_eq_of_below (fun i hi => Store.shift_of_lt hi) hv
  · obtain ⟨entries, hget⟩ := h.tables i hi
    exact congrArg Value.object (Store.shift_of_lt (Store.lt_size_of_get? hget))

theorem Settled.move_layers (h : w.Settled roots) {vs : List Value}
    (hvs : ∀ v ∈ vs, w.store.Layer roots v) (j : Nat) :
    vs.map (Value.move (Store.shift w.store.size j)) = vs :=
  (List.map_congr_left fun v hv => h.move_layer (hvs v hv) j).trans
    (List.map_id vs)

/-- A world that has gone on from a settled one is that world moved. -/
theorem Settled.moved (h : w.Settled roots)
    (hlater : Store.Later roots w.store u.store)
    (hu : u.store.Grounded []) {j k : Nat}
    (hsize : u.store.size = w.store.size + j)
    (hold : ∀ ctx < w.contexts.size, u.context ctx = w.context ctx)
    (hnew : u.contexts.size ≤ w.contexts.size + k) :
    w.Moved (Store.shift w.store.size j)
      (Store.shift w.contexts.size k) roots True u := by
  have hcontext (ctx : ContextId) :
      u.context (Store.shift w.contexts.size k ctx) = w.context ctx := by
    by_cases hctx : ctx < w.contexts.size
    · rw [Store.shift_of_lt hctx]
      exact hold ctx hctx
    · obtain ⟨n, rfl⟩ := Nat.exists_eq_add_of_le (Nat.le_of_not_lt hctx)
      rw [Store.shift_add, context_of_ge (Nat.le_add_right _ _),
        context_of_ge]
      omega
  have hstore : Store.Moved (Store.shift w.store.size j)
      (Store.shift w.contexts.size k) roots True w.store u.store := by
    refine hlater.moved h.grounded hu h.steady hsize fun i d hd => ?_
    cases hb : d.bound with
    | none => rfl
    | some ctx =>
      exact congrArg some (Store.shift_of_lt (h.bound i d ctx hd hb))
  refine ⟨hstore, Store.shift_injective _ _, fun ctx => ?_, fun ctx => ?_,
    h.layers⟩
  · rw [hcontext, h.move_layers (h.layers ctx)]
  · rw [hcontext]

/-- The left one of two worlds is settled, if its drops are bound to
contexts that are there. -/
theorem Moved.settled (h : w.Moved f g roots True w')
    (hbound : ∀ i d ctx, w.store.get? i = some (.drop d) →
      d.bound = some ctx → ctx < w.contexts.size) : w.Settled roots := by
  refine ⟨h.store.grounded trivial, fun i hi => ?_, h.store.steady, hbound,
    h.there⟩
  obtain ⟨entries, -, hget, -⟩ := h.store.root i hi
  exact ⟨entries, hget⟩

-- ======================================================= new contexts

/-- Worlds stay moved when both get a new context, of the data and of the
data moved. -/
theorem Moved.entered (h : w.Moved f g roots True w')
    (hnext : g w.contexts.size = w'.contexts.size) {data : List Value}
    (hdata : ∀ v ∈ data, w.store.Layer roots v) (strict : Bool) :
    (w.entered data strict).Moved f g roots True
      (w'.entered (data.map (Value.move f)) strict) := by
  have hlater : Store.Later roots w.store (w.store.alloc (.table [])).2 :=
    h.store.later_refl.alloc _
  have hstore : Store.Moved f g roots True (w.entered data strict).store
      (w'.entered (data.map (Value.move f)) strict).store :=
    h.store.alloc (o := .table []) (fun v hv => by cases hv)
      fun v hv => by cases hv
  have hsame (ctx : ContextId) :
      g ctx = w'.contexts.size ↔ ctx = w.contexts.size := by
    rw [← hnext, h.injective.eq_iff]
  refine ⟨hstore, h.injective, fun ctx => ?_, fun ctx => ?_,
    fun ctx v hv => ?_⟩
  · rw [context_entered, context_entered, apply_ite Context.layers,
      apply_ite Context.layers, h.layers ctx]
    simp only [hsame]
    split
    · simp only [Context.layers, List.map_append, List.map_cons,
        List.map_nil]
      rw [← h.store.alloc_fst]
      rfl
    · rfl
  · rw [context_entered, context_entered, apply_ite Context.strict,
      apply_ite Context.strict, h.strict ctx]
    simp only [hsame]
  · rw [context_entered] at hv
    split at hv
    · rcases List.mem_cons.1 hv with rfl | hv
      · exact Or.inl (h.store.has_alloc _)
      · exact (hdata v hv).later hlater
    · exact (h.there ctx v hv).later hlater

/-- A settled world is itself, moved by nothing, whatever is done to the
numbers of contexts that are still to come. -/
theorem Settled.moved_self (h : w.Settled roots) (k : Nat) :
    w.Moved id (Store.shift w.contexts.size k) roots True w := by
  have hself := h.moved h.later_refl h.grounded.unrooted (j := 0) (k := k)
    rfl (fun _ _ => rfl) (Nat.le_add_right _ _)
  rwa [Store.shift_zero] at hself

/-- A settled world is settled with a new context. -/
theorem Settled.entered (h : w.Settled roots) {data : List Value}
    (hdata : ∀ v ∈ data, w.store.Layer roots v) (strict : Bool) :
    (w.entered data strict).Settled roots := by
  have hself := h.moved_self 0
  rw [Store.shift_zero] at hself
  refine (hself.entered rfl hdata strict).settled fun i d ctx hd hb => ?_
  change (w.store.alloc (.table [])).2.get? i = _ at hd
  rw [Store.get?_alloc] at hd
  split at hd
  · cases hd
  · rw [size_entered]
    exact Nat.lt_succ_of_lt (h.bound i d ctx hd hb)

-- ======================================================= one more render

variable {t : Template}

/-- Rendering in a context leads from a settled world to a later one that
is settled. -/
theorem Settled.renderIn (h : w.Settled roots) {ctx : ContextId}
    (hctx : ctx < w.contexts.size) (ht : ∀ n ∈ t.nodes, n.Scalar) :
    w.Later roots (Eval.renderIn ctx t w).2 ∧
      (Eval.renderIn ctx t w).2.Settled roots := by
  obtain ⟨hlater, hmoved, -⟩ :=
    Eval.mirrors_renderIn ctx ht (h.moved_self 1)
  rw [Store.shift_of_lt hctx] at hmoved
  refine ⟨hlater, hmoved.settled fun i d c hd hb => ?_⟩
  have hroot : i ∉ roots := by
    intro hi
    obtain ⟨entries, -, hget, -⟩ := hmoved.store.root i hi
    cases hget.symm.trans hd
  -- had the drop a context that was not there, it would have been moved
  have hself : some ((Object.drop d).move id (Store.shift w.contexts.size 1)) =
      some (.drop d) := (hmoved.store.get? i _ hroot hd).symm.trans hd
  have hbound : d.bound.map (Store.shift w.contexts.size 1) = d.bound :=
    congrArg Drop.bound (Object.drop.inj (Option.some.inj hself))
  rw [hb, Option.map_some] at hbound
  rw [hlater.contexts]
  refine Nat.lt_of_not_le fun hle => ?_
  obtain ⟨n, rfl⟩ := Nat.exists_eq_add_of_le hle
  rw [Store.shift_add] at hbound
  exact Nat.succ_ne_self _ (Option.some.inj hbound)

end World

namespace Eval

variable {w : World} {t : Template}

/-- From a settled world, a second render ends as the first one did, and
the world in between is settled. -/
theorem render_twice (h : w.Settled roots)
    (ht : ∀ n ∈ t.nodes, n.Scalar) {assigns : Option Value}
    {environments : List Value} (strict : Bool)
    (hdata : ∀ v ∈ assigns.toList ++ environments,
      w.store.Layer roots v) :
    let first := render assigns environments strict t w
    (render assigns environments strict t first.2).1 = first.1 ∧
      first.2.Settled roots ∧
      ∀ v ∈ assigns.toList ++ environments,
        first.2.store.Layer roots v := by
  intro first
  have hfirst : first = renderIn w.contexts.size t
      (w.entered (assigns.toList ++ environments) strict) :=
    render_apply assigns environments strict t w
  have hsize := w.size_entered (assigns.toList ++ environments) strict
  have hctx : w.contexts.size < (w.entered
      (assigns.toList ++ environments) strict).contexts.size := by
    rw [hsize]
    exact Nat.lt_succ_self _
  obtain ⟨hrun, hsettled⟩ := (h.entered hdata strict).renderIn hctx ht
  rw [← hfirst] at hrun hsettled
  have hlater : Store.Later roots w.store first.2.store :=
    (h.later_refl.alloc _).trans hrun.store h.grounded.closed h.steady
  obtain ⟨j, hj⟩ := Nat.exists_eq_add_of_le hlater.size_le
  have hcontexts : first.2.contexts.size = w.contexts.size + 1 := by
    rw [hrun.contexts, hsize]
  have hmoved := h.moved hlater hsettled.grounded.unrooted hj
    (fun ctx hctx => by
      rw [hrun.context, World.context_entered,
        if_neg (Nat.ne_of_lt hctx)])
    (Nat.le_of_eq hcontexts)
  have hnext : Store.shift w.contexts.size 1 w.contexts.size =
      first.2.contexts.size := by
    rw [hcontexts]
    exact Store.shift_add w.contexts.size 1 0
  have hentered := hmoved.entered hnext hdata strict
  rw [h.move_layers hdata] at hentered
  obtain ⟨-, -, houtcome⟩ :=
    mirrors_renderIn w.contexts.size ht hentered
  rw [hnext] at houtcome
  refine ⟨?_, hsettled, fun v hv => (hdata v hv).later hlater⟩
  rw [render_apply]
  conv_rhs => rw [hfirst]
  exact houtcome.eq.symm

/-- Renders of a template that was read, on the same data with the same
strictness, all end alike, however many came before them: with the same
text or the same failure. For this the world has to be settled, and names
are to be looked up in roots or in values that hold no root. -/
theorem render_again {tags : Registry} {mode : Mode} {source : String}
    {journal : Journal}
    (ht : (Template.parse tags mode source journal).1 = .ok t)
    (assigns : Option Value) (environments : List Value) (strict : Bool)
    (h : w.Settled roots)
    (hdata : ∀ v ∈ assigns.toList ++ environments,
      w.store.Layer roots v) (n : Nat) :
    let run := (render assigns environments strict t).run
    (run ((fun w => (run w).2)^[n] w)).1 = (run w).1 := by
  intro run
  induction n generalizing w with
  | zero => rfl
  | succ n ih =>
    obtain ⟨hsame, hsettled, hlayers⟩ :=
      render_twice h (Template.parse_scalar ht) strict hdata
    rw [Function.iterate_succ_apply]
    exact (ih hsettled hlayers).trans hsame

/-- A deferred value that a name stands for directly is forced in the
first of many strict renders, and all of them write what it yields. -/
theorem render_again_forced :
    let source := "{% if a == a %}{{ a }}{% endif %}"
    let w : World := { World.fresh false with
      store := ⟨#[.deferred ⟨"a", .function, .yield (.text "v")⟩,
        .table [(.text "a", .object 0)]]⟩ }
    ∃ t, (Template.parse .standard .strict source (.fresh false)).1 = .ok t ∧
      let run := (render (some (.object 1)) [] true t).run
      ∀ n, (run ((fun w => (run w).2)^[n] w)).1 = .ok "v" := by
  intro source w
  have hcheck : (match (Template.parse .standard .strict source
        (.fresh false)).1 with
      | .ok t =>
        let run := (render (some (.object 1)) [] true t).run
        decide ((run w).1 = .ok "v")
      | .error _ => false) = true := by
    decide +kernel
  have hplaces (i : ObjectId) (o : Object) (ho : w.store.get? i = some o) :
      i = 0 ∧ o = .deferred ⟨"a", .function, .yield (.text "v")⟩ ∨
        i = 1 ∧ o = .table [(.text "a", .object 0)] := by
    rcases i with _ | _ | i
    · exact Or.inl ⟨rfl, (Option.some.inj ho).symm⟩
    · exact Or.inr ⟨rfl, (Option.some.inj ho).symm⟩
    · cases ho
  have hslot (v : Value) (d : Deferred) (hd : w.store.deferred? v = some d) :
      d.deed = .yield (.text "v") := by
    obtain ⟨i, -, ho⟩ := Store.deferred?_eq_some.1 hd
    rcases hplaces i _ ho with ⟨-, heq⟩ | ⟨-, heq⟩
    · cases heq
      rfl
    · cases heq
  have hsettled : w.Settled [1] := by
    refine ⟨fun i o ho => ?_, fun i hi => ?_,
      ⟨fun i o hi ho => ?_, fun v d _ hd markup => ?_,
        fun v d _ hd y hy => ?_⟩,
      fun i d c ho => ?_, fun ctx v hv => by cases hv⟩
    · rcases hplaces i o ho with ⟨rfl, rfl⟩ | ⟨rfl, rfl⟩
      · simp [Object.values, Deed.values, Value.Below]
      · simp [Object.values, Object.entryValues, Value.Below]
    · obtain rfl := List.mem_singleton.1 hi
      exact ⟨_, rfl⟩
    · rcases hplaces i o ho with ⟨rfl, rfl⟩ | ⟨rfl, rfl⟩
      · simp [Object.slots]
      · exact absurd (List.mem_singleton.2 rfl) hi
    · rw [hslot v d hd]
      exact fun h => by cases h
    · cases (hslot v d hd).symm.trans hy
      rfl
    · rcases hplaces i _ ho with ⟨-, heq⟩ | ⟨-, heq⟩ <;> cases heq
  have hlayer : ∀ v ∈ (some (Value.object 1)).toList ++ [],
      w.store.Layer [1] v := by
    intro v hv
    cases hv with
    | head => exact Or.inr ⟨1, List.mem_singleton.2 rfl, rfl⟩
    | tail _ h => cases h
  split at hcheck
  · next t ht =>
    refine ⟨t, ht, fun n => ?_⟩
    exact (render_again ht _ [] true hsettled hlayer n).trans
      (of_decide_eq_true hcheck)
  · cases hcheck

/-- In a list the world is not settled: what the list contains is asked
before and after its slot has been forced. -/
theorem render_again_ne :
    let source := "\x7b% if l contains \"v\" %\x7dT\x7b% else %\x7dF" ++
      "\x7b% endif %\x7d\x7b\x7b l[0] \x7d\x7d"
    let w : World := { World.fresh false with
      store := ⟨#[.deferred ⟨"a", .function, .yield (.text "v")⟩,
        .list [.object 0], .table [(.text "l", .object 1)]]⟩ }
    ∃ t, (Template.parse .standard .lax source (.fresh false)).1 = .ok t ∧
      let run := (render (some (.object 2)) [] false t).run
      (run w).1 = .ok "Fv" ∧ (run (run w).2).1 = .ok "Tv" := by
  intro source w
  have hcheck : (match (Template.parse .standard .lax source
        (.fresh false)).1 with
      | .ok t =>
        let run := (render (some (.object 2)) [] false t).run
        decide ((run w).1 = .ok "Fv" ∧ (run (run w).2).1 = .ok "Tv")
      | .error _ => false) = true := by
    decide +kernel
  split at hcheck
  · next t ht => exact ⟨t, ht, of_decide_eq_true hcheck⟩
  · cases hcheck

end Eval

end

end Stencil
