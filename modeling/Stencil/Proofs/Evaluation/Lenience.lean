/-
What can go wrong in a lenient context, and what cannot.

On its way a path asks one value after the other for something: for the
part under a key, or for the answer to a command. So do the paths in its
keys. A lenient context asks for no more than is there, and what is not
there comes to nil. So evaluation fails only where what is asked does not
answer (`expr_fails_iff`): where the host's own code fails, which is what
deferred values, members of drops and conversions run, or its counting,
which ends with long ranges; and where a drop is asked with a key that
cannot be one. A table is never asked with such a key: it does not hold
it. But a drop claims to hold every key, and refuses this one when it is
asked.

The induction is on the path, and what carries it is that the context
stays lenient and its layers stay tables, and that a drop on the way is
bound to the context, so that it is as lenient about its members.
-/
import Stencil.Proofs.Evaluation.Queries
import Stencil.Proofs.Evaluation.Silence

namespace Stencil

-- ============================================================= lenient

/-- A context of a well formed world that leaves unknown names be, and
looks names up in tables. -/
structure World.Lenient (w : World) (ctx : ContextId) : Prop where
  wellFormed : w.WellFormed
  context : ∃ c, w.contexts[ctx]? = some c ∧ c.strict = false ∧
    ∀ layer ∈ c.layers, w.store.access layer = .table

/-- What keys are looked up in stays that way while slots are filled. -/
theorem Store.Refilled.access_eq_table {R : Value → Value → Prop}
    {store store' : Store} (h : store.Refilled R store') {v : Value}
    (hv : store.access v = .table) : store'.access v = .table := by
  obtain ⟨es, ho | ho⟩ := object?_of_access hv
  · obtain ⟨es', ho', -⟩ := h.object?_table ho
    exact (access_table ho').1
  · have ho' := h.rewritten.object?_other ho (fun _ heq => by cases heq)
      fun _ heq => by cases heq
    exact (access_frozen ho').1

namespace World

variable {w t : World} {ctx : ContextId} {n : Nat}

namespace Lenient

theorem strict (h : w.Lenient ctx) : (w.context ctx).strict = false := by
  obtain ⟨c, hc, hstrict, -⟩ := h.context
  rw [World.context, hc]
  exact hstrict

/-- The layers of a lenient context are tables. -/
theorem access_layer (h : w.Lenient ctx) {layer : Value}
    (hlayer : layer ∈ (w.context ctx).layers) :
    w.store.access layer = .table := by
  obtain ⟨c, hc, -, htables⟩ := h.context
  rw [World.context, hc] at hlayer
  exact htables layer hlayer

/-- A context that is lenient stays so. -/
theorem later (h : w.Lenient ctx) (ht : t.WellFormed)
    (hlater : (Conduct.memory n).later w t) : t.Lenient ctx := by
  obtain ⟨forced, hevolves⟩ := hlater
  obtain ⟨c, hc, hstrict, htables⟩ := h.context
  exact ⟨ht, c, hevolves.memoised.contexts ctx c hc, hstrict,
    fun layer hlayer =>
      hevolves.memoised.objects.access_eq_table (htables layer hlayer)⟩

end Lenient
end World

-- ============================================================== asking

mutual

/-- In the course of evaluating an expression without ranges, something is
asked in a world. -/
def Expr.Asks (ctx : ContextId) : Expr → World → Query → World → Prop
  | .path p, w, q, u => Path.Asks ctx p p w q u
  | _, _, _, _ => False

/-- On the way along a path, something is asked in a world: for a name in
the layer that holds it, for a step of what the path has come to, or for
something that the name or a key has to be found out by. -/
def Path.Asks (ctx : ContextId) (whole : Path) :
    Path → World → Query → World → Prop
  | .root name, w, q, u =>
    name.Asks ctx w q u ∨
      ∃ key layer, Eval.expr Eval.markup ctx name w = (.ok key, u) ∧
        ((u.context ctx).layers.find? fun v => u.store.hasKey v key) =
          some layer ∧
        q = ⟨layer, key, none⟩
  | .step p key command, w, q, u =>
    Path.Asks ctx whole p w q u ∨
      ∃ v t, Eval.path Eval.markup ctx whole p w = (.ok (some v), t) ∧
        (key.Asks ctx t q u ∨
          ∃ k, Eval.expr Eval.markup ctx key t = (.ok k, u) ∧
            q = ⟨v, k, command⟩)

end

namespace Eval

section

variable {u : World} {ctx : ContextId} {v key : Value} {f : Failure}

/-- What has been told makes no difference to what a value stands for. -/
theorem toTemplateValue_told (x : Value) (t : World) (journal : Journal) :
    (toTemplateValue markup x { t with journal := journal }).1 =
      (toTemplateValue markup x t).1 :=
  (hushed_uniform.toTemplateValue (hushed_uniform.markupWithin maxDepth) x
    { t with journal := journal } t ⟨rfl, rfl, rfl⟩).eq.1

/-- A name is looked up as the query for it in the layer that holds it
is answered, in a lenient context. -/
theorem findVariable_fails_iff (hu : u.Lenient ctx) (name : Value) :
    (findVariable markup ctx name u).1 = .error f ↔
      ∃ layer,
        ((u.context ctx).layers.find? fun v => u.store.hasKey v name) =
          some layer ∧
        Query.Fails ctx ⟨layer, name, none⟩ u f := by
  rw [findVariable, get_bind_apply]
  cases hfind : (u.context ctx).layers.find? fun v =>
      u.store.hasKey v name with
  | none =>
    dsimp only
    rw [note_bind_apply, hu.strict]
    constructor
    · intro h
      cases h
    · rintro ⟨layer, hlayer, -⟩
      cases hlayer
  | some layer =>
    have haccess := hu.access_layer (List.mem_of_find?_eq_some hfind)
    have hhas := List.find?_some hfind
    have hoffers : u.store.offers layer name = true := by
      simp only [Store.offers, haccess, hhas]
      rfl
    have hbound : u.BoundIn ctx layer := fun d hd => by
      cases (Store.drop?_of_access haccess).symm.trans
        (Store.drop?_eq_some.2 hd)
    have hfound : _ ↔ Query.Fails ctx ⟨layer, name, none⟩ u f :=
      found_fails_iff hu.strict hbound hoffers
    dsimp only
    rw [bind_fails_iff]
    simp only [note_bind_apply, receive_fails_iff, toTemplateValue_told,
      hfound, Option.some.injEq, exists_eq_left']

-- ============================================================= the way

/-- The context stays lenient while an expression is evaluated. -/
theorem lenient_expr {e : Expr} (he : e.Spelled False True) {w : World}
    (hw : w.Lenient ctx) {r : Except Failure Value}
    (hrun : expr markup ctx e w = (r, u)) :
    u.Lenient ctx ∧ (Conduct.memory 0).later w u := by
  have hrecalls : Recalls 0 (expr markup ctx e) w :=
    memory_expr (memory_markupWithin maxDepth)
      (he.all fun v hv => hv.isScalar.below [] 0) w
  obtain ⟨hlater, ⟨hu, -⟩, -⟩ := hrecalls ⟨hw.wellFormed, Nat.zero_le _⟩
  rw [hrun] at hlater hu
  exact ⟨hw.later hu hlater, hlater⟩

/-- The context stays lenient on the way along a path, and what the path
comes to is there and bound to the context. -/
theorem lenient_path {p : Path} (hp : p.Spelled False True)
    {whole : Path} {w : World} (hw : w.Lenient ctx)
    (hrun : path markup ctx whole p w = (.ok (some v), u)) :
    u.Lenient ctx ∧ u.Knows v ∧ u.BoundIn ctx v := by
  have hrecalls : Recalls? 0 (path markup ctx whole p) w :=
    memory_path (memory_markupWithin maxDepth) whole
      (hp.all fun v hv => hv.isScalar.below [] 0) w
  obtain ⟨hlater, ⟨hu, -⟩, hknows⟩ :=
    hrecalls ⟨hw.wellFormed, Nat.zero_le _⟩
  have hbinds : Binds? ctx (path markup ctx whole p) w := bound_path whole p
  obtain ⟨-, -, hbound⟩ := hbinds trivial
  rw [hrun] at hlater hu hknows hbound
  cases hknows with
  | ok hknows =>
    cases hbound with
    | ok hbound => exact ⟨hw.later hu hlater, hknows v rfl, hbound v rfl⟩

/-- What a path has come to is still bound, in a context that is still
lenient, when the key of the next step is found out. -/
theorem lenient_key {p : Path} {e : Expr}
    (hpe : p.Spelled False True ∧ e.Spelled False True)
    {whole : Path} {w t : World} (hw : w.Lenient ctx)
    (hp : path markup ctx whole p w = (.ok (some v), t))
    (he : expr markup ctx e t = (.ok key, u)) :
    u.Lenient ctx ∧ u.BoundIn ctx v := by
  obtain ⟨ht, hknows, hbound⟩ := lenient_path hpe.1 hw hp
  obtain ⟨hu, hlater⟩ := lenient_expr hpe.2 ht he
  exact ⟨hu, hbound.later hknows hlater⟩

end

variable {ctx : ContextId} {f : Failure}

mutual

/-- The evaluation of an expression fails as some query does that it comes
to, in a lenient context. -/
theorem expr_fails_iff :
    ∀ {e : Expr}, e.Spelled False True → ∀ {w : World}, w.Lenient ctx →
      ((expr markup ctx e w).1 = .error f ↔
        ∃ q u, e.Asks ctx w q u ∧ q.Fails ctx u f)
  | .const v, _, w, _ => by
    constructor
    · intro h
      cases h
    · rintro ⟨q, u, hno, -⟩
      exact hno.elim
  | .path p, hp, w, hw => by
    refine Iff.trans ?_ (path_fails_iff p hp hw)
    refine bind_fails_iff_of_answers fun r t => ?_
    cases r with
    | some v => exact .bind (answers_note _) fun _ _ _ _ => .pure trivial
    | none => exact .pure trivial
  | .range _ _, ⟨hno, _, _⟩, _, _ => hno.elim

/-- A path fails as some query on the way does, in a lenient context. -/
theorem path_fails_iff (whole : Path) :
    ∀ {p : Path}, p.Spelled False True → ∀ {w : World}, w.Lenient ctx →
      ((path markup ctx whole p w).1 = .error f ↔
        ∃ q u, Path.Asks ctx whole p w q u ∧ q.Fails ctx u f)
  | .root name, hname, w, hw => by
    have hrest (key : Value) (u : World) :
        ((do return some (← findVariable markup ctx key) :
          Eval (Option Value)) u).1 = .error f ↔
            (findVariable markup ctx key u).1 = .error f :=
      bind_fails_iff_of_answers fun _ _ => .pure trivial
    rw [path, bind_fails_iff, expr_fails_iff hname hw]
    simp only [hrest, Path.Asks]
    constructor
    · rintro (⟨q, u, hasks, h⟩ | ⟨key, u, hkey, h⟩)
      · exact ⟨q, u, Or.inl hasks, h⟩
      · have hu := (lenient_expr hname hw hkey).1
        obtain ⟨layer, hlayer, h⟩ := (findVariable_fails_iff hu key).1 h
        exact ⟨_, u, Or.inr ⟨key, layer, hkey, hlayer, rfl⟩, h⟩
    · rintro ⟨q, u, hasks | ⟨key, layer, hkey, hlayer, rfl⟩, h⟩
      · exact Or.inl ⟨q, u, hasks, h⟩
      · have hu := (lenient_expr hname hw hkey).1
        exact Or.inr ⟨key, u, hkey,
          (findVariable_fails_iff hu key).2 ⟨layer, hlayer, h⟩⟩
  | .step p key command, hstep, w, hw => by
    obtain ⟨hp, hkey⟩ := hstep
    rw [path, bind_fails_iff, path_fails_iff whole hp hw]
    simp only [Path.Asks]
    constructor
    · rintro (⟨q, u, hasks, h⟩ | ⟨_ | v, t, hrun, h⟩)
      · exact ⟨q, u, Or.inl hasks, h⟩
      · cases h
      · have ht := (lenient_path hp hw hrun).1
        rcases bind_fails_iff.1 h with h | ⟨k, u, hk, h⟩
        · obtain ⟨q, u, hasks, h⟩ := (expr_fails_iff hkey ht).1 h
          exact ⟨q, u, Or.inr ⟨v, t, hrun, Or.inl hasks⟩, h⟩
        · obtain ⟨hu, hbound⟩ := lenient_key ⟨hp, hkey⟩ hw hrun hk
          exact ⟨_, u, Or.inr ⟨v, t, hrun, Or.inr ⟨k, hk, rfl⟩⟩,
            (stepFrom_fails_iff whole hu.strict hbound).1 h⟩
    · rintro ⟨q, u, hasks | ⟨v, t, hrun, hrest⟩, h⟩
      · exact Or.inl ⟨q, u, hasks, h⟩
      · have ht := (lenient_path hp hw hrun).1
        refine Or.inr ⟨some v, t, hrun, bind_fails_iff.2 ?_⟩
        rcases hrest with hasks | ⟨k, hk, rfl⟩
        · exact Or.inl ((expr_fails_iff hkey ht).2 ⟨q, u, hasks, h⟩)
        · obtain ⟨hu, hbound⟩ := lenient_key ⟨hp, hkey⟩ hw hrun hk
          exact Or.inr ⟨k, u, hk,
            (stepFrom_fails_iff whole hu.strict hbound).2 h⟩

end

end Eval

-- ============================================================= nowhere

/-- There is something under a key, as far as a value can tell, but it is
nil: a drop has no member of the name, or a sequence no item there. -/
inductive Store.Lacks (store : Store) : Value → Value → Prop
  /-- A drop has no member that the key asks for. -/
  | member {v key : Value} {d : Drop} (hdrop : store.drop? v = some d)
      (hkey : Eval.mayBeKey store key = true)
      (hmember : Eval.member? d key = none) : Lacks store v key
  /-- A sequence has no item at the position, or has nil. -/
  | item {v : Value} {index : Int} (haccess : store.access v = .sequence)
      (hitem : store.item v index = .nil) : Lacks store v (.int index)

/-- A path with further steps. -/
def Path.extend (p : Path) (steps : List (Expr × Option Command)) : Path :=
  steps.foldl (fun path s => .step path s.1 s.2) p

/-- What has been spelled with further steps is spelled without them. -/
theorem Path.Spelled.of_extend {ranges large : Prop} {p : Path}
    (steps : List (Expr × Option Command))
    (h : (p.extend steps).Spelled ranges large) : p.Spelled ranges large := by
  induction steps generalizing p with
  | nil => exact h
  | cons s rest ih => exact (ih h).1

namespace Eval

section

variable {ctx : ContextId} {reenter : Reenter} {w u : World} {v key : Value}
  {command : Option Command} {p : Path}

/-- From nil no step leads anywhere. -/
theorem stepFrom_nil (whole : Path)
    {r : Option Value}
    (h : (stepFrom reenter ctx whole .nil key command u).1 = .ok r) :
    r = none := by
  have hcommand : command.bind (u.store.command? .nil) = none := by
    cases command with
    | none => rfl
    | some c => rfl
  obtain ⟨journal, hstep⟩ := stepFrom_of_misses whole rfl hcommand
  rw [hstep, get_bind_apply] at h
  split at h
  · cases hprint : u.store.print key with
    | ok shown =>
      rw [hprint] at h
      cases h
    | error f =>
      rw [hprint] at h
      cases h
  · cases h
    rfl

/-- A path goes on with a step from what it has come to. -/
theorem path_step_apply {whole : Path} {e : Expr}
    {w t u : World} (command : Option Command)
    (hp : path reenter ctx whole p w = (.ok (some v), t))
    (he : expr reenter ctx e t = (.ok key, u)) :
    path reenter ctx whole (.step p e command) w =
      stepFrom reenter ctx whole v key command u := by
  rw [path, bind_apply, hp]
  dsimp only
  rw [bind_apply, he]

/-- A path that leads nowhere leads nowhere when it goes on. -/
theorem path_extend_none (whole : Path)
    (steps : List (Expr × Option Command))
    (h : (path reenter ctx whole p w).1 = .ok none) :
    (path reenter ctx whole (p.extend steps) w).1 = .ok none := by
  induction steps generalizing p with
  | nil => exact h
  | cons s rest ih =>
    refine ih ?_
    rw [path, bind_apply]
    rcases hrun : path reenter ctx whole p w with ⟨r, t⟩
    rw [hrun] at h
    obtain rfl : r = .ok none := h
    rfl

/-- What a path answers that goes on from nil, or from nowhere, is the
same. -/
theorem path_extend_nil (whole : Path)
    (steps : List (Expr × Option Command))
    (h : ∀ r, (path reenter ctx whole p w).1 = .ok r → r.getD .nil = .nil) :
    ∀ r, (path reenter ctx whole (p.extend steps) w).1 = .ok r →
      r.getD .nil = .nil := by
  induction steps generalizing p with
  | nil => exact h
  | cons s rest ih =>
    refine ih fun r hr => ?_
    rw [path, bind_apply] at hr
    rcases hrun : path reenter ctx whole p w with ⟨_ | _ | v, t⟩
    · rw [hrun] at hr
      cases hr
    · rw [hrun] at hr
      cases hr
      rfl
    · obtain rfl : v = .nil := h (some v) (by rw [hrun])
      rw [hrun] at hr
      dsimp only at hr
      rw [bind_apply] at hr
      split at hr
      · obtain rfl := stepFrom_nil whole hr
        rfl
      · cases hr

/-- A bound drop without a member, and a sequence without an item, have
nil instead. -/
theorem part_of_lacks (hstrict : (u.context ctx).strict = false)
    (hv : u.BoundIn ctx v) (h : u.store.Lacks v key) :
    u.store.offers v key = true ∧
      part reenter v key u = (.ok .nil, u) := by
  cases h with
  | member hdrop hkey hmember =>
    refine ⟨Store.offers_drop hdrop key, ?_⟩
    have hbound := hv _ (Store.drop?_eq_some.1 hdrop)
    rw [part, store_bind_apply, hdrop]
    dsimp only
    rw [ask, store_bind_apply, if_pos hkey, hmember]
    exact missing_of_lenient hstrict hbound key
  | item haccess hitem =>
    refine ⟨Store.offers_index haccess _, ?_⟩
    rw [part_of_fetch (Store.drop?_sequence haccess),
      Store.fetch_sequence haccess, hitem]

/-- A step to what is lacked leads to nil. -/
theorem stepFrom_of_lacks (whole : Path)
    (hstrict : (u.context ctx).strict = false) (hv : u.BoundIn ctx v)
    (h : u.store.Lacks v key) :
    (stepFrom reenter ctx whole v key command u).1 = .ok (some .nil) := by
  obtain ⟨hoffers, hpart⟩ := part_of_lacks hstrict hv h
  have hforced : forcedPart reenter ctx v key u = (.ok .nil, u) := by
    rw [forcedPart, bind_apply, hpart]
    rfl
  rw [stepFrom_of_offers whole hoffers, bind_apply, hforced]
  rfl

/-- A path is evaluated to what it answers, and to nil where it leads
nowhere. -/
theorem evaluate_path_eq_ok {x : Value}
    (h : (evaluate ctx (.path p) w).1 = .ok x) :
    ∃ r, (path markup ctx p p w).1 = .ok r ∧ r.getD .nil = x := by
  rcases hrun : evaluate ctx (.path p) w with ⟨r, u⟩
  rw [hrun] at h
  obtain rfl : r = .ok x := h
  obtain ⟨r, t, hpath, hrest⟩ := bind_eq_ok.1 hrun
  refine ⟨r, by rw [hpath], ?_⟩
  cases r with
  | none =>
    cases hrest
    rfl
  | some y =>
    cases hrest
    rfl

/-- A path that leads nowhere is evaluated to nil. -/
theorem evaluate_path_of_none
    (h : (path markup ctx p p w).1 = .ok none) :
    (evaluate ctx (.path p) w).1 = .ok .nil := by
  show ((path markup ctx p p >>= _) w).1 = _
  rw [bind_apply]
  rcases hrun : path markup ctx p p w with ⟨r, t⟩
  rw [hrun] at h
  obtain rfl : r = .ok none := h
  rfl

/-- Evaluation of paths in a lenient context. Whatever the kinds of the
values on the way and of the keys, evaluation answers, unless the host
fails where it is asked, which it then fails like, or a drop is asked with
a key that cannot be one. A step for which a value has neither a part nor
a command makes the path come to nil, whatever steps come behind it; and
if a drop has no member or a sequence no item, the path comes to nil if it
answers. -/
theorem evaluate_lenient (ctx : ContextId) {p : Path}
    (hp : p.Spelled False True) {w : World} (hw : w.Lenient ctx) :
    (∀ f, (evaluate ctx (.path p) w).1 = .error f ↔
      ∃ q u, Path.Asks ctx p p w q u ∧
        (q.HostFails ctx u f ∨ q.Refused u ∧ f = .notSupported)) ∧
    ∀ front key command steps,
      p = (Path.step front key command).extend steps → ∀ v t k u,
        path markup ctx p front w = (.ok (some v), t) →
        expr markup ctx key t = (.ok k, u) →
        (u.store.offers v k = false →
          command.bind (u.store.command? v) = none →
          (evaluate ctx (.path p) w).1 = .ok .nil) ∧
        (u.store.Lacks v k → ∀ x, (evaluate ctx (.path p) w).1 = .ok x →
          x = .nil) := by
  have hexpr : (Expr.path p).Spelled False True := hp
  refine ⟨fun f => expr_fails_iff hexpr hw, ?_⟩
  rintro front key command steps rfl v t k u hfront hkey
  have hspelled : (Path.step front key command).Spelled False True :=
    .of_extend steps hp
  obtain ⟨hu, hbound⟩ := lenient_key hspelled hw hfront hkey
  have hstep := path_step_apply command hfront hkey
  refine ⟨fun hoffers hcommand => ?_, fun hlacks x hx => ?_⟩
  · refine evaluate_path_of_none (path_extend_none _ steps ?_)
    rw [hstep]
    exact stepFrom_eq_none _ hu.strict hoffers hcommand
  · obtain ⟨r, hr, rfl⟩ := evaluate_path_eq_ok hx
    refine path_extend_nil _ steps (fun r hr => ?_) r hr
    rw [hstep, stepFrom_of_lacks _ hu.strict hbound hlacks] at hr
    cases hr
    rfl

end

/-- A drop that is asked with a list, and for a member that it does not
have. -/
theorem evaluate_lenient_drop :
    ∃ (w : World) (asked missed : Path),
      Expr.parse "d[l]" = .ok (.path asked) ∧
      Expr.parse "d.x.size" = .ok (.path missed) ∧ w.Lenient 0 ∧
      asked.Spelled False True ∧ missed.Spelled False True ∧
      (∃ q u, Path.Asks 0 asked asked w q u ∧
        (q.HostFails 0 u .notSupported ∨
          q.Refused u ∧ Failure.notSupported = .notSupported)) ∧
      (evaluate 0 (.path missed) w).1 = .ok .nil := by
  let w : World := ⟨⟨#[.drop ⟨"d", [], none⟩, .list [.int 1],
      .table [(.text "d", .object 0), (.text "l", .object 1)]]⟩,
    #[⟨[.object 2], [], false⟩], [], .fresh false⟩
  let asked : Path := .step (.root (.const (.text "d")))
    (.path (.root (.const (.text "l")))) none
  let member : Path :=
    .step (.root (.const (.text "d"))) (.const (.text "x")) none
  let missed : Path := .step member (.const (.text "size")) (some .size)
  have hw : w.Lenient 0 :=
    ⟨by decide +kernel, _, rfl, rfl, by decide +kernel⟩
  have hasked : asked.Spelled False True := ⟨trivial, trivial⟩
  have hmissed : missed.Spelled False True := ⟨⟨trivial, trivial⟩, trivial⟩
  refine ⟨w, asked, missed, by decide +kernel, by decide +kernel, hw,
    hasked, hmissed, ?_, ?_⟩
  · exact ((evaluate_lenient 0 hasked hw).1 .notSupported).1
      (by decide +kernel)
  · have hrun : (path markup 0 missed member w).1 =
        .ok (some .nil) := by
      decide +kernel
    rcases hfront : path markup 0 missed member w
      with ⟨r, t⟩
    rw [hfront] at hrun
    obtain rfl : r = .ok (some .nil) := hrun
    exact ((evaluate_lenient 0 hmissed hw).2 member _ _ [] rfl _ t _ t
      hfront rfl).1 rfl rfl

/-- With a list for a key, a table comes to nil, and a drop fails: it
claims to hold the key, and refuses it. -/
theorem exists_lenient_failure :
    ∃ (w : World) (ofTable ofDrop : Expr),
      Expr.parse "t[l]" = .ok ofTable ∧ Expr.parse "d[l]" = .ok ofDrop ∧
      w.Lenient 0 ∧
      w.store.objects = #[.drop ⟨"d", [], none⟩, .list [.int 1],
        .table [(.text "d", .object 0), (.text "l", .object 1),
          (.text "t", .object 3)], .table []] ∧
      (evaluate 0 ofTable w).1 = .ok .nil ∧
      (evaluate 0 ofDrop w).1 = .error .notSupported := by
  let w : World := ⟨⟨#[.drop ⟨"d", [], none⟩, .list [.int 1],
      .table [(.text "d", .object 0), (.text "l", .object 1),
        (.text "t", .object 3)], .table []]⟩,
    #[⟨[.object 2], [], false⟩], [], .fresh false⟩
  have hw : w.Lenient 0 :=
    ⟨by decide +kernel, _, rfl, rfl, by decide +kernel⟩
  refine ⟨w, .path (.step (.root (.const (.text "t")))
      (.path (.root (.const (.text "l")))) none),
    .path (.step (.root (.const (.text "d")))
      (.path (.root (.const (.text "l")))) none), ?_, ?_, hw, ?_⟩
  · decide +kernel
  · decide +kernel
  · decide +kernel

end Eval

end Stencil
