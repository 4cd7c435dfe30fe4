/-
Scopes are entered and left in order.

A new context has one scope. It has one more for each scope that is entered
and one less for each that is left, and the outermost one cannot be left.
What is done inside of a scope, with steps that leave other scopes alone,
is undone with it, however it ends: the context has the scopes that it had,
nothing was assigned in them, and names stand for what they stood for
(`scope_discipline`).

The scope must be none of the scopes that the context has, for otherwise
these would be assigned to. Environments are there to be read. They are
spared as well, unless one of them is entered as a scope. And if nothing
that the context can reach is entered as a scope, all of it is as it was.
-/
import Stencil.Proofs.Scope.Resolution

namespace Stencil.Eval

variable {w : World} {ctx : ContextId}

/-- A new context has one scope, and can be used. -/
theorem hosts_newContext (hw : w.WellFormed) {scope : Option Value}
    {environments : List Value} (hscope : ∀ v ∈ scope, w.Knows v)
    (henvironments : ∀ v ∈ environments, w.Knows v) (strict : Bool) :
    (newContext scope environments strict w).2.Hosts w.contexts.size ∧
      (newContext scope environments strict w).2.depth
        w.contexts.size = 1 := by
  have hcontext (c : Context) :
      (w.contexts.push c)[w.contexts.size]?.getD ⟨[], [], false⟩ = c := by
    rw [Array.getElem?_push_size, Option.getD_some]
  have hthere (c : Context) : w.contexts.size < (w.contexts.push c).size := by
    rw [Array.size_push]
    exact Nat.lt_succ_self _
  cases scope with
  | none =>
    have hdepth : (newContext none environments strict w).2.depth
        w.contexts.size = 1 := congrArg (·.scopes.length) (hcontext _)
    obtain ⟨-, ⟨hmade, -⟩, -⟩ :=
      memory_newContext henvironments strict ⟨hw, Nat.le_refl _⟩
    exact ⟨⟨hmade, hthere _, Nat.le_of_eq hdepth.symm⟩, hdepth⟩
  | some v =>
    have hdepth : (newContext (some v) environments strict w).2.depth
        w.contexts.size = 1 := congrArg (·.scopes.length) (hcontext _)
    have hmade := hw.push (c := ⟨[v], environments, strict⟩)
      (List.forall_mem_cons.2 ⟨hscope v rfl, henvironments⟩)
    exact ⟨⟨hmade, hthere _, Nat.le_of_eq hdepth.symm⟩, hdepth⟩

/-- What is done in a context that has a scope, as a new one has.

The depth of the context after any steps is the depth before, with the
scopes entered and without those left, and never less than one. To leave
the outermost scope fails and changes nothing.

An action inside a scope, which neither enters nor leaves others but by
acting inside of them, ends as it would by itself. Provided that none of
these scopes is one of the context already, the context has the scopes it
had before, which hold the same keys with the same values, but for values
that were deferred. If environments have only been read, each name that
does not stand for a deferred value has the value that it had, and stands
for the same as before, up to which copy of a drop it is. (A drop that is
bound in the data already may have to evaluate markup to know what it
stands for. This may look into a scope that the data hold and that was
assigned to.) Environments have only been read if none of the scopes is one
of them.

Where the data that the context can reach hold no deferred values, and none
of the scopes is one of these data, each name stands for the same as before,
whatever it stands for, up to the places of what is made to find it. -/
theorem scope_discipline (hw : w.Hosts ctx) :
    (∀ {scope : Option Value} {environments : List Value},
      (∀ v ∈ scope, w.Knows v) → (∀ v ∈ environments, w.Knows v) →
      ∀ strict,
        (newContext scope environments strict w).2.Hosts w.contexts.size ∧
          (newContext scope environments strict w).2.depth
            w.contexts.size = 1) ∧
    (∀ {α : Type} {free : Prop} {fresh : World → Value → Prop}
      {x : Eval α} {t : Tally}, Uses free fresh ctx x w t →
      (x w).2.depth ctx + t.left = w.depth ctx + t.entered ∧
        1 ≤ (x w).2.depth ctx) ∧
    (w.depth ctx = 1 → leave ctx w = (.error .outermostScope, w)) ∧
    (∀ {α : Type} {scope : Option Value} {action : Value → Eval α}
      {t : Tally},
      (∀ v ∈ scope, w.Knows v ∧ v ∉ (w.context ctx).scopes) →
      Uses False (fun u v => v ∉ (u.context ctx).scopes) ctx
        (action ((w.inside ctx scope).innermost ctx)) (w.inside ctx scope)
        t →
      (within ctx scope action w).1 =
        (action ((w.inside ctx scope).innermost ctx)
          (w.inside ctx scope)).1 ∧
      (within ctx scope action w).2.contexts[ctx]? = w.contexts[ctx]? ∧
      (∀ v ∈ (w.context ctx).scopes,
        w.store.Spares (within ctx scope action w).2.store v) ∧
      (w.store.Mappings (w.context ctx).layers →
        (∀ v ∈ (w.context ctx).environments,
          w.store.Spares (within ctx scope action w).2.store v) →
        ∀ name, w.Knows name →
        (∀ x, w.store.lookUp? (w.context ctx).layers name = some x →
          w.store.deferred? x = none) →
        (within ctx scope action w).2.store.lookUp? (w.context ctx).layers
            name = w.store.lookUp? (w.context ctx).layers name ∧
          (w.store.Keyable name →
            (∀ x, w.store.lookUp? (w.context ctx).layers name = some x →
              StandsAlone w.store x) →
            Alike (Store.Copies ctx (findVariable markup ctx name w).2.store
                (findVariable markup ctx name
                  (within ctx scope action w).2).2.store)
              (findVariable markup ctx name w).1
              (findVariable markup ctx name
                (within ctx scope action w).2).1))) ∧
    (∀ {α : Type} {scope : Option Value} {action : Value → Eval α}
      {t : Tally},
      (∀ v ∈ scope, w.Knows v ∧ v ∉ (w.context ctx).layers) →
      Uses False (fun u v => v ∉ (u.context ctx).layers) ctx
        (action ((w.inside ctx scope).innermost ctx)) (w.inside ctx scope)
        t →
      ∀ v ∈ (w.context ctx).environments,
        w.store.Spares (within ctx scope action w).2.store v) ∧
    ∀ {objects : List ObjectId} {contexts : List ContextId},
      w.Enclosure objects contexts → ctx ∈ contexts →
      ∀ {α : Type} {scope : Option Value} {action : Value → Eval α}
        {t : Tally},
      (∀ v ∈ scope, w.Knows v ∧ v ∉ objects.map Value.object) →
      Uses False (fun _ v => v ∉ objects.map Value.object) ctx
        (action ((w.inside ctx scope).innermost ctx)) (w.inside ctx scope)
        t →
      ∀ name : Value, name.Within objects →
      Alike (w.Counterparts objects (findVariable markup ctx name w).2
          (findVariable markup ctx name (within ctx scope action w).2).2)
        (findVariable markup ctx name w).1
        (findVariable markup ctx name (within ctx scope action w).2).1 := by
  refine ⟨hosts_newContext hw.wellFormed, fun h => ?_, fun hdepth => ?_,
    fun {α scope action t} hscope h => ?_,
    fun {α scope action t} hscope h v hv => ?_,
    fun {objects contexts} hdata hctx {α scope action t} hscope h name
      hname => ?_⟩
  · obtain ⟨hend, hdepth⟩ := h.depth hw
    exact ⟨hdepth, hend.rooted⟩
  · rw [leave_apply, if_pos (Nat.le_of_eq hdepth)]
  · obtain ⟨houtcome, hcontexts, hrewritten, hspares⟩ := h.within_spares
      Context.scopes (fun _ _ => List.subset_cons_self _ _) hw hscope
    have hcontext := hcontexts ctx hw.there
    refine ⟨houtcome, hcontext, hspares,
      fun hlayers hread name hname hdeferred => ?_⟩
    have hspares : ∀ v ∈ (w.context ctx).layers,
        w.store.Spares (within ctx scope action w).2.store v :=
      fun v hv => (List.mem_append.1 hv).elim (hspares v) (hread v)
    have hfound := Store.lookUp?_spared hw.wellFormed.closed hrewritten
      hlayers hspares hname
    exact ⟨Store.lookUp?_eq_of_spared hfound hdeferred,
      fun hkey halone => findVariable_spared hw.wellFormed hrewritten
        (World.context_eq hcontext) hlayers hspares hkey
        fun x hx => ⟨hdeferred x hx, halone x hx⟩⟩
  · obtain ⟨-, -, -, hspares⟩ := h.within_spares
      Context.layers (fun _ _ => List.subset_cons_self _ _) hw hscope
    exact hspares v (List.mem_append_right _ hv)
  · exact findVariable_alike hdata (h.within_keeps hdata hw hscope) hctx
      hname

/-- A scope that was there is entered, a name is assigned in it, and inside
of another scope the action fails. The failure comes through, the scope has
the name, and outside of it the name has the value that it had. A drop in
an environment can be found as before, and so can one that is bound and
stands for what the name stands for. The outermost scope cannot be left,
be it that one more was entered and left. -/
theorem scope_discipline_raised :
    ∃ (w : World) (body : Value → Eval Unit) (steps : Eval Value),
      w.store.objects = #[
        .table [(.text "x", .int 1)],
        .table [(.text "d", .object 2), (.text "b", .object 4)],
        .drop ⟨"D", [], none⟩,
        .table [],
        .drop ⟨"B", [("to_template_value", .reader "x")], some 0⟩] ∧
      w.contexts = #[⟨[.object 0], [.object 1], true⟩] ∧
      (body = fun _ => do
        assign 0 (.text "x") (.int 2)
        within 0 none fun _ => throw (.raised "late")) ∧
      (within 0 (some (.object 3)) body w).1 = .error (.raised "late") ∧
      (within 0 (some (.object 3)) body w).2.contexts[0]? =
        w.contexts[0]? ∧
      (within 0 (some (.object 3)) body w).2.store.get? 3 =
        some (.table [(.text "x", .int 2)]) ∧
      (within 0 (some (.object 3)) body w).2.store.lookUp?
        [.object 0, .object 1] (.text "x") = some (.int 1) ∧
      Alike (Store.Copies 0 (findVariable markup 0 (.text "d") w).2.store
          (findVariable markup 0 (.text "d")
            (within 0 (some (.object 3)) body w).2).2.store)
        (findVariable markup 0 (.text "d") w).1
        (findVariable markup 0 (.text "d")
          (within 0 (some (.object 3)) body w).2).1 ∧
      Alike (w.Counterparts [0, 1, 2, 4]
          (findVariable markup 0 (.text "b") w).2
          (findVariable markup 0 (.text "b")
            (within 0 (some (.object 3)) body w).2).2)
        (findVariable markup 0 (.text "b") w).1
        (findVariable markup 0 (.text "b")
          (within 0 (some (.object 3)) body w).2).1 ∧
      (findVariable markup 0 (.text "b") w).1 = .ok (.int 1) ∧
      (steps = do
        enter 0 none
        let _ ← leave 0
        leave 0) ∧
      (steps w).2.depth 0 = 1 ∧
      leave 0 w = (.error .outermostScope, w) := by
  let w : World := ⟨⟨#[
      .table [(.text "x", .int 1)],
      .table [(.text "d", .object 2), (.text "b", .object 4)],
      .drop ⟨"D", [], none⟩,
      .table [],
      .drop ⟨"B", [("to_template_value", .reader "x")], some 0⟩]⟩,
    #[⟨[.object 0], [.object 1], true⟩], [], .fresh false⟩
  let body : Value → Eval Unit := fun _ => do
    assign 0 (.text "x") (.int 2)
    within 0 none fun _ => throw (.raised "late")
  let steps : Eval Value := do
    enter 0 none
    let _ ← leave 0
    leave 0
  have hw : w.Hosts 0 := ⟨by decide +kernel, by decide, by decide⟩
  have hdata : w.Enclosure [0, 1, 2, 4] [0] := by
    constructor <;> decide +kernel
  obtain ⟨-, hdepth, houtermost, hinside, hread, hreach⟩ :=
    scope_discipline hw
  -- a name is assigned, and the action fails in another scope
  have hbody (fresh : World → Value → Prop) : ∃ t, Uses False fresh 0
      (body ((w.inside 0 (some (.object 3))).innermost 0))
      (w.inside 0 (some (.object 3))) t :=
    ⟨_, .bind (.assign (fun i hi => by cases hi) fun i hi => by cases hi)
      (Prod.ext rfl rfl)
      (.within (fun v hv => (Option.not_mem_none v hv).elim)
        (.throw (.raised "late") _) rfl)⟩
  have hsteps : ∃ t, Uses True (fun _ _ => True) 0 steps w t ∧
      t = ⟨1, 1⟩ :=
    ⟨_, .bind (.enter trivial fun v hv => (Option.not_mem_none v hv).elim)
      (Prod.ext rfl rfl)
      (.bind (.leave _ trivial) (Prod.ext rfl rfl) (.leave _ trivial)), rfl⟩
  have hscope : ∀ v ∈ some (Value.object 3),
      w.Knows v ∧ v ∉ (w.context 0).layers :=
    fun v hv => Option.some.inj hv ▸
      ⟨(by decide : (Value.object 3).Below [] 5), by decide⟩
  obtain ⟨_, hsteps, rfl⟩ := hsteps
  obtain ⟨_, hspared⟩ := hbody fun u v => v ∉ (u.context 0).layers
  obtain ⟨_, hkept⟩ := hbody fun _ v =>
    v ∉ [0, 1, 2, 4].map Value.object
  obtain ⟨_, hbody⟩ := hbody fun u v => v ∉ (u.context 0).scopes
  obtain ⟨houtcome, hcontext, -, hnames⟩ := hinside (fun v hv =>
    ⟨(hscope v hv).1, fun h => (hscope v hv).2 (List.mem_append_left _ h)⟩)
    hbody
  have hnames := hnames (by decide +kernel) (hread hscope hspared)
  have hx : w.store.lookUp? (w.context 0).layers (.text "x") =
      some (.int 1) := by
    decide +kernel
  have hd : w.store.lookUp? (w.context 0).layers (.text "d") =
      some (.object 2) := by
    decide +kernel
  refine ⟨w, body, steps, rfl, rfl, rfl, houtcome.trans ?_, hcontext, ?_,
    ?_, ?_, hreach hdata (by decide) (fun v hv => ?_) hkept (.text "b") ?_,
    ?_, rfl, Nat.add_right_cancel (hdepth hsteps).1, houtermost rfl⟩
  · decide +kernel
  · decide +kernel
  · refine ((hnames (.text "x") ?_ fun v hv => ?_).1).trans hx
    · exact (Value.isScalar_text "x").below _ _
    · cases hx.symm.trans hv
      rfl
  · refine (hnames (.text "d") ?_ fun v hv => ?_).2 ?_ fun v hv d m hdrop => ?_
    · exact (Value.isScalar_text "d").below _ _
    · cases hd.symm.trans hv
      rfl
    · decide +kernel
    · cases hd.symm.trans hv
      cases hdrop
      intro h
      cases h
  · exact ⟨(hscope v hv).1, Option.some.inj hv ▸ by decide⟩
  · decide
  · decide +kernel

/-- A scope that is none of the scopes may still be found in another way, and
what is assigned in it stays. An environment that is entered as a scope has
another value for a name afterwards. And a drop that evaluates markup to
know what it stands for finds another value, if the markup leads into a
table that was entered. -/
theorem scope_discipline_found :
    (let w : World := ⟨⟨#[.table [], .table [(.text "x", .int 1)]]⟩,
        #[⟨[.object 0], [.object 1], false⟩], [], .fresh false⟩
      let body : Value → Eval Unit := fun _ =>
        assign 0 (.text "x") (.int 2)
      let left := within 0 (some (.object 1)) body w
      w.Hosts 0 ∧ Value.object 1 ∉ (w.context 0).scopes ∧
        left.1 = .ok () ∧
        (findVariable markup 0 (.text "x") w).1 = .ok (.int 1) ∧
        (findVariable markup 0 (.text "x") left.2).1 = .ok (.int 2)) ∧
    let w : World := ⟨⟨#[
        .table [(.text "t", .object 1), (.text "b", .object 2)],
        .table [(.text "x", .int 1)],
        .drop ⟨"B", [("to_template_value", .reader "t.x")], some 0⟩]⟩,
      #[⟨[.object 0], [], false⟩], [], .fresh false⟩
    let body : Value → Eval Unit := fun _ =>
      assign 0 (.text "x") (.int 2)
    let left := within 0 (some (.object 1)) body w
    w.Hosts 0 ∧ Value.object 1 ∉ (w.context 0).layers ∧
      left.1 = .ok () ∧
      (findVariable markup 0 (.text "b") w).1 = .ok (.int 1) ∧
      (findVariable markup 0 (.text "b") left.2).1 = .ok (.int 2) := by
  refine ⟨⟨⟨?_, by decide, by decide⟩, ?_, rfl, ?_, ?_⟩,
    ⟨?_, by decide, by decide⟩, ?_, rfl, ?_, ?_⟩
  all_goals decide +kernel

end Stencil.Eval
