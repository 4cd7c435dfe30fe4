/-
What using a context leaves alone.

Names are assigned in the innermost scope, and nothing else is written but
answers of deferred values into the slots that these stood in. So an action
that neither enters nor leaves scopes of its own accord spares all that is
listed but that scope (`Uses.spares`), be it the layers of the context or
anything else. If it acts in a scope, that scope is the innermost one in the
meantime. All that is listed is spared then, provided that the scope is not
listed, and the context has the layers that it had again afterwards
(`within_spares`).
-/
import Stencil.Proofs.Scope.Steps

namespace Stencil

namespace Store

variable {store store' store'' : Store} {v x y : Value}

/-- A value has stayed in its slot, unless it was deferred. -/
def Stays (store : Store) (x y : Value) : Prop :=
  y = x ∨ (store.deferred? x).isSome = true

/-- What a value refers to has been spared: in its slots stand the values
that stood there, or the answers of deferred ones. -/
def Spares (store store' : Store) (v : Value) : Prop :=
  ∀ o, store.object? v = some o →
    ∃ o', store'.object? v = some o' ∧ o.Refilled store.Stays o'

theorem Stays.refl (x : Value) : store.Stays x x := Or.inl rfl

/-- What grows spares everything. -/
theorem Grown.spares (h : store.Grown store') : store.Spares store' v := by
  intro o ho
  obtain ⟨i, rfl, ho⟩ := object?_eq_some.1 ho
  exact ⟨o, h i o ho, .refl .refl⟩

/-- What is spared twice is spared: a value that is deferred later was so
before. -/
theorem Spares.trans (h : store.Spares store' v)
    (h' : store'.Spares store'' v) (hclosed : store.Closed [])
    (hrewritten : store.Rewritten store') : store.Spares store'' v := by
  intro o ho
  obtain ⟨o', ho', hrefilled⟩ := h o ho
  obtain ⟨o'', ho'', hrefilled'⟩ := h' o' ho'
  refine ⟨o'', ho'', hrefilled'.hull.trans hrefilled.hull, fun k x hx => ?_⟩
  obtain ⟨y, hy, hxy⟩ := hrefilled.slots k x hx
  obtain ⟨z, hz, hyz⟩ := hrefilled'.slots k y hy
  refine ⟨z, hz, ?_⟩
  rcases hxy with rfl | hdeferred
  · rcases hyz with rfl | hdeferred
    · exact .refl _
    · obtain ⟨d, hd⟩ := Option.isSome_iff_exists.1 hdeferred
      have hhas := hclosed.has_of_object? ho (Object.mem_values_of_slot? hx)
      exact Or.inr (Option.isSome_iff_exists.2
        ⟨d, hrewritten.deferred?_of hhas hd⟩)
  · exact Or.inr hdeferred

end Store

-- =============================================================== worlds

/-- Where all contexts are as they were there are no fewer. -/
theorem World.contexts_le {w u : World}
    (h : ∀ c < w.contexts.size, u.contexts[c]? = w.contexts[c]?) :
    w.contexts.size ≤ u.contexts.size := by
  refine Nat.le_of_not_lt fun hlt => ?_
  have hlast := h _ hlt
  rw [Array.getElem?_eq_none (Nat.le_refl _),
    Array.getElem?_eq_getElem hlt] at hlast
  cases hlast

/-- Contexts are as they were, and what is listed of one has been spared but
for its innermost scope. -/
structure World.Spares (listed : Context → List Value) (ctx : ContextId)
    (w u : World) : Prop where
  contexts : ∀ c < w.contexts.size, u.contexts[c]? = w.contexts[c]?
  rewritten : w.store.Rewritten u.store
  layers : ∀ v ∈ listed (w.context ctx), v ≠ w.innermost ctx →
    w.store.Spares u.store v

namespace World.Spares

variable {listed : Context → List Value} {ctx : ContextId} {w u t : World}

/-- Nothing has been done but that objects were made. -/
theorem of_grown (hstore : w.store.Grown u.store)
    (hcontexts : u.contexts = w.contexts) : w.Spares listed ctx u :=
  ⟨fun _ _ => by rw [hcontexts], hstore.rewritten,
    fun _ _ _ => hstore.spares⟩

/-- What remembers spares everything. -/
theorem of_remembers (h : w.Remembers u) : w.Spares listed ctx u := by
  have hcontexts (c : ContextId) (hc : c < w.contexts.size) :=
    Eval.context_of_remembers h hc
  obtain ⟨forced, -, hmemoised⟩ := h
  refine ⟨hcontexts, hmemoised.objects.rewritten, fun v _ _ o ho => ?_⟩
  obtain ⟨i, rfl, ho⟩ := Store.object?_eq_some.1 ho
  obtain ⟨o', ho', hrefilled⟩ := hmemoised.objects i o ho
  refine ⟨o', ho', hrefilled.mono fun x y hxy => ?_⟩
  -- a value that has settled on another one was forced at first
  rcases Relation.ReflTransGen.cases_head hxy with rfl | ⟨z, hz, -⟩
  · exact .refl x
  · exact Or.inr (hmemoised.forced _ hz).1

protected theorem trans (h : w.Spares listed ctx u)
    (h' : u.Spares listed ctx t) (hw : w.Hosts ctx) :
    w.Spares listed ctx t := by
  have hsame := World.context_eq (h.contexts ctx hw.there)
  have hcontexts (c : ContextId) (hc : c < w.contexts.size) :
      t.contexts[c]? = w.contexts[c]? :=
    (h'.contexts c (Nat.lt_of_lt_of_le hc (contexts_le h.contexts))).trans
      (h.contexts c hc)
  refine ⟨hcontexts, h.rewritten.trans h'.rewritten, fun v hv hinner => ?_⟩
  refine (h.layers v hv hinner).trans (h'.layers v ?_ ?_)
    hw.wellFormed.closed h.rewritten
  · rw [hsame]
    exact hv
  · rw [World.innermost, hsame]
    exact hinner

end World.Spares

namespace Eval

variable {w u : World} {ctx : ContextId} {α : Type}
  {listed : Context → List Value}

/-- A name is assigned in the innermost scope and nowhere else. -/
theorem assign_spares {name v : Value} :
    w.Spares listed ctx (assign ctx name v w).2 := by
  rcases assign_cases ctx name v w with hrun | ⟨i, es, hscope, hes, -, hrun⟩
  · rw [hrun]
    exact .of_grown (.refl _) rfl
  · rw [hrun]
    have hrewritten : (Object.table es).Rewritten
        (.table (w.store.setEntry name v es)) :=
      ⟨rfl, fun _ htable => absurd rfl (htable es)⟩
    refine ⟨fun _ _ => rfl, .put hes hrewritten, fun x _ hinner o ho => ?_⟩
    obtain ⟨j, rfl, ho⟩ := Store.object?_eq_some.1 ho
    have hne : i ≠ j := fun heq => hinner (heq ▸ hscope.symm)
    exact ⟨o, (Store.get?_put_of_ne _ hne).trans ho, .refl .refl⟩

theorem contexts_inside (w : World) (ctx : ContextId)
    (scope : Option Value) :
    (w.inside ctx scope).contexts = w.contexts.modify ctx fun c =>
      { c with scopes :=
        scope.getD (w.store.alloc (.table [])).1 :: c.scopes } := by
  cases scope with
  | none => rfl
  | some v => rfl

/-- A scope that is entered is one that was there, or a new one. -/
theorem grown_inside (w : World) (ctx : ContextId) (scope : Option Value) :
    w.store.Grown (w.inside ctx scope).store := by
  cases scope with
  | none => exact (Store.Grown.refl w.store).alloc _
  | some v => exact .refl w.store

/-- What an action in a scope leaves behind, if it has spared what is listed
of the context inside. The contexts are what they were, all that is listed is
spared, and the outcome is that of the action. -/
theorem within_spares
    (hinside : ∀ (c : Context) (s : Value),
      listed c ⊆ listed { c with scopes := s :: c.scopes })
    (hw : w.Hosts ctx) {scope : Option Value}
    (hscope : ∀ v ∈ scope, v ∉ listed (w.context ctx))
    {action : Value → Eval α}
    (h : (w.inside ctx scope).Spares listed ctx
      (action ((w.inside ctx scope).innermost ctx) (w.inside ctx scope)).2) :
    (within ctx scope action w).1 =
      (action ((w.inside ctx scope).innermost ctx)
        (w.inside ctx scope)).1 ∧
      (∀ c < w.contexts.size,
        (within ctx scope action w).2.contexts[c]? = w.contexts[c]?) ∧
      w.store.Rewritten (within ctx scope action w).2.store ∧
      ∀ v ∈ listed (w.context ctx),
        w.store.Spares (within ctx scope action w).2.store v := by
  rcases haction : action ((w.inside ctx scope).innermost ctx)
    (w.inside ctx scope) with ⟨r, u⟩
  rw [haction] at h
  have hcontexts := h.contexts
  rw [contexts_inside, Array.size_modify] at hcontexts
  have hcontext : u.context ctx = (w.inside ctx scope).context ctx := by
    refine World.context_eq ((hcontexts ctx hw.there).trans ?_)
    rw [contexts_inside]
  rw [context_inside hw.there] at hcontext
  have hdepth : ¬u.depth ctx ≤ 1 := by
    have hscopes : u.depth ctx = w.depth ctx + 1 := by
      rw [World.depth, hcontext]
      rfl
    have hrooted := hw.rooted
    omega
  have hgrown := grown_inside w ctx scope
  rw [within_apply haction, if_neg hdepth, leave_apply, if_neg hdepth]
  refine ⟨rfl, fun c hc => ?_, hgrown.rewritten.trans h.rewritten,
    fun v hv => ?_⟩
  · rw [Array.getElem?_modify, hcontexts c hc, Array.getElem?_modify]
    split
    · rw [Option.map_map]
      exact Option.map_id_apply
    · rfl
  · by_cases hinner : v = (w.inside ctx scope).innermost ctx
    · rw [World.innermost, context_inside hw.there] at hinner
      subst hinner
      cases scope with
      | some s => exact absurd hv (hscope s rfl)
      | none =>
        -- a new scope is not there yet
        intro o ho
        obtain ⟨i, hi, ho⟩ := Store.object?_eq_some.1 ho
        cases hi
        exact absurd (Store.lt_size_of_get? ho) (Nat.lt_irrefl _)
    · have hv' : v ∈ listed ((w.inside ctx scope).context ctx) := by
        rw [context_inside hw.there]
        exact hinside _ _ hv
      exact hgrown.spares.trans (h.layers v hv' hinner)
        hw.wellFormed.closed hgrown.rewritten

/-- Using a context spares what is listed of it, but for the innermost
scope. -/
theorem Uses.spares
    (hinside : ∀ (c : Context) (s : Value),
      listed c ⊆ listed { c with scopes := s :: c.scopes })
    {x : Eval α} {t : Tally}
    (h : Uses False (fun w v => v ∉ listed (w.context ctx)) ctx x w t)
    (hw : w.Hosts ctx) : w.Spares listed ctx (x w).2 := by
  induction h with
  | pure a w => exact .of_grown (.refl _) rfl
  | throw f w => exact .of_grown (.refl _) rfl
  | bind hx hrun _ ihx ihf =>
    have hfirst := ihx hw
    have hu := (hx.depth hw).1
    rw [hrun] at hfirst hu
    rw [bind_apply, hrun]
    exact hfirst.trans (ihf hu) hw
  | fail _ hrun ih =>
    have hfirst := ih hw
    rw [hrun] at hfirst
    rw [bind_apply, hrun]
    exact hfirst
  | attempt _ ih => exact ih hw
  | make _ _ => exact .of_grown ((Store.Grown.refl _).alloc _) rfl
  | read hreads => exact .of_remembers (hreads.remembers hw.wellFormed).2
  | assign _ _ => exact assign_spares
  | enter hfree _ => exact hfree.elim
  | leave _ hfree => exact hfree.elim
  | within hscope _ _ ih =>
    have hbody := ih (hosts_inside hw fun v hv => (hscope v hv).1).1
    obtain ⟨-, hcontexts, hrewritten, hspares⟩ := within_spares hinside
      hw (fun v hv => (hscope v hv).2) hbody
    exact ⟨hcontexts, hrewritten, fun v hv _ => hspares v hv⟩

/-- Using a context inside a scope spares what is listed of it, if the scope
is not. -/
theorem Uses.within_spares (listed : Context → List Value)
    (hinside : ∀ (c : Context) (s : Value),
      listed c ⊆ listed { c with scopes := s :: c.scopes })
    (hw : w.Hosts ctx) {scope : Option Value}
    (hscope : ∀ v ∈ scope, w.Knows v ∧ v ∉ listed (w.context ctx))
    {action : Value → Eval α} {t : Tally}
    (h : Uses False (fun u v => v ∉ listed (u.context ctx)) ctx
      (action ((w.inside ctx scope).innermost ctx)) (w.inside ctx scope)
      t) :
    (Eval.within ctx scope action w).1 =
      (action ((w.inside ctx scope).innermost ctx)
        (w.inside ctx scope)).1 ∧
      (∀ c < w.contexts.size,
        (Eval.within ctx scope action w).2.contexts[c]? =
          w.contexts[c]?) ∧
      w.store.Rewritten (Eval.within ctx scope action w).2.store ∧
      ∀ v ∈ listed (w.context ctx),
        w.store.Spares (Eval.within ctx scope action w).2.store v :=
  Eval.within_spares hinside hw (fun v hv => (hscope v hv).2)
    (h.spares hinside (hosts_inside hw fun v hv => (hscope v hv).1).1)

end Eval

end Stencil
