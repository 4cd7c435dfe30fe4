/-
How a context can be used.

Whoever has a context can read in it, enter and leave scopes, act inside
of one, assign names and make objects, in any order. After each step they
may see what it answered, or how it failed, before they take the next one
or fail themselves. An action uses a context if it is made of such steps
(`Eval.Uses`). What it hands over has to be there when it is handed over.

Along with the steps goes a tally of the scopes that were entered and left.
By it the depth of the context is known (`Uses.depth`), from step to step,
and so after any number of them. A scope that is acted in is left at the
end, unless the action has left too many itself.
-/
import Stencil.Proofs.Evaluation.Memory
import Stencil.Proofs.Store.Entries
import Stencil.Scope
import Stencil.Template.Rendering

namespace Stencil

variable {w u : World} {ctx : ContextId} {α β : Type}

-- =============================================================== contexts

/-- How many scopes a context has. -/
def World.depth (w : World) (ctx : ContextId) : Nat :=
  (w.context ctx).scopes.length

/-- The innermost scope of a context. -/
def World.innermost (w : World) (ctx : ContextId) : Value :=
  (w.context ctx).scopes.headD .nil

/-- The world inside a scope that is entered. -/
def World.inside (w : World) (ctx : ContextId) (scope : Option Value) :
    World :=
  (Eval.enter ctx scope w).2

/-- A world is well formed, and a context of it has a scope. -/
structure World.Hosts (w : World) (ctx : ContextId) : Prop where
  wellFormed : w.WellFormed
  there : ctx < w.contexts.size
  rooted : 1 ≤ w.depth ctx

theorem World.context_modify (hctx : ctx < w.contexts.size)
    (f : Context → Context) :
    World.context { w with contexts := w.contexts.modify ctx f } ctx =
      f (w.context ctx) := by
  simp only [World.context, Array.getElem?_modify, if_true,
    Array.getElem?_eq_getElem hctx, Option.map_some, Option.getD_some]

theorem World.context_eq (h : u.contexts[ctx]? = w.contexts[ctx]?) :
    u.context ctx = w.context ctx := by
  rw [World.context, World.context, h]

/-- A context that is as it was has the scopes that it had. -/
theorem World.Hosts.of_context (hw : w.Hosts ctx) (hu : u.WellFormed)
    (h : u.contexts[ctx]? = w.contexts[ctx]?) : u.Hosts ctx := by
  refine ⟨hu, ?_, ?_⟩
  · rw [Array.getElem?_eq_getElem hw.there] at h
    exact (Array.getElem?_eq_some_iff.1 h).1
  · rw [World.depth, World.context_eq h]
    exact hw.rooted

/-- Whatever is told makes no difference. -/
theorem World.Hosts.tell (hw : w.Hosts ctx) (journal : Journal) :
    World.Hosts { w with journal := journal } ctx :=
  hw.of_context ⟨hw.wellFormed.closed, hw.wellFormed.keys,
    hw.wellFormed.layers⟩ rfl

/-- A context is changed, to one that has some scope and layers that are
there. -/
theorem World.Hosts.modify (hw : w.Hosts ctx) {f : Context → Context}
    (hlayers : ∀ v ∈ (f (w.context ctx)).layers, w.Knows v)
    (hscopes : 1 ≤ (f (w.context ctx)).scopes.length) :
    World.Hosts { w with contexts := w.contexts.modify ctx f } ctx := by
  refine ⟨⟨hw.wellFormed.closed, hw.wellFormed.keys, fun other v hv => ?_⟩,
    ?_, ?_⟩
  · by_cases hother : other = ctx
    · subst hother
      rw [World.context_modify hw.there] at hv
      exact hlayers v hv
    · refine hw.wellFormed.layers other v ?_
      rwa [World.context, Array.getElem?_modify,
        if_neg (Ne.symm hother)] at hv
  · rw [Array.size_modify]
    exact hw.there
  · rw [World.depth, World.context_modify hw.there]
    exact hscopes

namespace Eval

-- ================================================================= steps

/-- A scope is entered without fail. -/
theorem enter_apply (scope : Option Value) :
    enter ctx scope w = (.ok (), w.inside ctx scope) := by
  cases scope with
  | none => rfl
  | some v => rfl

/-- A scope is left, unless it is the outermost one, which changes
nothing. -/
theorem leave_apply (w : World) (ctx : ContextId) :
    leave ctx w =
      if w.depth ctx ≤ 1 then (.error .outermostScope, w)
      else (.ok (w.innermost ctx), { w with
        journal := w.journal.noteWritten fun _ =>
          some ("Leaving scope: " ++ toString (w.depth ctx - 1))
        contexts := w.contexts.modify ctx fun c =>
          { c with scopes := c.scopes.tail } }) := by
  have hrun : leave ctx w = (if w.depth ctx ≤ 1 then throw .outermostScope
      else do
        note fun _ => .ok ("Leaving scope: " ++ toString (w.depth ctx - 1))
        let scope ← Eval.innermost ctx
        updateContext ctx fun c => { c with scopes := c.scopes.tail }
        return scope : Eval Value) w := rfl
  rw [hrun]
  split
  · rfl
  · rfl

theorem innermost_bind_apply (f : Value → Eval α) (w : World) :
    (Eval.innermost ctx >>= f) w = f (w.innermost ctx) w :=
  rfl

/-- The scope that is entered becomes the innermost one. -/
theorem context_inside (hctx : ctx < w.contexts.size)
    (scope : Option Value) :
    (w.inside ctx scope).context ctx =
      { w.context ctx with
        scopes := scope.getD (w.store.alloc (.table [])).1 ::
          (w.context ctx).scopes } := by
  cases scope with
  | none => exact World.context_modify hctx _
  | some v => exact World.context_modify hctx _

theorem attempt_apply (x : Eval α) (w : World) :
    attempt x w = (.ok (x w).1, (x w).2) :=
  rfl

/-- An action inside a scope ends as it does by itself, unless it has left
no scope but the outermost. -/
theorem within_apply {scope : Option Value} {action : Value → Eval α}
    {r : Except Failure α}
    (h : action ((w.inside ctx scope).innermost ctx) (w.inside ctx scope) =
      (r, u)) :
    within ctx scope action w =
      if u.depth ctx ≤ 1 then (.error .outermostScope, u)
      else (r, (leave ctx u).2) := by
  have hrun : within ctx scope action w = (do
      let r ← attempt (action ((w.inside ctx scope).innermost ctx))
      let _ ← leave ctx
      ofExcept r : Eval α) (w.inside ctx scope) := by
    rw [within, bind_apply, enter_apply]
    rfl
  rw [hrun, bind_apply, attempt_apply, h]
  dsimp only
  rw [bind_apply, leave_apply]
  by_cases hdepth : u.depth ctx ≤ 1
  · rw [if_pos hdepth, if_pos hdepth]
  · rw [if_neg hdepth, if_neg hdepth]
    cases r with
    | ok a => rfl
    | error f => rfl

-- ============================================================ using it

/-- How many scopes were entered, and how many were left, with success. -/
structure Tally where
  entered : Nat
  left : Nat

/-- One for an answer, none for a failure. -/
def successes : Except Failure α → Nat
  | .ok _ => 1
  | .error _ => 0

/-- An action reads in a context, in a world that has what is read with. -/
inductive Reads (ctx : ContextId) : {α : Type} → Eval α → World → Prop
  /-- Markup is evaluated. -/
  | get (text : String) (w : World) : Reads ctx (markup ctx text) w
  /-- An expression is evaluated. -/
  | evaluate {e : Expr} {w : World} : e.All w.Knows →
    Reads ctx (evaluate ctx e) w
  /-- A name is looked up. -/
  | find {name : Value} {w : World} : w.Knows name →
    Reads ctx (findVariable markup ctx name) w
  /-- A name is asked for. -/
  | contains (name : Value) (w : World) : Reads ctx (knows ctx name) w
  /-- A template is read. -/
  | parse (tags : Registry) (mode : Mode) (source : String) (w : World) :
    Reads ctx (readTemplate tags mode source) w
  /-- A template is rendered. -/
  | render {t : Template} {w : World} :
    (∀ n ∈ t.nodes, n.Meets (Expr.All w.Knows) fun _ => True) →
    Reads ctx (renderIn ctx t) w

/-- An action uses a context, from a world on, and enters and leaves so many
scopes. Scopes that it acts in have to be fresh in some way. Whether it may
enter and leave others has to be said as well. -/
inductive Uses (free : Prop) (fresh : World → Value → Prop)
    (ctx : ContextId) : {α : Type} → Eval α → World → Tally → Prop
  /-- Nothing is done. -/
  | pure {α : Type} (a : α) (w : World) :
    Uses free fresh ctx (pure a : Eval α) w ⟨0, 0⟩
  /-- It fails. -/
  | throw {α : Type} (f : Failure) (w : World) :
    Uses free fresh ctx (throw f : Eval α) w ⟨0, 0⟩
  /-- One thing is done after another, as the first has answered. -/
  | bind {α β : Type} {x : Eval α} {f : α → Eval β} {w u : World} {a : α}
      {s t : Tally} :
    Uses free fresh ctx x w s → x w = (.ok a, u) →
    Uses free fresh ctx (f a) u t →
    Uses free fresh ctx (x >>= f) w
      ⟨s.entered + t.entered, s.left + t.left⟩
  /-- The first thing fails, and the rest is not done. -/
  | fail {α β : Type} {x : Eval α} {f : α → Eval β} {w u : World}
      {e : Failure} {t : Tally} :
    Uses free fresh ctx x w t → x w = (.error e, u) →
    Uses free fresh ctx (x >>= f) w t
  /-- A failure is an answer. -/
  | attempt {α : Type} {x : Eval α} {w : World} {t : Tally} :
    Uses free fresh ctx x w t → Uses free fresh ctx (attempt x) w t
  /-- An object is made. -/
  | make {o : Object} {w : World} : (∀ v ∈ o.values, w.Knows v) →
    (∀ es, o = .table es → ∀ e ∈ es, w.store.isHashable e.1 = true) →
    Uses free fresh ctx (alloc o) w ⟨0, 0⟩
  /-- Something is read. -/
  | read {α : Type} {x : Eval α} {w : World} : Reads ctx x w →
    Uses free fresh ctx x w ⟨0, 0⟩
  /-- A name is assigned. -/
  | assign {name v : Value} {w : World} : w.Knows name → w.Knows v →
    Uses free fresh ctx (assign ctx name v) w ⟨0, 0⟩
  /-- A scope is entered. -/
  | enter {scope : Option Value} {w : World} : free →
    (∀ v ∈ scope, w.Knows v) →
    Uses free fresh ctx (enter ctx scope) w
      ⟨successes (enter ctx scope w).1, 0⟩
  /-- A scope is left. -/
  | leave (w : World) : free →
    Uses free fresh ctx (leave ctx) w ⟨0, successes (leave ctx w).1⟩
  /-- Something is done in a scope, which is entered and left. -/
  | within {α : Type} {scope : Option Value} {action : Value → Eval α}
      {w u : World} {r : Except Failure α} {t : Tally} :
    (∀ v ∈ scope, w.Knows v ∧ fresh w v) →
    Uses free fresh ctx (action ((w.inside ctx scope).innermost ctx))
      (w.inside ctx scope) t →
    action ((w.inside ctx scope).innermost ctx) (w.inside ctx scope) =
      (r, u) →
    Uses free fresh ctx (within ctx scope action) w
      ⟨successes (enter ctx scope w).1 + t.entered,
        t.left + successes (leave ctx u).1⟩

-- ============================================================ single steps

/-- Reading leaves a well formed world that remembers. -/
theorem Reads.remembers {x : Eval α} (h : Reads ctx x w)
    (hw : w.WellFormed) : (x w).2.WellFormed ∧ w.Remembers (x w).2 := by
  obtain ⟨hevaluate, hmarkup, -, hrender, -⟩ := remembers_of_wellFormed hw
  cases h with
  | get text => exact hmarkup ctx text
  | evaluate he => exact hevaluate ctx _ he
  | find hname =>
    exact remembers_of_behaves hw
      (memory_findVariable (memory_markupWithin _) hname)
  | contains name =>
    have hsame : (knows ctx name w).2 = w := by
      rw [knows, get_bind_apply]
      cases anyHolds w.store name (w.context ctx).layers with
      | ok b => rfl
      | error f => rfl
    rw [hsame]
    exact ⟨hw, [], .start w, (Evolves.start w).memoised⟩
  | parse tags mode source =>
    have htold := Evolves.tell
      (Template.parse tags mode source w.journal).2 (.start w)
    exact ⟨⟨hw.closed, hw.keys, hw.layers⟩, [], htold, htold.memoised⟩
  | render ht => exact hrender ctx _ ht

/-- What remembers has the contexts that were there. -/
theorem context_of_remembers (h : w.Remembers u)
    (hctx : ctx < w.contexts.size) :
    u.contexts[ctx]? = w.contexts[ctx]? := by
  obtain ⟨forced, -, hmemoised⟩ := h
  rw [Array.getElem?_eq_getElem hctx]
  exact hmemoised.contexts ctx _ (Array.getElem?_eq_getElem hctx)

/-- A name is assigned in the innermost scope, or it is refused and nothing
is changed. -/
theorem assign_cases (ctx : ContextId) (name v : Value) (w : World) :
    assign ctx name v w = (.error .notSupported, w) ∨
      ∃ i es, w.innermost ctx = .object i ∧
        w.store.get? i = some (.table es) ∧
        w.store.isHashable name = true ∧
        assign ctx name v w = (.ok (), { w with
          store := w.store.put i (.table (w.store.setEntry name v es)) }) := by
  rw [assign, innermost_bind_apply, store_bind_apply]
  cases hscope : w.innermost ctx with
  | object i =>
    cases ho : w.store.get? i with
    | some o =>
      rw [Store.object?, ho]
      cases o with
      | table es =>
        dsimp only
        split
        · next hhash => exact Or.inr ⟨i, es, rfl, ho, hhash, rfl⟩
        · exact Or.inl rfl
      | _ => exact Or.inl rfl
    | none =>
      rw [Store.object?, ho]
      exact Or.inl rfl
  | _ => exact Or.inl rfl

/-- A name that is there is assigned a value that is there. -/
theorem wellFormed_assign (hw : w.WellFormed) {name v : Value}
    (hname : w.Knows name) (hv : w.Knows v) :
    (assign ctx name v w).2.WellFormed := by
  rcases assign_cases ctx name v w with hrun | ⟨i, es, -, hes, hhash, hrun⟩
  · rw [hrun]
    exact hw
  · rw [hrun]
    have hentry {e : Value × Value} (he : e ∈ w.store.setEntry name v es) :
        w.Knows e.1 ∧ w.Knows e.2 ∧ w.store.isHashable e.1 = true := by
      rcases Store.mem_setEntry he with ⟨e', he', hkey, hvalue⟩ | rfl
      · obtain ⟨hk, hx⟩ := Object.mem_entryValues he'
        rw [hkey]
        refine ⟨hw.closed i _ hes _ hk, ?_, hw.keys i es hes e' he'⟩
        rcases hvalue with hvalue | hvalue
        · exact hvalue ▸ hw.closed i _ hes _ hx
        · exact hvalue ▸ hv
      · exact ⟨hname, hv, hhash⟩
    have hrewritten : (Object.table es).Rewritten
        (.table (w.store.setEntry name v es)) :=
      ⟨rfl, fun _ htable => absurd rfl (htable es)⟩
    refine hw.rewrite hes hrewritten (fun x hx => ?_) fun es' hes' e he => ?_
    · obtain ⟨e, he, hx⟩ := List.mem_flatMap.1 hx
      obtain ⟨hk, hvalue, -⟩ := hentry he
      rcases List.mem_cons.1 hx with rfl | hx
      · exact hk
      · rw [List.mem_singleton.1 hx]
        exact hvalue
    · cases hes'
      exact (hentry he).2.2

/-- A scope that is there, or a new one, can be entered. -/
theorem hosts_inside (hw : w.Hosts ctx) {scope : Option Value}
    (hscope : ∀ v ∈ scope, w.Knows v) :
    (w.inside ctx scope).Hosts ctx ∧
      (w.inside ctx scope).depth ctx = w.depth ctx + 1 := by
  have hdepth : (w.inside ctx scope).depth ctx = w.depth ctx + 1 := by
    rw [World.depth, context_inside hw.there]
    rfl
  refine ⟨?_, hdepth⟩
  have hlayers := hw.wellFormed.layers ctx
  cases scope with
  | some v =>
    refine (hw.tell _).modify (List.forall_mem_cons.2 ⟨hscope v rfl, hlayers⟩) ?_
    exact Nat.le_add_left ..
  | none =>
    have hmade : World.Hosts
        { w with store := (w.store.alloc (.table [])).2 } ctx :=
      hw.of_context (hw.wellFormed.alloc (fun v hv => by cases hv)
        fun es hes e he => by
          cases hes
          cases he) rfl
    refine (hmade.tell _).modify
      (List.forall_mem_cons.2 ⟨?_, hmade.wellFormed.layers ctx⟩) ?_
    · rintro i hi
      cases hi
      refine ⟨?_, List.not_mem_nil⟩
      rw [Store.size_alloc]
      exact Nat.lt_succ_self _
    · exact Nat.le_add_left ..

/-- A scope is left that is not the outermost. -/
theorem hosts_leave (hw : w.Hosts ctx) :
    (leave ctx w).2.Hosts ctx ∧
      (leave ctx w).2.depth ctx + successes (leave ctx w).1 =
        w.depth ctx := by
  rw [leave_apply]
  by_cases hdepth : w.depth ctx ≤ 1
  · rw [if_pos hdepth]
    exact ⟨hw, rfl⟩
  · rw [if_neg hdepth]
    have htail : (w.context ctx).scopes.tail.length = w.depth ctx - 1 :=
      List.length_tail
    dsimp only
    have hjournal := hw.tell (w.journal.noteWritten fun _ =>
      some ("Leaving scope: " ++ toString (w.depth ctx - 1)))
    refine ⟨hjournal.modify (f := fun c => { c with scopes := c.scopes.tail })
      (fun v hv => ?_) ?_, ?_⟩
    · refine hw.wellFormed.layers ctx v ?_
      rcases List.mem_append.1 hv with hv | hv
      · exact List.mem_append_left _ (List.mem_of_mem_tail hv)
      · exact List.mem_append_right _ hv
    · show 1 ≤ (w.context ctx).scopes.tail.length
      omega
    · rw [World.depth, World.context_modify hjournal.there, successes]
      show (w.context ctx).scopes.tail.length + 1 = w.depth ctx
      omega

-- ========================================================== all of them

variable {free : Prop} {fresh : World → Value → Prop}

/-- The context can still be used afterwards, and is as deep as it was,
with the scopes that were entered and without those that were left. -/
theorem Uses.depth {x : Eval α} {t : Tally}
    (h : Uses free fresh ctx x w t) (hw : w.Hosts ctx) :
    (x w).2.Hosts ctx ∧
      (x w).2.depth ctx + t.left = w.depth ctx + t.entered := by
  have hsteady {w u : World} (hw : w.Hosts ctx) (hu : u.WellFormed)
      (h : u.contexts[ctx]? = w.contexts[ctx]?) :
      u.Hosts ctx ∧ u.depth ctx + 0 = w.depth ctx + 0 :=
    ⟨hw.of_context hu h, congrArg (·.scopes.length) (World.context_eq h)⟩
  induction h with
  | pure a w => exact ⟨hw, rfl⟩
  | throw f w => exact ⟨hw, rfl⟩
  | @bind _ _ x f w u a s t _ hx _ ihx ihf =>
    obtain ⟨hu, hdepth⟩ := ihx hw
    rw [hx] at hu hdepth
    obtain ⟨hend, hdepth'⟩ := ihf hu
    rw [bind_apply, hx]
    refine ⟨hend, ?_⟩
    dsimp only at hdepth hdepth' ⊢
    omega
  | fail _ hx ih =>
    rw [bind_apply, hx]
    have hend := ih hw
    rw [hx] at hend
    exact hend
  | attempt _ ih => exact ih hw
  | make hvalues hkeys =>
    exact hsteady hw (hw.wellFormed.alloc hvalues hkeys) rfl
  | read hreads =>
    obtain ⟨hu, hremembers⟩ := hreads.remembers hw.wellFormed
    exact hsteady hw hu (context_of_remembers hremembers hw.there)
  | @assign name v w hname hv =>
    refine hsteady hw (wellFormed_assign hw.wellFormed hname hv) ?_
    rcases assign_cases ctx name v w with hrun | ⟨_, _, -, -, -, hrun⟩
    · rw [hrun]
    · rw [hrun]
  | enter _ hscope =>
    rw [enter_apply]
    exact hosts_inside hw hscope
  | leave w _ => exact hosts_leave hw
  | @within _ scope action w u r t hscope _ haction ih =>
    obtain ⟨hinside, hentered⟩ := hosts_inside hw fun v hv => (hscope v hv).1
    obtain ⟨hu, hdepth⟩ := ih hinside
    rw [haction] at hu hdepth
    have hend : (Eval.within ctx scope action w).2 = (Eval.leave ctx u).2 := by
      rw [within_apply haction, leave_apply]
      split
      · rfl
      · rfl
    obtain ⟨hleft, hdepth'⟩ := hosts_leave hu
    rw [hend, enter_apply]
    refine ⟨hleft, ?_⟩
    dsimp only [successes] at hdepth hdepth' ⊢
    omega

end Eval

end Stencil
