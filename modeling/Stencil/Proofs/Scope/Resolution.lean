/-
What names stand for when layers have been spared.

The layers hold the same keys then, and values that were not deferred have
stayed. So a name is found in the same layer, with the same value
(`lookUp?_spared`), or in none. What is made of the value is the same too:
the value that a host object stands for, or a copy of a drop, bound to the
context (`findVariable_spared`). There is one exception. A drop that was
bound before it was put into the data may evaluate markup to find out what
it stands for, and that is a matter of all the data. So it stands for the
same if all the data that the context can reach have been kept, as they are
if none of them is entered as a scope (`Uses.within_keeps`).
-/
import Stencil.Proofs.Evaluation.Locality
import Stencil.Proofs.Evaluation.Lookalike
import Stencil.Proofs.Scope.Sparing
import Stencil.Proofs.Store.Merging

namespace Stencil

namespace Store

variable {store store' : Store} {layers : List Value} {v name : Value}

-- ============================================================ looking up

/-- A spared mapping is one still, with the same keys. -/
theorem entries_spared (haccess : store.access v = .table)
    (h : store.Spares store' v) :
    store'.access v = .table ∧
      List.Forall₂ (fun e e' => e'.1 = e.1 ∧ store.Stays e.2 e'.2)
        (store.entries v) (store'.entries v) := by
  obtain ⟨es, ho | ho⟩ := object?_of_access haccess
  · obtain ⟨o', ho', hrefilled⟩ := h _ ho
    obtain ⟨es', rfl, hentries⟩ := hrefilled.table
    obtain ⟨haccess', hes'⟩ := access_table ho'
    rw [(access_table ho).2, hes']
    exact ⟨haccess', hentries⟩
  · obtain ⟨o', ho', hrefilled⟩ := h _ ho
    obtain rfl := hrefilled.eq_of_slotless (fun _ heq => by cases heq)
      fun _ heq => by cases heq
    obtain ⟨haccess', hes'⟩ := access_frozen ho'
    rw [(access_frozen ho).2, hes']
    exact ⟨haccess', List.forall₂_same.2 fun e _ => ⟨rfl, .refl _⟩⟩

/-- Spared mappings are mappings still. -/
theorem Mappings.spared (h : store.Mappings layers)
    (hclosed : store.Closed []) (hrewritten : store.Rewritten store')
    (hspares : ∀ v ∈ layers, store.Spares store' v) :
    store'.Mappings layers := by
  intro layer hlayer
  obtain ⟨haccess, hkeys⟩ := h layer hlayer
  obtain ⟨haccess', hentries⟩ := entries_spared haccess (hspares layer hlayer)
  have hsame : (store'.entries layer).map Prod.fst =
      (store.entries layer).map Prod.fst :=
    List.forall₂_eq_eq_eq ▸ List.forall₂_map_left_iff.2
      (List.forall₂_map_right_iff.2 (hentries.flip.imp fun _ _ he => he.1))
  refine ⟨haccess', fun e he => ?_⟩
  have hkey := List.mem_map_of_mem (f := Prod.fst) he
  rw [hsame] at hkey
  obtain ⟨e₀, he₀, hkey⟩ := List.mem_map.1 hkey
  exact hkey ▸ (hkeys e₀ he₀).rewritten hrewritten hclosed

theorem entry?_spared {es es' : List (Value × Value)}
    (h : List.Forall₂ (fun e e' => e'.1 = e.1 ∧ store.Stays e.2 e'.2) es es')
    (hsame : ∀ e ∈ es, store'.sameKey e.1 name = store.sameKey e.1 name) :
    Option.Rel store.Stays (store.entry? es name)
      (store'.entry? es' name) := by
  induction h with
  | nil => exact .none
  | @cons e e' es es' he _ ih =>
    obtain ⟨hfirst, hrest⟩ := List.forall_mem_cons.1 hsame
    have ih := ih hrest
    simp only [Store.entry?] at ih ⊢
    rw [List.find?_cons, List.find?_cons, he.1, hfirst]
    cases store.sameKey e.1 name with
    | true => exact .some he.2
    | false => exact ih

/-- Layers that have been spared have the value for a name that they had,
if it was not deferred, and none if they had none. -/
theorem lookUp?_spared (hclosed : store.Closed [])
    (hrewritten : store.Rewritten store') (hlayers : store.Mappings layers)
    (hspares : ∀ v ∈ layers, store.Spares store' v)
    (hname : store.Has [] name) :
    Option.Rel store.Stays (store.lookUp? layers name)
      (store'.lookUp? layers name) := by
  have hhash' := hrewritten.isHashable hclosed hname
  cases hhash : store.isHashable name with
  | false =>
    rw [lookUp?_unhashable hlayers hhash, lookUp?_unhashable
      (hlayers.spared hclosed hrewritten hspares) (hhash'.trans hhash)]
    exact .none
  | true =>
    induction layers with
    | nil => exact .none
    | cons layer rest ih =>
      obtain ⟨⟨haccess, hkeys⟩, hrest⟩ := List.forall_mem_cons.1 hlayers
      obtain ⟨hlayer, hspares⟩ := List.forall_mem_cons.1 hspares
      obtain ⟨haccess', hentries⟩ := entries_spared haccess hlayer
      have hsame : ∀ e ∈ store.entries layer,
          store'.sameKey e.1 name = store.sameKey e.1 name := fun e he =>
        hrewritten.sameKey hclosed (hkeys e he).1 hname (hkeys e he).2 hhash
      have hentry := entry?_spared hentries hsame
      have ih := ih hrest hspares
      rw [lookUp?_cons haccess hhash,
        lookUp?_cons haccess' (hhash'.trans hhash)]
      generalize store.entry? (store.entries layer) name = x at hentry
      generalize store'.entry? (store'.entries layer) name = y at hentry
      cases hentry with
      | some h => exact .some h
      | none => exact ih

/-- What was not deferred has stayed. -/
theorem lookUp?_eq_of_spared
    (h : Option.Rel store.Stays (store.lookUp? layers name)
      (store'.lookUp? layers name))
    (hdeferred : ∀ x, store.lookUp? layers name = some x →
      store.deferred? x = none) :
    store'.lookUp? layers name = store.lookUp? layers name := by
  generalize store'.lookUp? layers name = y at h
  generalize store.lookUp? layers name = z at h hdeferred
  cases h with
  | none => rfl
  | @some x y hstays =>
    rcases hstays with rfl | hsome
    · rfl
    · rw [hdeferred x rfl] at hsome
      cases hsome

/-- The value of a name is there. -/
theorem Closed.lookUp?_has (hclosed : store.Closed []) {x : Value}
    (hx : store.lookUp? layers name = some x) : store.Has [] x := by
  obtain ⟨layer, -, hentry⟩ := Option.bind_eq_some_iff.1 hx
  obtain ⟨e, he, rfl⟩ := Option.map_eq_some_iff.1 hentry
  exact (hclosed.entries_has (List.mem_of_find?_eq_some he)).2

-- =============================================================== copies

/-- Two values are the same, or copies of one drop, bound to a context. -/
def Copies (ctx : ContextId) (store store' : Store) (a b : Value) : Prop :=
  b = a ∨ ∃ d : Drop, d.bound = some ctx ∧ store.drop? a = some d ∧
    store'.drop? b = some d

/-- A drop that is there is the same drop in a rewritten store. -/
theorem Rewritten.drop?_eq (h : store.Rewritten store')
    (hv : store.Has [] v) : store'.drop? v = store.drop? v := by
  rcases h.object?_cases hv with heq | ⟨xs, ys, ho, ho'⟩ | ⟨es, es', ho, ho'⟩
  · rw [drop?, drop?, heq]
  · rw [drop?, drop?, ho, ho']
  · rw [drop?, drop?, ho, ho']

end Store

namespace Eval

variable {w u : World} {ctx : ContextId} {x name : Value}

/-- What can be called is the same in a rewritten store. -/
theorem call?_rewritten (h : w.store.Rewritten u.store) {v : Value}
    (hv : w.Knows v) : call? u.store v = call? w.store v := by
  rcases h.object?_cases hv with heq | ⟨xs, ys, ho, ho'⟩ | ⟨es, es', ho, ho'⟩
  · rw [call?, call?, heq]
  · rw [call?, call?, ho, ho']
  · rw [call?, call?, ho, ho']

/-- An action ends in a certain way, and counts calls at most. -/
def Ends (x : Eval Value) (r : Except Failure Value) (w : World) : Prop :=
  ∃ calls, x w = (r, { w with calls := calls })

/-- What is forced without a context has an outcome of its own. -/
theorem ends_force (d : Deferred) :
    ∃ r, ∀ w, Ends (force (fun _ _ => throw .notSupported) 0 d) r w := by
  simp only [Ends, force]
  cases d.deed with
  | yield v => exact ⟨.ok v, fun w => ⟨_, rfl⟩⟩
  | read text => exact ⟨.error .notSupported, fun w => ⟨_, rfl⟩⟩
  | fail message => exact ⟨.error (.raised message), fun w => ⟨_, rfl⟩⟩

/-- What is called has an outcome of its own. -/
theorem ends_call {store : Store} {v : Value} {called : Eval Value}
    (h : call? store v = some called) : ∃ r, ∀ w, Ends called r w := by
  unfold call? at h
  split at h
  · cases h
    exact ⟨_, fun w => ⟨w.calls, rfl⟩⟩
  · next d _ =>
    split at h
    · cases h
      exact ⟨_, fun w => ⟨w.calls, rfl⟩⟩
    · cases h
      exact ends_force d
  · cases h

/-- A value that has to be called to know what it stands for is called in
vain, or with the same outcome. -/
theorem ends_convert (h : w.store.Rewritten u.store) {v : Value}
    (hv : w.Knows v) :
    ∃ r, Ends (do
        match call? (← store) v with
        | some called => called
        | none => throw .notSupported) r w ∧
      Ends (do
        match call? (← store) v with
        | some called => called
        | none => throw .notSupported) r u := by
  simp only [Ends, store_bind_apply, call?_rewritten h hv]
  cases hcall : call? w.store v with
  | none => exact ⟨.error .notSupported, ⟨w.calls, rfl⟩, u.calls, rfl⟩
  | some called =>
    obtain ⟨r, hends⟩ := ends_call hcall
    exact ⟨r, hends w, hends u⟩

/-- A value does not evaluate markup to find out what it stands for: it is
no drop that is bound and does that. -/
def StandsAlone (store : Store) (x : Value) : Prop :=
  ∀ d markup, store.drop? x = some d →
    d.members.lookup conversionName = some (.reader markup) → d.bound = none

/-- A value stands for the same value in a rewritten store. -/
theorem ends_toTemplateValue (reenter : Reenter) (hw : w.WellFormed)
    (h : w.store.Rewritten u.store) (hx : w.Knows x)
    (halone : StandsAlone w.store x) :
    ∃ r, Ends (toTemplateValue reenter x) r w ∧
      Ends (toTemplateValue reenter x) r u := by
  rcases h.object?_cases hx with heq | ⟨xs, ys, ho, ho'⟩ | ⟨es, es', ho, ho'⟩
  · simp only [Ends, toTemplateValue, store_bind_apply, heq]
    cases ho : w.store.object? x with
    | none => exact ⟨.ok x, ⟨w.calls, rfl⟩, u.calls, rfl⟩
    | some o =>
      cases o with
      | host inner => exact ⟨.ok inner, ⟨w.calls, rfl⟩, u.calls, rfl⟩
      | drop d =>
        dsimp only
        have hknows : ∀ v ∈ (Object.drop d).values, w.Knows v :=
          fun v hv => hw.closed.has_of_object? ho hv
        cases hlookup : d.members.lookup conversionName with
        | none => exact ⟨.ok x, ⟨w.calls, rfl⟩, u.calls, rfl⟩
        | some m =>
          have hvalues := values_of_lookup hlookup
          cases m with
          | method v => exact ⟨.ok v, ⟨w.calls, rfl⟩, u.calls, rfl⟩
          | property v =>
            exact ends_convert h
              (hknows v (hvalues v (List.mem_singleton.2 rfl)))
          | reader text =>
            have hbound := halone d text (Store.drop?_eq_some.2 ho) hlookup
            simp only [answer, hbound]
            exact ⟨.error .notSupported, ⟨w.calls, rfl⟩, u.calls, rfl⟩
          | itself => exact ⟨.ok x, ⟨w.calls, rfl⟩, u.calls, rfl⟩
          | data v =>
            have hconvert := ends_convert h
              (hknows v (hvalues v (List.mem_singleton.2 rfl)))
            cases v with
            | nil => exact ⟨.ok x, ⟨w.calls, rfl⟩, u.calls, rfl⟩
            | _ => exact hconvert
      | _ => exact ⟨.ok x, ⟨w.calls, rfl⟩, u.calls, rfl⟩
  · simp only [Ends, toTemplateValue, store_bind_apply, ho, ho']
    exact ⟨.ok x, ⟨w.calls, rfl⟩, u.calls, rfl⟩
  · simp only [Ends, toTemplateValue, store_bind_apply, ho, ho']
    exact ⟨.ok x, ⟨w.calls, rfl⟩, u.calls, rfl⟩

theorem bind_other (h : w.store.drop? x = none) :
    Eval.bind ctx x w = (.ok x, w) := by
  rw [Eval.bind, store_bind_apply]
  cases ho : w.store.object? x with
  | none => rfl
  | some o =>
    cases o with
    | drop d => cases h.symm.trans (Store.drop?_eq_some.2 ho)
    | _ => rfl

theorem bind_drop {d : Drop} (h : w.store.drop? x = some d) :
    Eval.bind ctx x w =
      if d.bound == some ctx then (.ok x, w)
      else alloc (.drop { d with bound := some ctx }) w := by
  rw [Eval.bind, store_bind_apply, Store.drop?_eq_some.1 h]
  dsimp only
  split
  · rfl
  · rfl

/-- Binding leaves a value as it is, or copies the same drop. -/
theorem copies_bind (h : w.store.Rewritten u.store) (hx : w.Knows x) :
    Alike (Store.Copies ctx (Eval.bind ctx x w).2.store
        (Eval.bind ctx x u).2.store)
      (Eval.bind ctx x w).1 (Eval.bind ctx x u).1 := by
  have hsame := h.drop?_eq hx
  cases hd : w.store.drop? x with
  | none =>
    rw [bind_other hd, bind_other (hsame.trans hd)]
    exact .ok (Or.inl rfl)
  | some d =>
    rw [bind_drop hd, bind_drop (hsame.trans hd)]
    split
    · exact .ok (Or.inl rfl)
    · have hcopy (t : World) := Store.drop?_eq_some.2
        (Store.object?_alloc t.store (.drop { d with bound := some ctx }))
      exact .ok (Or.inr ⟨{ d with bound := some ctx }, rfl, hcopy w, hcopy u⟩)

/-- A value is received alike in a rewritten store. -/
theorem copies_receive (hw : w.WellFormed) (h : w.store.Rewritten u.store)
    (hx : w.Knows x) (halone : StandsAlone w.store x) :
    Alike (Store.Copies ctx (receive markup ctx x w).2.store
        (receive markup ctx x u).2.store)
      (receive markup ctx x w).1 (receive markup ctx x u).1 := by
  obtain ⟨r, ⟨calls, hleft⟩, calls', hright⟩ :=
    ends_toTemplateValue markup hw h hx halone
  have hknows : Recalls w.store.size (toTemplateValue markup x) w :=
    memory_toTemplateValue (memory_markupWithin maxDepth) hx
  have hknows := hknows ⟨hw, Nat.le_refl _⟩
  rw [hleft] at hknows
  rw [receive, bind_apply, bind_apply, hleft, hright]
  cases r with
  | error f => exact .error f
  | ok y =>
    obtain ⟨-, -, hends⟩ := hknows
    cases hends with
    | ok hy =>
      exact copies_bind (w := { w with calls := calls })
        (u := { u with calls := calls' }) h hy

/-- A name that has a value which is not deferred stands for what that is
received as. -/
theorem findVariable_of_lookUp? (reenter : Reenter)
    (hlayers : w.store.Mappings (w.context ctx).layers)
    (hx : w.store.lookUp? (w.context ctx).layers name = some x)
    (hdeferred : w.store.deferred? x = none) :
    ∃ journal, findVariable reenter ctx name w =
      receive reenter ctx x { w with journal := journal } := by
  have hdrop : ∀ v ∈ (w.context ctx).layers, w.store.drop? v = none :=
    fun v hv => Store.drop?_of_access (hlayers v hv).1
  rcases Store.lookUp?_cases hdrop name with ⟨-, hnone⟩ |
    ⟨layer, y, hfind, hy, hlayer, hfetch⟩
  · cases hnone.symm.trans hx
  · obtain rfl := Option.some.inj (hy.symm.trans hx)
    have hpart : forcedPart reenter ctx layer name w = (.ok y, w) := by
      rw [← hfetch]
      refine forcedPart_of_fetch hlayer fun z hz => ?_
      cases hfetch.symm.trans hz
      exact hdeferred
    rw [findVariable, get_bind_apply, hfind]
    dsimp only
    rw [bind_apply, hpart]
    exact ⟨_, rfl⟩

/-- A name that has no value is not defined, if the context is strict, and
else stands for nil. -/
theorem findVariable_of_missing {reenter : Reenter}
    (hlayers : w.store.Mappings (w.context ctx).layers)
    (hnone : w.store.lookUp? (w.context ctx).layers name = none) :
    (findVariable reenter ctx name w).1 =
      if (w.context ctx).strict then .error (undefined w.store name)
      else .ok .nil := by
  have hdrop : ∀ v ∈ (w.context ctx).layers, w.store.drop? v = none :=
    fun v hv => Store.drop?_of_access (hlayers v hv).1
  rcases Store.lookUp?_cases hdrop name with ⟨hfind, -⟩ |
    ⟨layer, y, -, hy, -⟩
  · exact findVariable_of_none hfind
  · cases hnone.symm.trans hy

/-- A name stands for the same in a context of which the layers have been
spared, up to which copy of a drop it is, unless what it stands for is
deferred or evaluated. -/
theorem findVariable_spared (hw : w.WellFormed)
    (hrewritten : w.store.Rewritten u.store)
    (hcontext : u.context ctx = w.context ctx)
    (hlayers : w.store.Mappings (w.context ctx).layers)
    (hspares : ∀ v ∈ (w.context ctx).layers, w.store.Spares u.store v)
    (hname : w.store.Keyable name)
    (hvalue : ∀ x, w.store.lookUp? (w.context ctx).layers name = some x →
      w.store.deferred? x = none ∧ StandsAlone w.store x) :
    Alike (Store.Copies ctx (findVariable markup ctx name w).2.store
        (findVariable markup ctx name u).2.store)
      (findVariable markup ctx name w).1
      (findVariable markup ctx name u).1 := by
  have hlayers' : u.store.Mappings (u.context ctx).layers := by
    rw [hcontext]
    exact hlayers.spared hw.closed hrewritten hspares
  have hfound := Store.lookUp?_spared hw.closed hrewritten hlayers hspares
    hname.1
  have hsame := Store.lookUp?_eq_of_spared hfound fun x hx =>
    (hvalue x hx).1
  rw [← hcontext] at hsame
  cases hleft : w.store.lookUp? (w.context ctx).layers name with
  | none =>
    rw [hcontext, hleft, ← hcontext] at hsame
    rw [findVariable_of_missing hlayers hleft,
      findVariable_of_missing hlayers' hsame, hcontext, undefined, undefined,
      hrewritten.isWritable hw.closed hname.1 hname.2,
      hrewritten.print hw.closed hname.1 hname.2]
    split
    · exact .error _
    · exact .ok (Or.inl rfl)
  | some x =>
    obtain ⟨hdeferred, halone⟩ := hvalue x hleft
    have hright : u.store.lookUp? (u.context ctx).layers name = some x := by
      rw [hsame, hcontext, hleft]
    have hhas := hw.closed.lookUp?_has hleft
    have hdeferred' : u.store.deferred? x = none := by
      cases hd : u.store.deferred? x with
      | none => rfl
      | some d =>
        have hd' := hrewritten.deferred?_of hhas hd
        cases hdeferred.symm.trans hd'
    obtain ⟨journal, hw'⟩ :=
      findVariable_of_lookUp? markup hlayers hleft hdeferred
    obtain ⟨journal', hu'⟩ :=
      findVariable_of_lookUp? markup hlayers' hright hdeferred'
    rw [hw', hu']
    exact copies_receive (w := { w with journal := journal })
      (u := { u with journal := journal' }) ⟨hw.closed, hw.keys, hw.layers⟩
      hrewritten hhas halone

-- ============================================================= all data

/-- Using a context inside a scope keeps an enclosure, if the scope is none of
its objects. -/
theorem Uses.within_keeps {objects : List ObjectId}
    {contexts : List ContextId} (hdata : w.Enclosure objects contexts)
    (hw : w.Hosts ctx) {α : Type} {scope : Option Value}
    (hscope : ∀ v ∈ scope, w.Knows v ∧ v ∉ objects.map Value.object)
    {action : Value → Eval α} {t : Tally}
    (h : Uses False (fun _ v => v ∉ objects.map Value.object) ctx
      (action ((w.inside ctx scope).innermost ctx)) (w.inside ctx scope)
      t) :
    w.Keeps objects contexts (Eval.within ctx scope action w).2 := by
  obtain ⟨-, hcontexts, hrewritten, hspares⟩ := h.within_spares
    (fun _ => objects.map Value.object) (fun _ _ => List.Subset.refl _) hw
    hscope
  refine ⟨fun i hi => ?_, fun c hc => hcontexts c (hdata.contextsThere c hc),
    hrewritten.size_le, World.contexts_le hcontexts⟩
  obtain ⟨o, ho⟩ := Store.exists_get? (hdata.there i hi)
  obtain ⟨o', ho', hrefilled⟩ :=
    hspares (.object i) (List.mem_map_of_mem hi) o ho
  -- what stands in the slots is not deferred, so it has stayed
  have hsame : o' = o := hrefilled.eq_of_kept fun x hx y hstays =>
    hstays.resolve_right fun hdeferred => by
      rw [hdata.slots i hi o ho x hx] at hdeferred
      cases hdeferred
  exact ho'.trans (hsame ▸ ho.symm)

end Eval

end Stencil
