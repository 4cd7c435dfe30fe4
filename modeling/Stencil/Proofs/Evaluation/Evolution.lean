/-
What evaluation does to a world, step by step.

The journal tells more and calls are counted; new objects are made, of
which none is deferred; a render adds a context. And where a deferred
value is found in the slot of a list or table, it is forced, and the slot
is filled with what that answered. `Evolves` says that a world is come to
by such steps, and lists the values that were forced for a slot, with what
they answered, in the order in which they answered. Forcing may take any
number of steps itself, and so may come to fill the very slot it is for.

What has become of the data in the end follows from the steps alone
(`Evolves.memoised`): slots hold what they held, or what forcing that came
to, and everything else is as it was.
-/
import Mathlib.Logic.Relation
import Stencil.Evaluation
import Stencil.Proofs.Store.Slots

namespace Stencil

/-- Values that were forced, each with what it answered. -/
abbrev Forcings := List (Value × Value)

/-- Forcing a deferred value answers in a world and comes to another
one. -/
def World.Forces (w : World) (x y : Value) (w' : World) : Prop :=
  ∃ budget ctx d, w.store.deferred? x = some d ∧
    Eval.force (Eval.markupWithin budget) ctx d w = (.ok y, w')

/-- A world that evaluation comes to, with the values that were forced for
a slot on the way. -/
inductive Evolves : World → Forcings → World → Prop
  /-- Nothing is done. -/
  | start (w : World) : Evolves w [] w
  /-- Something is told. -/
  | tell {w u : World} {forced : Forcings} (journal : Journal) :
    Evolves w forced u → Evolves w forced { u with journal := journal }
  /-- A call is counted. -/
  | count {w u : World} {forced : Forcings} (label : String) :
    Evolves w forced u →
    Evolves w forced { u with calls := World.countCall label u.calls }
  /-- An object is made, which is not deferred. -/
  | make {w u : World} {forced : Forcings} {o : Object} :
    Evolves w forced u → (∀ d, o ≠ .deferred d) →
    Evolves w forced { u with store := (u.store.alloc o).2 }
  /-- A context is added. -/
  | add {w u : World} {forced : Forcings} (c : Context) :
    Evolves w forced u →
    Evolves w forced { u with contexts := u.contexts.push c }
  /-- What stands in a slot is forced, and the slot is filled with what
  that answered. -/
  | memo {w u u' : World} {forced during : Forcings} {id : ObjectId}
      {k : Nat} {o o' : Object} {x y : Value} :
    Evolves w forced u → u.store.get? id = some o → o.slot? k = some x →
    u.Forces x y u' → Evolves u during u' → u'.store.get? id = some o' →
    Evolves w (forced ++ during ++ [(x, y)])
      { u' with store := u'.store.put id (o'.refill k y) }

/-- A value may have come to stand for another one: it is the same, or it
was forced, as what it answered may have been in turn. -/
def Settles (forced : Forcings) : Value → Value → Prop :=
  Relation.ReflTransGen fun x y => (x, y) ∈ forced

/-- A value of the world was forced on the way, after the ones before it
in the list. -/
def ForcedFrom (w : World) (forced : Forcings) (x y : Value) : Prop :=
  (w.store.deferred? x).isSome = true ∧
    ∃ before during after u u', forced = before ++ during ++ (x, y) :: after ∧
      Evolves w before u ∧ u.Forces x y u' ∧ Evolves u during u'

/-- The contexts of a world are as they were, with all their scopes. So are
its objects, but for the slots of lists and tables: these hold what they
held, or what deferred values that stood there have answered. -/
structure Memoised (w : World) (forced : Forcings) (w' : World) : Prop where
  contexts : ∀ (ctx : ContextId) (c : Context),
    w.contexts[ctx]? = some c → w'.contexts[ctx]? = some c
  objects : w.store.Refilled (Settles forced) w'.store
  forced : ∀ e ∈ forced, ForcedFrom w forced e.1 e.2

namespace Settles

variable {forced more : Forcings} {x y z : Value}

protected theorem refl (x : Value) : Settles forced x x :=
  Relation.ReflTransGen.refl

protected theorem trans (h : Settles forced x y) (h' : Settles forced y z) :
    Settles forced x z :=
  Relation.ReflTransGen.trans h h'

theorem mono (hsub : forced ⊆ more) (h : Settles forced x y) :
    Settles more x y :=
  Relation.ReflTransGen.mono (fun _ _ he => hsub he) x y h

theorem single (h : (x, y) ∈ forced) : Settles forced x y :=
  Relation.ReflTransGen.single h

end Settles

namespace Evolves

variable {w u v : World} {forced more : Forcings}

/-- Steps follow on steps. -/
protected theorem trans (h : Evolves w forced u) (h' : Evolves u more v) :
    Evolves w (forced ++ more) v := by
  induction h' with
  | start u =>
    rw [List.append_nil]
    exact h
  | tell journal _ ih => exact .tell journal (ih h)
  | count label _ ih => exact .count label (ih h)
  | make _ ho ih => exact .make (ih h) ho
  | add c _ ih => exact .add c (ih h)
  | memo _ hid hk hforces hduring hid' ih _ =>
    rw [← List.append_assoc, ← List.append_assoc]
    exact .memo (ih h) hid hk hforces hduring hid'

/-- What is deferred was so from the start. -/
theorem deferred?_of (h : Evolves w forced u) {x : Value} {d : Deferred}
    (hd : u.store.deferred? x = some d) : w.store.deferred? x = some d := by
  obtain ⟨i, rfl, hget⟩ := Store.deferred?_eq_some.1 hd
  refine Store.deferred?_eq_some.2 ⟨i, rfl, ?_⟩
  clear hd
  induction h with
  | start w => exact hget
  | tell _ _ ih | count _ _ ih | add _ _ ih => exact ih hget
  | make _ ho ih =>
    rw [Store.get?_alloc] at hget
    split at hget
    · exact absurd (Option.some.inj hget) (ho d)
    · exact ih hget
  | @memo _ _ _ _ _ id k _ o' _ y _ _ _ _ _ hid' ih ihDuring =>
    refine ih (ihDuring ?_)
    rw [Store.get?_put _ (Store.lt_size_of_get? hid')] at hget
    split at hget
    · next hi =>
      subst hi
      -- a list or table that is filled is none the less one
      cases o' with
      | list | table => cases hget
      | _ => exact hid'.trans hget
    · exact hget

/-- A value that was forced for a slot was forced on the way, and stays
so on the longer way. -/
theorem forcedFrom_trans (h : Evolves w forced u) {x y : Value}
    (hxy : ForcedFrom u more x y) (after : Forcings) :
    ForcedFrom w (forced ++ more ++ after) x y := by
  obtain ⟨hd, before, during, rest, v, v', rfl, hbefore, hforces, hduring⟩ :=
    hxy
  obtain ⟨d, hd⟩ := Option.isSome_iff_exists.1 hd
  refine ⟨Option.isSome_iff_exists.2 ⟨d, h.deferred?_of hd⟩,
    forced ++ before, during, rest ++ after, v, v', ?_, h.trans hbefore,
    hforces, hduring⟩
  simp only [List.append_assoc, List.cons_append]

theorem size_le (h : Evolves w forced u) : w.store.size ≤ u.store.size := by
  induction h with
  | start w => exact Nat.le_refl _
  | tell _ _ ih | count _ _ ih | add _ _ ih => exact ih
  | make _ _ ih =>
    rw [Store.size_alloc]
    exact Nat.le_succ_of_le ih
  | memo _ _ _ _ _ _ ih ihDuring =>
    rw [Store.size_put]
    exact Nat.le_trans ih ihDuring

/-- What the steps have made of a world: they only fill slots with what
stood there was forced to. The induction goes into forcing as well, since
a slot may be filled in between. -/
theorem memoised (h : Evolves w forced u) : Memoised w forced u := by
  induction h with
  | start w =>
    exact ⟨fun _ _ hc => hc, .refl Settles.refl, fun _ he => by cases he⟩
  | tell _ _ ih | count _ _ ih => exact ⟨ih.contexts, ih.objects, ih.forced⟩
  | make _ _ ih => exact ⟨ih.contexts, ih.objects.alloc _, ih.forced⟩
  | @add _ u _ c _ ih =>
    refine ⟨fun ctx d hd => ?_, ih.objects, ih.forced⟩
    have hold := ih.contexts ctx d hd
    obtain ⟨hlt, -⟩ := Array.getElem?_eq_some_iff.1 hold
    rw [Array.getElem?_push_lt hlt]
    exact (Array.getElem?_eq_getElem hlt).symm.trans hold
  | @memo w u u' forced during id k o o' x y hw hid hk hforces hduring hid'
      ih ihDuring =>
    have hforced : forced ⊆ forced ++ during ++ [(x, y)] := fun e he =>
      List.mem_append_left _ (List.mem_append_left _ he)
    have hinner : during ⊆ forced ++ during ++ [(x, y)] := fun e he =>
      List.mem_append_left _ (List.mem_append_right _ he)
    have hlast : (x, y) ∈ forced ++ during ++ [(x, y)] :=
      List.mem_append_right _ (List.mem_singleton.2 rfl)
    refine ⟨fun ctx c hc => ihDuring.contexts ctx c (ih.contexts ctx c hc),
      ?_, fun e he => ?_⟩
    · have hfirst := ih.objects.mono fun _ _ => Settles.mono hforced
      have hsecond := ihDuring.objects.mono fun _ _ => Settles.mono hinner
      refine (hfirst.trans hsecond Settles.trans).refill hid' ?_
      intro p z hp hz
      obtain ⟨o₁, ho₁, hrefilled⟩ := hfirst id p hp
      obtain rfl : o = o₁ := Option.some.inj (hid.symm.trans ho₁)
      obtain ⟨x', hx', hsettles⟩ := hrefilled.slots k z hz
      obtain rfl : x = x' := Option.some.inj (hk.symm.trans hx')
      exact hsettles.trans (.single hlast)
    · rw [List.mem_append, List.mem_append] at he
      rcases he with (he | he) | he
      · have hstay := (Evolves.start w).forcedFrom_trans (ih.forced e he)
          (during ++ [(x, y)])
        rwa [List.nil_append, ← List.append_assoc] at hstay
      · exact hw.forcedFrom_trans (ihDuring.forced e he) [(x, y)]
      · obtain rfl := List.mem_singleton.1 he
        obtain ⟨budget, ctx, d, hd, hrun⟩ := hforces
        exact ⟨Option.isSome_iff_exists.2 ⟨d, hw.deferred?_of hd⟩, forced,
          during, [], u, u', rfl, hw, ⟨budget, ctx, d, hd, hrun⟩, hduring⟩

end Evolves

end Stencil
