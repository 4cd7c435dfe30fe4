/-
Nobody listens to the journal.

Worlds that differ in nothing but what has been told are asked for the
same things and changed in the same ways, so evaluation goes alike in
them (`hushed_uniform`). A note may then as well be another one, or be
left out: what differs in nothing but its notes comes to the same end.
In particular the text of a path, which its steps quote when they miss,
does not matter for where the path leads (`agree_path`).
-/
import Stencil.Proofs.Evaluation.Remembering
import Stencil.Proofs.Evaluation.Uniformity

namespace Stencil

/-- Worlds that differ in their journals at most. -/
structure Hushed (w w' : World) : Prop where
  store : w.store = w'.store
  contexts : w.contexts = w'.contexts
  calls : w.calls = w'.calls

namespace Hushed

variable {w w' w'' : World}

theorem refl (w : World) : Hushed w w := ⟨rfl, rfl, rfl⟩

theorem symm (h : Hushed w w') : Hushed w' w :=
  ⟨h.store.symm, h.contexts.symm, h.calls.symm⟩

theorem trans (h : Hushed w w') (h' : Hushed w' w'') : Hushed w w'' :=
  ⟨h.store.trans h'.store, h.contexts.trans h'.contexts,
    h.calls.trans h'.calls⟩

/-- The contexts are the same. -/
theorem context (h : Hushed w w') (ctx : ContextId) :
    w.context ctx = w'.context ctx := by
  unfold World.context
  rw [h.contexts]

end Hushed

/-- Evaluation goes alike in worlds that differ in their journals. -/
theorem hushed_uniform : Uniform Hushed (fun _ => False) where
  store h := h.store
  layers h ctx := congrArg Context.layers (h.context ctx)
  strict h ctx := Or.inl (congrArg Context.strict (h.context ctx))
  changed h _ := ⟨rfl, h.contexts, h.calls⟩
  counted h label :=
    ⟨h.store, h.contexts, congrArg (World.countCall label) h.calls⟩
  told h _ := ⟨h.store, h.contexts, h.calls⟩

/-- Where nothing is excused, runs that agree end alike. -/
theorem Agree.eq {σ α : Type} {R : σ → σ → Prop}
    {p q : Except Failure α × σ} (h : Agree R (fun _ => False) p q) :
    p.1 = q.1 ∧ R p.2 q.2 := by
  rcases h with h | ⟨_, _, hno⟩
  · exact h
  · exact hno.elim

/-- Runs of two actions that differ in their journals at most. -/
abbrev AgreeHushed {α : Type} (p q : Except Failure α × World) : Prop :=
  Agree Hushed (fun _ => False) p q

namespace Eval

variable {w w' : World} {reenter : Reenter}

/-- Whatever is noted, nobody listens. -/
theorem agree_note (message message' : Store → Except Failure String)
    (h : Hushed w w') :
    AgreeHushed (note message w) (note message' w') :=
  Agree.alike ⟨h.store, h.contexts, h.calls⟩

/-- Where a step leads does not depend on the text of its path. -/
theorem agree_stepFrom (reenter : Reenter) (ctx : ContextId)
    (whole whole' : Path) (v key : Value)
    (command : Option Command) (w : World) :
    AgreeHushed (stepFrom reenter ctx whole v key command w)
      (stepFrom reenter ctx whole' v key command w) := by
  rw [stepFrom, stepFrom, store_bind_apply, store_bind_apply]
  generalize ((w.store.access v).isKeyed && (w.store.hasKey v key ||
    (w.store.access v).isPositional && key.isIndex)) = offered
  cases offered with
  | true => exact Agree.alike (.refl _)
  | false =>
    generalize command.bind (w.store.command? v) = answered
    cases answered with
    | some _ => exact Agree.alike (.refl _)
    | none =>
      refine (agree_note _ _ (.refl w)).bind fun _ t t' ht => ?_
      exact hushed_uniform.undefined ctx (fun _ => rfl) w.store key ht ht

/-- Where a path leads does not depend on the text that it is quoted
with. -/
theorem agree_path
    (hre : ∀ c m, Parallel Hushed (fun _ => False) (reenter c m))
    (ctx : ContextId) (whole whole' : Path) :
    ∀ (p : Path) {w w' : World}, Hushed w w' →
      AgreeHushed (path reenter ctx whole p w)
        (path reenter ctx whole' p w')
  | .root name, w, w', h =>
    hushed_uniform.path hre ctx whole (.root name) w w' h
  | .step p key command, w, w', h => by
    refine (agree_path hre ctx whole whole' p h).bind fun v t t' ht => ?_
    cases v with
    | none => exact Agree.alike ht
    | some v =>
      refine (hushed_uniform.expr hre ctx key t t' ht).bind
        fun k u u' hu => ?_
      have hsame := (hushed_uniform.stepFrom hre ctx whole v k command
        u u' hu).eq
      have hother := (agree_stepFrom reenter ctx whole whole' v k command
        u').eq
      exact Or.inl ⟨hsame.1.trans hother.1, hsame.2.trans hother.2⟩

end Eval

end Stencil
