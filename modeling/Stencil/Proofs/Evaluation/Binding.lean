/-
What a path leads to is bound to the context that it is evaluated in.

A drop is bound twice on the way down a path, to what the root name stands
for and after each step, and each time as a copy. So data that are shared
hold drops that are bound to nothing, and copies that were bound elsewhere
and remembered; yet no step of a path starts from either, since whatever a
path leads to has come through the binding last. Nothing has to be known
of the world for that, nor of what deferred values and members do. In a
well formed world, what is bound also stays so.
-/
import Stencil.Proofs.Evaluation.Memory

namespace Stencil

-- =============================================================== bound

/-- If a value is a drop, it is bound to a context. -/
def World.BoundIn (w : World) (ctx : ContextId) (v : Value) : Prop :=
  ∀ d, w.store.object? v = some (.drop d) → d.bound = some ctx

/-- A value that is no drop is bound anywhere. -/
theorem World.BoundIn.of_scalar {w : World} {ctx : ContextId} {v : Value}
    (h : v.IsScalar) : w.BoundIn ctx v := by
  intro d hd
  cases v with
  | object i => exact absurd rfl (h i)
  | _ => cases hd

/-- What is bound stays so. -/
theorem World.BoundIn.later {n : Nat} {w w' : World} {ctx : ContextId}
    {v : Value} (hv : w.BoundIn ctx v) (hknown : w.Knows v)
    (h : (Conduct.memory n).later w w') : w'.BoundIn ctx v := by
  intro d hd
  obtain ⟨forced, h⟩ := h
  exact hv d (h.memoised.objects.rewritten.object?_of hknown hd
    (fun _ heq => by cases heq) fun _ heq => by cases heq)

namespace Eval

variable {w : World} {reenter : Reenter} {ctx : ContextId}

/-- The answer of an action, if there is one, is bound. -/
abbrev Binds (ctx : ContextId) (x : Eval Value) (w : World) : Prop :=
  Behaves (.failing World fun _ => True) (fun t v => t.BoundIn ctx v) x w

/-- The answer of an action, if there is one and it is a value, is bound. -/
abbrev Binds? (ctx : ContextId) (x : Eval (Option Value)) (w : World) :
    Prop :=
  Behaves (.failing World fun _ => True)
    (fun t r => ∀ v ∈ r, t.BoundIn ctx v) x w

/-- Any action behaves where nothing is asked of it. -/
theorem behaves_anyhow {α : Type} (x : Eval α) (w : World) :
    Behaves (.failing World fun _ => True) Anything x w := by
  refine fun _ => ⟨trivial, trivial, ?_⟩
  cases (x w).1 with
  | ok a => exact .ok trivial
  | error f => exact .error trivial

/-- A drop that is bound, as it is or as a copy, is bound. -/
theorem binds_bind (v : Value) : Binds ctx (Eval.bind ctx v) w := by
  refine .store_bind ?_
  split
  · next d ho =>
    split
    · next hbound =>
      refine .pure fun d' hd' => ?_
      cases ho.symm.trans hd'
      exact beq_iff_eq.1 hbound
    · refine fun _ => ⟨trivial, trivial, .ok fun d' hd' => ?_⟩
      cases (Store.object?_alloc _ _).symm.trans hd'
      rfl
  · next hother => exact .pure fun d hd => absurd hd (hother d)

theorem binds_receive (v : Value) : Binds ctx (receive reenter ctx v) w :=
  .bind (behaves_anyhow _ w) fun v _ _ (_ : Anything _ v) => binds_bind v

/-- What a name stands for is bound to the context it is looked up in. -/
theorem binds_findVariable (name : Value) :
    Binds ctx (findVariable reenter ctx name) w := by
  refine .get_bind ?_
  split
  · refine .bind (behaves_anyhow _ w) fun v t _ (_ : Anything _ v) => ?_
    exact .bind (behaves_anyhow _ t) fun _ _ _ (_ : Anything _ _) =>
      binds_receive v
  · refine .bind (behaves_anyhow _ w) fun _ t _ (_ : Anything _ _) => ?_
    split
    · exact .refuse (fun _ _ => trivial) fun _ => trivial
    · exact .pure (.of_scalar Value.isScalar_nil)

/-- What a step leads to is bound to the context of its path. -/
theorem binds_stepFrom (whole : Path)
    (v key : Value) (command : Option Command) :
    Binds? ctx (stepFrom reenter ctx whole v key command) w := by
  have hreceive (x : Value) (t : World) :
      Binds? ctx (do return some (← receive reenter ctx x)) t :=
    .bind (binds_receive x) fun y u _ hy =>
      .pure fun z hz => Option.some.inj hz ▸ hy
  refine .store_bind ?_
  dsimp only
  split
  · exact .bind (behaves_anyhow _ w) fun x t _ (_ : Anything _ x) =>
      hreceive x t
  · split
    · refine .bind (behaves_anyhow _ w) fun _ t _ (_ : Anything _ _) => ?_
      exact .bind (behaves_anyhow _ t) fun x u _ (_ : Anything _ x) =>
        hreceive x u
    · refine .bind (behaves_anyhow _ w) fun _ t _ (_ : Anything _ _) => ?_
      refine .get_bind ?_
      split
      · exact .refuse (fun _ _ => trivial) fun _ => trivial
      · exact .pure fun z hz => by cases hz

/-- Whatever a path leads to has been bound last. -/
theorem bound_path (whole : Path) (p : Path) :
    Binds? ctx (path reenter ctx whole p) w := by
  cases p with
  | root name =>
    refine .bind (behaves_anyhow _ w) fun key t _ (_ : Anything _ key) => ?_
    exact .bind (binds_findVariable key) fun v u _ hv =>
      .pure fun z hz => Option.some.inj hz ▸ hv
  | step p key command =>
    refine .bind (behaves_anyhow _ w) fun r t _ (_ : Anything _ r) => ?_
    cases r with
    | none => exact .pure fun z hz => by cases hz
    | some v =>
      exact .bind (behaves_anyhow _ t) fun k u _ (_ : Anything _ k) =>
        binds_stepFrom whole v k command

end Eval

end Stencil
