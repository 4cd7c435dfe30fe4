/-
Two runs side by side: when they agree, and how agreement passes along
a sequence of actions.

A run of an action ends with an answer or a failure, and with a state.
Two runs agree under a relation of states when they end alike in
related states, or when the first one fails in a way that is excused.
Excuses end a run for good: nothing in the evaluator recovers from a
failure, so an excused failure stays one however the run would go on,
and this is what makes agreement pass through `bind` without looking at
the second run at all in that case.

An action is parallel when its runs agree from any two related states.
Almost every action of the evaluator is parallel because its parts are;
the few that look at what the relation leaves open are compared run by
run.

The notions are kept apart from what they are used for: the relation of
the states and the excuses are parameters, and so is the type of states,
which is a world for evaluation and a page for rendering.
-/
import Stencil.Proofs.Sequence
import Stencil.Template.Rendering

namespace Stencil

section

variable {σ α β : Type} {R : σ → σ → Prop} {excused : Failure → Prop}

-- ======================================================= ends of runs

/-- Two runs agree: they end alike in related states, or the first one
fails and is excused. -/
def Agree (R : σ → σ → Prop) (excused : Failure → Prop)
    (p q : Except Failure α × σ) : Prop :=
  (p.1 = q.1 ∧ R p.2 q.2) ∨ ∃ f, p.1 = .error f ∧ excused f

/-- Ends that are alike, in related states, agree. -/
theorem Agree.alike {r : Except Failure α} {s s' : σ} (h : R s s') :
    Agree R excused (r, s) (r, s') :=
  Or.inl ⟨rfl, h⟩

/-- An excused failure agrees with whatever the other run does. -/
theorem Agree.excuse {f : Failure} {s : σ} {q : Except Failure α × σ}
    (h : excused f) : Agree R excused (.error f, s) q :=
  Or.inr ⟨f, rfl, h⟩

/-- Runs whose first steps agree, and whose later steps agree from
wherever the first ones may lead, agree. -/
theorem Agree.bind {x y : ExceptT Failure (StateM σ) α}
    {f g : α → ExceptT Failure (StateM σ) β} {s s' : σ}
    (hx : Agree R excused (x s) (y s'))
    (hf : ∀ a t t', R t t' → Agree R excused (f a t) (g a t')) :
    Agree R excused ((x >>= f) s) ((y >>= g) s') := by
  rw [bind_apply, bind_apply]
  rcases hp : x s with ⟨r, t⟩
  rcases hq : y s' with ⟨r', t'⟩
  rw [hp, hq] at hx
  rcases hx with ⟨hr, ht⟩ | ⟨e, he, hexc⟩
  · obtain rfl : r = r' := hr
    cases r with
    | error e => exact Agree.alike ht
    | ok a => exact hf a t t' ht
  · obtain rfl : r = .error e := he
    exact Agree.excuse hexc

-- =================================================== parallel actions

/-- The runs of an action from related states agree. -/
def Parallel (R : σ → σ → Prop) (excused : Failure → Prop)
    (x : ExceptT Failure (StateM σ) α) : Prop :=
  ∀ s s', R s s' → Agree R excused (x s) (x s')

/-- An answer is given alike. -/
theorem Parallel.pure (a : α) :
    Parallel R excused (Pure.pure a : ExceptT Failure (StateM σ) α) :=
  fun _ _ h => Agree.alike h

/-- A failure is raised alike. -/
theorem Parallel.throw (f : Failure) :
    Parallel R excused (throw f : ExceptT Failure (StateM σ) α) :=
  fun _ _ h => Agree.alike h

/-- Actions in sequence are parallel if each is, whatever the ones
before it answered. -/
theorem Parallel.bind {x : ExceptT Failure (StateM σ) α}
    {f : α → ExceptT Failure (StateM σ) β}
    (hx : Parallel R excused x) (hf : ∀ a, Parallel R excused (f a)) :
    Parallel R excused (x >>= f) :=
  fun s s' h => (hx s s' h).bind fun a t t' ht => hf a t t' ht

/-- A change that keeps the relation is parallel. -/
theorem Parallel.modify {f : σ → σ} (hf : ∀ s s', R s s' → R (f s) (f s')) :
    Parallel R excused
      (modify f : ExceptT Failure (StateM σ) Unit) :=
  fun s s' h => Agree.alike (hf s s' h)

end

end Stencil
