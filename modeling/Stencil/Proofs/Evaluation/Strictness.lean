/-
What strictness does: a strict render only adds failures about
undefined names.

The relation between the worlds is `Stricter`: they are equal but for
contexts that are strict in the first one. Evaluation asks for what is
equal, and whether a context is strict, so the relation is uniform if
failures about undefined names are excused, and those to tell such a name.
Two runs of the same action then go alike up to the first such failure,
and that failure ends the strict run.

A name is told in the failure, and an integer of too many digits cannot be
(`render_strict_overlong`). So not all that strictness adds says that a
name is undefined.

What it takes for this is only that contexts have the same layers. It is
kept by everything an evaluation does, since evaluation changes objects,
counts and journal, which are equal, and never a context.
-/
import Mathlib.Algebra.Group.Int.Defs
import Mathlib.Control.Monad.Basic
import Stencil.Proofs.Evaluation.Uniformity

namespace Stencil

/-- The first world is the second one, but for contexts that are strict
in the first and not in the second. -/
structure Stricter (w w' : World) : Prop where
  store : w.store = w'.store
  calls : w.calls = w'.calls
  journal : w.journal = w'.journal
  layers : ∀ ctx, (w.context ctx).layers = (w'.context ctx).layers
  strict : ∀ ctx, (w'.context ctx).strict = true →
    (w.context ctx).strict = true

/-- Evaluation goes alike in worlds of which the first is the stricter
one, up to failures about undefined names. -/
theorem Stricter.uniform : Uniform Stricter Failure.OfStrictness where
  store h := h.store
  layers h := h.layers
  strict := by
    intro w w' h ctx
    cases hs : (w.context ctx).strict with
    | true => exact Or.inr ⟨rfl, fun _ hf => hf⟩
    | false =>
      cases hs' : (w'.context ctx).strict with
      | true => exact absurd (h.strict ctx hs') (by simp [hs])
      | false => exact Or.inl rfl
  changed h s := ⟨rfl, h.calls, h.journal, h.layers, h.strict⟩
  counted h label :=
    ⟨h.store, congrArg (World.countCall label) h.calls, h.journal,
      h.layers, h.strict⟩
  told h tell :=
    ⟨h.store, h.calls, congrArg tell h.journal, h.layers, h.strict⟩

namespace Eval

/-- Two runs from worlds of which the first is the stricter one agree
up to a failure about an undefined name. -/
abbrev AgreeStrict {α : Type} (p q : Except Failure α × World) : Prop :=
  Agree Stricter Failure.OfStrictness p q

/-- An action goes alike in worlds of which the first is the stricter
one, up to a failure about an undefined name. -/
abbrev ParallelStrict {α : Type} (x : Eval α) : Prop :=
  Parallel Stricter Failure.OfStrictness x

/-- A template is rendered alike in a context of both worlds. -/
theorem parallel_renderIn (ctx : ContextId) (t : Template) :
    ParallelStrict (renderIn ctx t) :=
  Stricter.uniform.renderIn ctx t

/-- A new context that is strict and one that is not, put into the same
world, leave worlds of which the first is the stricter one. -/
theorem agree_newContext (environments : List Value) (w : World) :
    AgreeStrict (newContext none environments true w)
      (newContext none environments false w) := by
  refine Or.inl ⟨rfl, rfl, rfl, rfl, fun ctx => ?_, fun ctx => ?_⟩
  · show (World.context ⟨_, w.contexts.push _, _, _⟩ ctx).layers
      = (World.context ⟨_, w.contexts.push _, _, _⟩ ctx).layers
    simp only [World.context, Array.getElem?_push]
    split <;> rfl
  · show (World.context ⟨_, w.contexts.push _, _, _⟩ ctx).strict = true →
      (World.context ⟨_, w.contexts.push _, _, _⟩ ctx).strict = true
    simp only [World.context, Array.getElem?_push]
    split
    · exact fun _ => rfl
    · exact id

/-- Strictness only adds failures about undefined names: a strict render
and a lenient one of the same template from the same world, on the same
data, end alike, with the same calls counted and the same objects, or
the strict one fails because a name or a member is undefined, or has too
many digits for such a failure to tell it. So a text that the strict render
returns is the lenient one's as well. -/
theorem render_strict_only_adds_undefined (t : Template)
    (assigns : Option Value) (environments : List Value) (w : World) :
    let strict := (render assigns environments true t).run w
    let lenient := (render assigns environments false t).run w
    (strict.1 = lenient.1 ∧ strict.2.calls = lenient.2.calls
        ∧ strict.2.store = lenient.2.store
      ∨ ∃ f, strict.1 = .error f ∧
        (f.isUndefined = true ∨ f = .tooManyDigits))
    ∧ ∀ text, strict.1 = .ok text → lenient.1 = .ok text := by
  intro strict lenient
  have h : AgreeStrict strict lenient :=
    (agree_newContext (assigns.toList ++ environments) w).bind
      fun ctx t₁ t₂ ht => parallel_renderIn ctx t t₁ t₂ ht
  rcases h with ⟨hr, hw⟩ | ⟨f, hf, hu⟩
  · exact ⟨Or.inl ⟨hr, hw.calls, hw.store⟩, fun text ht => hr ▸ ht⟩
  · refine ⟨Or.inr ⟨f, hf, hu⟩, fun text ht => ?_⟩
    rw [hf] at ht
    cases ht

/-- A key of too many digits, which no table holds, is nothing to a lenient
render. A strict one fails, and not because the key is undefined. -/
theorem render_strict_overlong :
    let w : World := { World.fresh false with
      store := ⟨#[.table [], .table
        [(.text "d", .object 0), (.text "k", .int (10 ^ 4300))]]⟩ }
    ∃ t, (Template.parse .standard .strict "{{ d[k] }}"
        (.fresh false)).1 = .ok t ∧
      (render (some (.object 1)) [] false t w).1 = .ok "" ∧
      (render (some (.object 1)) [] true t w).1 = .error .tooManyDigits := by
  intro w
  have hruns : (match (Template.parse .standard .strict "{{ d[k] }}"
        (.fresh false)).1 with
      | .ok t =>
        decide ((render (some (.object 1)) [] false t w).1 = .ok "" ∧
          (render (some (.object 1)) [] true t w).1 = .error .tooManyDigits)
      | .error _ => false) = true := by
    decide +kernel
  generalize (Template.parse .standard .strict "{{ d[k] }}"
    (.fresh false)).1 = read at hruns
  cases read with
  | error f => cases hruns
  | ok t => exact ⟨t, rfl, of_decide_eq_true hruns⟩

end Eval
end Stencil
