/-
One run that mirrors another, answer by answer.

Two actions, run from related states, need not give the same answer for
the second to mirror the first: it is enough that the answers are related
too. What answers are related depends on the state the first run has come
to, since an answer may speak of what that state holds. And what was
known of an earlier state has to hold on in later ones. So a course comes
with two relations of states, that of the two runs and that of a state
to the ones after it in the first run.

Failures are told alike, whatever the states are.
-/
import Stencil.Proofs.Sequence
import Stencil.World

namespace Stencil

section

variable {α β γ δ σ : Type}

-- ============================================================ outcomes

/-- Two outcomes are alike: both are answers, which are related, or both
are the same failure. -/
inductive Alike (Q : α → β → Prop) :
    Except Failure α → Except Failure β → Prop
  | ok {a : α} {b : β} : Q a b → Alike Q (.ok a) (.ok b)
  | error (e : Failure) : Alike Q (.error e) (.error e)

theorem Alike.mono {Q R : α → β → Prop} (h : ∀ a b, Q a b → R a b)
    {x : Except Failure α} {y : Except Failure β} (hxy : Alike Q x y) :
    Alike R x y := by
  cases hxy with
  | ok hq => exact .ok (h _ _ hq)
  | error e => exact .error e

/-- Two outcomes that are both like a third one are alike. -/
theorem Alike.of_both {Q : α → β → Prop} {R : α → γ → Prop}
    {S : β → γ → Prop} {x : Except Failure α} {y : Except Failure β}
    {z : Except Failure γ} (hy : Alike Q x y) (hz : Alike R x z)
    (h : ∀ a b c, Q a b → R a c → S b c) : Alike S y z := by
  cases hy with
  | ok hq =>
    cases hz with
    | ok hr => exact .ok (h _ _ _ hq hr)
  | error e =>
    cases hz
    exact .error e

theorem Alike.eq {x y : Except Failure α} (h : Alike Eq x y) : x = y := by
  cases h with
  | ok h => exact congrArg Except.ok h
  | error e => rfl

-- ============================================================= courses

/-- How two runs go: which states of theirs are related, and which states
of the first one come after which. -/
structure Course (σ : Type) where
  related : σ → σ → Prop
  later : σ → σ → Prop
  refl : ∀ {s s'}, related s s' → later s s
  trans : ∀ {s s' t u}, related s s' → later s t → later t u → later s u

variable {C : Course σ} {Q : σ → α → β → Prop} {R : σ → γ → δ → Prop}
  {s s' : σ}

/-- From related states, the second action does as the first one: it
comes to a related state with an outcome that is alike. -/
def Mirrors (C : Course σ) (Q : σ → α → β → Prop)
    (x : ExceptT Failure (StateM σ) α) (y : ExceptT Failure (StateM σ) β)
    (s s' : σ) : Prop :=
  C.related s s' →
    C.later s (x s).2 ∧ C.related (x s).2 (y s').2 ∧
      Alike (Q (x s).2) (x s).1 (y s').1

namespace Mirrors

/-- Whether the states are related may be taken for granted. -/
theorem assume {x : ExceptT Failure (StateM σ) α}
    {y : ExceptT Failure (StateM σ) β}
    (h : C.related s s' → Mirrors C Q x y s s') : Mirrors C Q x y s s' :=
  fun hs => h hs hs

/-- Related answers are given. -/
protected theorem pure {a : α} {b : β} (h : Q s a b) :
    Mirrors C Q (pure a) (pure b) s s' :=
  fun hs => ⟨C.refl hs, hs, .ok h⟩

/-- The same failure is raised. -/
protected theorem throw (e : Failure) :
    Mirrors C Q (throw e) (throw e) s s' :=
  fun hs => ⟨C.refl hs, hs, .error e⟩

/-- States are changed to related ones that come after. -/
protected theorem modify {Q : σ → PUnit → PUnit → Prop} {f f' : σ → σ}
    (hf : C.related s s' →
      C.later s (f s) ∧ C.related (f s) (f' s') ∧ Q (f s) ⟨⟩ ⟨⟩) :
    Mirrors C Q (modify f) (modify f') s s' := by
  intro hs
  obtain ⟨hlater, hrel, hq⟩ := hf hs
  exact ⟨hlater, hrel, .ok hq⟩

/-- In a sequence the rest may rely on what relates the answers of the
first actions, and on what is handed on from the state before them. -/
protected theorem bind {x : ExceptT Failure (StateM σ) α}
    {y : ExceptT Failure (StateM σ) β}
    {f : α → ExceptT Failure (StateM σ) γ}
    {g : β → ExceptT Failure (StateM σ) δ} (hx : Mirrors C Q x y s s')
    (hf : ∀ t t' a b, C.later s t → Q t a b →
      Mirrors C R (f a) (g b) t t') :
    Mirrors C R (x >>= f) (y >>= g) s s' := by
  intro hs
  obtain ⟨hlater, hrel, houtcome⟩ := hx hs
  rw [bind_apply, bind_apply]
  rcases hp : x s with ⟨r, t⟩
  rcases hq : y s' with ⟨r', t'⟩
  rw [hp, hq] at houtcome hrel
  rw [hp] at hlater
  cases houtcome with
  | error e => exact ⟨hlater, hrel, .error e⟩
  | @ok a b hab =>
    obtain ⟨hlater', hend⟩ := hf t t' a b hlater hab hrel
    exact ⟨C.trans hs hlater hlater', hend⟩

/-- The states may be looked at. -/
theorem get_bind {f : σ → ExceptT Failure (StateM σ) γ}
    {g : σ → ExceptT Failure (StateM σ) δ}
    (h : Mirrors C R (f s) (g s') s s') :
    Mirrors C R (get >>= f) (get >>= g) s s' :=
  h

/-- Other things may be claimed of the answers, as far as they follow. -/
theorem mono {Q' : σ → α → β → Prop} {x : ExceptT Failure (StateM σ) α}
    {y : ExceptT Failure (StateM σ) β}
    (h : ∀ t a b, C.later s t → Q t a b → Q' t a b)
    (hxy : Mirrors C Q x y s s') : Mirrors C Q' x y s s' := by
  intro hs
  obtain ⟨hlater, hrel, houtcome⟩ := hxy hs
  exact ⟨hlater, hrel, houtcome.mono fun a b => h _ a b hlater⟩

-- --------------------------------------------------------------- worlds

variable {C : Course World} {Q : World → α → β → Prop} {w w' : World}

/-- Outcomes that were found without the worlds are given as they are. -/
theorem ofExcept {r : Except Failure α} {r' : Except Failure β}
    (h : Alike (Q w) r r') :
    Mirrors C Q (Eval.ofExcept r) (Eval.ofExcept r') w w' := by
  cases h with
  | ok hq => exact .pure hq
  | error e => exact .throw e

/-- What was found without the worlds is given in both of them. -/
theorem outcome {Q : World → α → α → Prop} (r : Except Failure α)
    (h : ∀ a, Q w a a) :
    Mirrors C Q (Eval.ofExcept r) (Eval.ofExcept r) w w' := by
  cases r with
  | ok a => exact .pure (h a)
  | error e => exact .throw e

/-- A failure that tells a text is the same, and so is that of the text. -/
theorem refuse (text : Except Failure String) (failure : String → Failure) :
    Mirrors C Q (do throw (failure (← Eval.ofExcept text)))
      (do throw (failure (← Eval.ofExcept text))) w w' := by
  cases text with
  | ok shown => exact .throw _
  | error f => exact .throw f

end Mirrors

end

end Stencil
