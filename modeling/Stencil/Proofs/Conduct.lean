/-
How an action conducts itself, whether it answers or fails.

A conduct is an invariant of the state, a relation of a state to the ones
after it, and the failures that may happen. An action behaves, from a
state, if it keeps the invariant and the relation and fails in no other
way; what is claimed of an answer may speak of the state the action has
come to. The state after a failure counts as much as the one after an
answer.

Some failures may be excused: then nothing is claimed of the state that the
action has failed in. Since a failure is what the whole sequence ends with,
nothing needs to be known of such a state to go on from it.
-/
import Stencil.Proofs.Sequence

namespace Stencil

section

variable {σ α β : Type}

/-- An outcome is an answer of a kind or a failure of a kind. -/
inductive Admits (Q : α → Prop) (fails : Failure → Prop) :
    Except Failure α → Prop
  | ok {a : α} : Q a → Admits Q fails (.ok a)
  | error {f : Failure} : fails f → Admits Q fails (.error f)

theorem Admits.mono {Q R : α → Prop} {fails : Failure → Prop}
    (h : ∀ a, Q a → R a) {r : Except Failure α} (hr : Admits Q fails r) :
    Admits R fails r := by
  cases hr with
  | ok ha => exact .ok (h _ ha)
  | error hf => exact .error hf

/-- What is kept while an action runs, which states come after which, and
how an action may fail. -/
structure Conduct (σ : Type) where
  holds : σ → Prop
  later : σ → σ → Prop
  fails : Failure → Prop
  refl : ∀ s, later s s
  trans : ∀ {s t u}, later s t → later t u → later s u

/-- The conduct that is only about how an action fails. -/
def Conduct.failing (σ : Type) (fails : Failure → Prop) : Conduct σ where
  holds _ := True
  later _ _ := True
  fails := fails
  refl _ := trivial
  trans _ _ := trivial

/-- From a state that has the invariant, an action comes to a later one
that has it too, and ends as it may. -/
def Behaves (C : Conduct σ) (Q : σ → α → Prop)
    (x : ExceptT Failure (StateM σ) α) (s : σ) : Prop :=
  C.holds s →
    C.later s (x s).2 ∧ C.holds (x s).2 ∧ Admits (Q (x s).2) C.fails (x s).1

/-- Nothing is claimed of an answer. -/
abbrev Anything : σ → α → Prop := fun _ _ => True

namespace Behaves

variable {C : Conduct σ} {Q : σ → α → Prop} {R : σ → β → Prop} {s : σ}

/-- The invariant may be taken for granted. -/
theorem assume {x : ExceptT Failure (StateM σ) α}
    (h : C.holds s → Behaves C Q x s) : Behaves C Q x s :=
  fun hs => h hs hs

protected theorem pure {a : α} (h : Q s a) : Behaves C Q (pure a) s :=
  fun hs => ⟨C.refl s, hs, .ok h⟩

protected theorem throw {f : Failure} (h : C.fails f) :
    Behaves C Q (throw f) s :=
  fun hs => ⟨C.refl s, hs, .error h⟩

/-- The state is changed to a later one that has the invariant. -/
protected theorem modify {Q : σ → PUnit → Prop} {f : σ → σ}
    (h : C.holds s → C.later s (f s) ∧ C.holds (f s) ∧ Q (f s) ⟨⟩) :
    Behaves C Q (modify f) s := by
  intro hs
  obtain ⟨hlater, hholds, hq⟩ := h hs
  exact ⟨hlater, hholds, .ok hq⟩

/-- In a sequence the rest may rely on what the first action answered, and
on the state being a later one. -/
protected theorem bind {x : ExceptT Failure (StateM σ) α}
    {f : α → ExceptT Failure (StateM σ) β} (hx : Behaves C Q x s)
    (hf : ∀ a t, C.later s t → Q t a → Behaves C R (f a) t) :
    Behaves C R (x >>= f) s := by
  intro hs
  obtain ⟨hlater, hholds, hends⟩ := hx hs
  rw [bind_apply]
  rcases hrun : x s with ⟨r, t⟩
  rw [hrun] at hlater hholds hends
  cases hends with
  | error hfails => exact ⟨hlater, hholds, .error hfails⟩
  | @ok a ha =>
    obtain ⟨hlater', hend⟩ := hf a t hlater ha hholds
    exact ⟨C.trans hlater hlater', hend⟩

/-- The state may be looked at. -/
theorem get_bind {f : σ → ExceptT Failure (StateM σ) β}
    (h : Behaves C R (f s) s) : Behaves C R (get >>= f) s :=
  h

/-- Other things may be claimed of the answers, as far as they follow. -/
theorem mono {Q' : σ → α → Prop} {x : ExceptT Failure (StateM σ) α}
    (h : ∀ t a, C.later s t → Q t a → Q' t a) (hx : Behaves C Q x s) :
    Behaves C Q' x s := by
  intro hs
  obtain ⟨hlater, hholds, hends⟩ := hx hs
  exact ⟨hlater, hholds, hends.mono fun a => h _ a hlater⟩

/-- What is claimed of the answers in two ways holds of them both ways. -/
theorem both {D : Conduct σ} {Q' : σ → α → Prop}
    {x : ExceptT Failure (StateM σ) α} (hx : Behaves C Q x s)
    (hx' : Behaves D Q' x s) (hD : D.holds s) :
    Behaves C (fun t a => Q t a ∧ Q' t a) x s := by
  intro hs
  obtain ⟨hlater, hholds, hends⟩ := hx hs
  obtain ⟨-, -, hends'⟩ := hx' hD
  refine ⟨hlater, hholds, ?_⟩
  generalize (x s).1 = r at hends hends'
  cases hends with
  | error hf => exact .error hf
  | ok ha =>
    cases hends' with
    | ok ha' => exact .ok ⟨ha, ha'⟩

end Behaves

-- ============================================================= excuses

/-- From a state that has the invariant, an action behaves, or it fails as
is excused in the state it has come to. -/
def BehavesUnless (C : Conduct σ) (excused : σ → Failure → Prop)
    (Q : σ → α → Prop) (x : ExceptT Failure (StateM σ) α) (s : σ) : Prop :=
  C.holds s →
    (∃ f, (x s).1 = .error f ∧ excused (x s).2 f) ∨
      C.later s (x s).2 ∧ C.holds (x s).2 ∧
        Admits (Q (x s).2) C.fails (x s).1

namespace BehavesUnless

variable {C : Conduct σ} {excused : σ → Failure → Prop} {Q : σ → α → Prop}
  {R : σ → β → Prop} {s : σ}

/-- An action behaves if no failure is excused. -/
theorem behaves {x : ExceptT Failure (StateM σ) α}
    (h : BehavesUnless C (fun _ _ => False) Q x s) : Behaves C Q x s := by
  intro hs
  rcases h hs with ⟨f, -, hf⟩ | hbehaves
  · exact hf.elim
  · exact hbehaves

/-- What behaves needs no excuse. -/
theorem of_behaves {x : ExceptT Failure (StateM σ) α}
    (h : Behaves C Q x s) : BehavesUnless C excused Q x s :=
  fun hs => Or.inr (h hs)

/-- The invariant may be taken for granted. -/
theorem assume {x : ExceptT Failure (StateM σ) α}
    (h : C.holds s → BehavesUnless C excused Q x s) :
    BehavesUnless C excused Q x s :=
  fun hs => h hs hs

protected theorem pure {a : α} (h : Q s a) :
    BehavesUnless C excused Q (pure a) s :=
  .of_behaves (.pure h)

protected theorem throw {f : Failure} (h : C.fails f) :
    BehavesUnless C excused Q (throw f) s :=
  .of_behaves (.throw h)

/-- In a sequence the rest may rely on what the first action answered. -/
protected theorem bind {x : ExceptT Failure (StateM σ) α}
    {f : α → ExceptT Failure (StateM σ) β}
    (hx : BehavesUnless C excused Q x s)
    (hf : ∀ a t, C.later s t → Q t a → BehavesUnless C excused R (f a) t) :
    BehavesUnless C excused R (x >>= f) s := by
  intro hs
  have hends := hx hs
  rw [bind_apply]
  rcases hrun : x s with ⟨r, t⟩
  rw [hrun] at hends
  rcases hends with ⟨e, rfl, he⟩ | ⟨hlater, hholds, hends⟩
  · exact Or.inl ⟨e, rfl, he⟩
  · cases hends with
    | error hfails => exact Or.inr ⟨hlater, hholds, .error hfails⟩
    | @ok a ha =>
      rcases hf a t hlater ha hholds with hexcused | ⟨hlater', hend⟩
      · exact Or.inl hexcused
      · exact Or.inr ⟨C.trans hlater hlater', hend⟩

/-- The state may be looked at. -/
theorem get_bind {f : σ → ExceptT Failure (StateM σ) β}
    (h : BehavesUnless C excused R (f s) s) :
    BehavesUnless C excused R (get >>= f) s :=
  h

/-- Other things may be claimed of the answers, as far as they follow. -/
theorem mono {Q' : σ → α → Prop} {x : ExceptT Failure (StateM σ) α}
    (h : ∀ t a, C.later s t → Q t a → Q' t a)
    (hx : BehavesUnless C excused Q x s) :
    BehavesUnless C excused Q' x s := by
  intro hs
  rcases hx hs with hexcused | ⟨hlater, hholds, hends⟩
  · exact Or.inl hexcused
  · exact Or.inr ⟨hlater, hholds, hends.mono fun a => h _ a hlater⟩

/-- What is claimed of the answers besides holds of them too. -/
theorem both {D : Conduct σ} {Q' : σ → α → Prop}
    {x : ExceptT Failure (StateM σ) α} (hx : BehavesUnless C excused Q x s)
    (hx' : Behaves D Q' x s) (hD : C.holds s → D.holds s) :
    BehavesUnless C excused (fun t a => Q t a ∧ Q' t a) x s := by
  intro hs
  rcases hx hs with hexcused | hbehaves
  · exact Or.inl hexcused
  · have hx : Behaves C Q x s := fun _ => hbehaves
    exact Or.inr (hx.both hx' (hD hs) hs)

end BehavesUnless

end

end Stencil
