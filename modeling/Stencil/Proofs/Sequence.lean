/-
Actions in sequence, taken apart.

Reading and evaluation are written as actions that may fail and that
carry a state; what does not need a state is only an outcome. In both
cases a sequence that answers has parts that answer, and the first part
hands its answer, and the state it leaves, to the rest. These lemmas are
the way into every proof about what a successful run has done.
-/
import Stencil.Failure

namespace Stencil

variable {σ α β : Type}

/-- An action after another runs in the state the first one left, and
not at all if the first one failed. -/
theorem bind_apply (x : ExceptT Failure (StateM σ) α)
    (f : α → ExceptT Failure (StateM σ) β) (s : σ) :
    (x >>= f) s = match x s with
      | (.ok a, t) => f a t
      | (.error e, t) => (.error e, t) := by
  simp only [Bind.bind, ExceptT.bind, ExceptT.mk, StateT.bind]
  rcases x s with ⟨_ | _, _⟩ <;> rfl

/-- An action with a rescue runs as the action does, and where that fails
as the rescue does from the state it left. -/
theorem tryCatch_apply (x : ExceptT Failure (StateM σ) α)
    (handle : Failure → ExceptT Failure (StateM σ) α) (s : σ) :
    (tryCatch x handle) s = match x s with
      | (.ok a, t) => (.ok a, t)
      | (.error e, t) => handle e t := by
  show (ExceptT.tryCatch x handle) s = _
  simp only [ExceptT.tryCatch, ExceptT.mk, Bind.bind, StateT.bind]
  rcases x s with ⟨_ | _, _⟩ <;> rfl

/-- An action that looks at the state first runs as it would after being
told the state. -/
theorem get_bind_apply (f : σ → ExceptT Failure (StateM σ) β) (s : σ) :
    ((get : ExceptT Failure (StateM σ) σ) >>= f) s = f s s :=
  rfl

/-- A sequence of two actions answers when the first one does and the
second one does after it. -/
theorem bind_eq_ok {x : ExceptT Failure (StateM σ) α}
    {f : α → ExceptT Failure (StateM σ) β} {s u : σ} {b : β} :
    (x >>= f) s = (.ok b, u) ↔
      ∃ a t, x s = (.ok a, t) ∧ f a t = (.ok b, u) := by
  rw [bind_apply]
  constructor
  · intro h
    split at h
    · next a t hx => exact ⟨a, t, hx, h⟩
    · cases h
  · rintro ⟨a, t, hx, hf⟩
    rw [hx]
    exact hf

/-- A sequence of two actions fails when the first one does, or when the
second one does after it. -/
theorem bind_eq_error {x : ExceptT Failure (StateM σ) α}
    {f : α → ExceptT Failure (StateM σ) β} {s u : σ} {e : Failure} :
    (x >>= f) s = (.error e, u) ↔
      x s = (.error e, u) ∨
        ∃ a t, x s = (.ok a, t) ∧ f a t = (.error e, u) := by
  rw [bind_apply]
  rcases hx : x s with ⟨e' | a, t⟩
  · constructor
    · intro h
      cases h
      exact Or.inl rfl
    · rintro (h | ⟨_, _, h, _⟩)
      · cases h
        rfl
      · cases h
  · constructor
    · exact fun h => Or.inr ⟨a, t, rfl, h⟩
    · rintro (h | ⟨_, _, h, hf⟩)
      · cases h
      · cases h
        exact hf

/-- Outcomes in sequence give an answer when each of them does. -/
theorem outcome_bind_eq_ok {x : Except Failure α}
    {f : α → Except Failure β} {b : β} :
    (x >>= f) = .ok b ↔ ∃ a, x = .ok a ∧ f a = .ok b := by
  cases x with
  | error e =>
    constructor
    · exact fun h => nomatch h
    · rintro ⟨_, h, _⟩
      cases h
  | ok a =>
    constructor
    · exact fun h => ⟨a, rfl, h⟩
    · rintro ⟨_, ha, h⟩
      cases ha
      exact h

/-- Outcomes in sequence fail when the first one does, or the second one
after it. -/
theorem outcome_bind_eq_error {x : Except Failure α}
    {f : α → Except Failure β} {e : Failure} :
    (x >>= f) = .error e ↔
      x = .error e ∨ ∃ a, x = .ok a ∧ f a = .error e := by
  cases x with
  | error e' =>
    constructor
    · intro h
      cases h
      exact Or.inl rfl
    · rintro (h | ⟨_, h, _⟩)
      · cases h
        rfl
      · cases h
  | ok a =>
    constructor
    · exact fun h => Or.inr ⟨a, rfl, h⟩
    · rintro (h | ⟨_, ha, h⟩)
      · cases h
      · cases ha
        exact h

/-- Each answer of a list of readings is the answer of one of them. -/
theorem exists_of_mem_mapM {f : α → Except Failure β}
    {xs : List α} {ys : List β} (h : xs.mapM f = .ok ys) :
    ∀ y ∈ ys, ∃ x ∈ xs, f x = .ok y := by
  induction xs generalizing ys with
  | nil =>
    cases h
    intro y hy
    cases hy
  | cons x xs ih =>
    rw [List.mapM_cons] at h
    obtain ⟨y, hy, h⟩ := outcome_bind_eq_ok.1 h
    obtain ⟨ys', hys, h⟩ := outcome_bind_eq_ok.1 h
    cases h
    rintro z (_ | ⟨_, hz⟩)
    · exact ⟨x, List.mem_cons_self .., hy⟩
    · obtain ⟨x', hx', hfx⟩ := ih hys z hz
      exact ⟨x', List.mem_cons_of_mem _ hx', hfx⟩

/-- Each of a list of readings answers if they all do. -/
theorem exists_of_mapM_eq_ok {f : α → Except Failure β}
    {xs : List α} {ys : List β} (h : xs.mapM f = .ok ys) :
    ∀ x ∈ xs, ∃ y, f x = .ok y := by
  induction xs generalizing ys with
  | nil => exact nofun
  | cons x xs ih =>
    rw [List.mapM_cons] at h
    obtain ⟨y, hy, h⟩ := outcome_bind_eq_ok.1 h
    obtain ⟨ys', hys, -⟩ := outcome_bind_eq_ok.1 h
    exact List.forall_mem_cons.2 ⟨⟨y, hy⟩, ih hys⟩

/-- A list is gone through alike by readings that agree on its elements. -/
theorem mapM_congr {f g : α → Except Failure β} {xs : List α}
    (h : ∀ x ∈ xs, f x = g x) : xs.mapM f = xs.mapM g := by
  induction xs with
  | nil => rfl
  | cons x xs ih =>
    rw [List.mapM_cons, List.mapM_cons, h x (List.mem_cons_self ..),
      ih fun y hy => h y (List.mem_cons_of_mem _ hy)]

/-- A list of readings fails as one of them does. -/
theorem exists_of_mapM_eq_error {g : α → Except Failure β}
    {xs : List α} {f : Failure} (h : xs.mapM g = .error f) :
    ∃ x ∈ xs, g x = .error f := by
  induction xs with
  | nil => cases h
  | cons x xs ih =>
    rw [List.mapM_cons] at h
    rcases outcome_bind_eq_error.1 h with h | ⟨y, -, h⟩
    · exact ⟨x, List.mem_cons_self .., h⟩
    · rcases outcome_bind_eq_error.1 h with h | ⟨ys, -, h⟩
      · obtain ⟨x', hmem, hx'⟩ := ih h
        exact ⟨x', List.mem_cons_of_mem _ hmem, hx'⟩
      · cases h

end Stencil
