/-
Values that do not contain themselves.

Comparing goes from a list to its items and from a table to its values, and
nowhere else (`HasPart`). From a value below which nothing holds itself
(`Acyclic`) every way down ends, and no way is longer than there are
objects, since it meets none of them twice (`Acyclic.endsWithin`). So the
budget of a comparison does not run out on such a value, whatever it is
compared with.

Whether all ways end within some steps is found out by going them
(`EndsWithin`), which also shows that nothing holds itself.
-/
import Mathlib.Logic.Relation
import Stencil.Proofs.Store.Keys

namespace Stencil.Store

variable {store : Store} {v x : Value} {m n : Nat}

/-- The parts of a value that are compared with it: the items of a list or
tuple, and the values of a table. -/
def parts (store : Store) (v : Value) : List Value :=
  store.items v ++ (store.entries v).map Prod.snd

/-- A value has another one for a part. -/
def HasPart (store : Store) (v x : Value) : Prop := x ∈ store.parts v

/-- Nothing that is met on the way down from a value holds itself. -/
def Acyclic (store : Store) (v : Value) : Prop :=
  ∀ x, Relation.ReflTransGen store.HasPart v x →
    ¬Relation.TransGen store.HasPart x x

/-- All ways down from a value end in fewer than the given steps. -/
def EndsWithin (store : Store) : Nat → Value → Prop
  | 0, _ => False
  | n + 1, v => ∀ x ∈ store.parts v, store.EndsWithin n x

instance decidableEndsWithin (store : Store) :
    (n : Nat) → (v : Value) → Decidable (store.EndsWithin n v)
  | 0, _ => .isFalse id
  | n + 1, _ =>
    have := decidableEndsWithin store n
    List.decidableBAll _ _

theorem EndsWithin.mono (h : store.EndsWithin m v) (hmn : m ≤ n) :
    store.EndsWithin n v := by
  induction n generalizing m v with
  | zero =>
    obtain rfl := Nat.le_zero.1 hmn
    exact h
  | succ n ih =>
    cases m with
    | zero => exact h.elim
    | succ m => exact fun x hx => ih (h x hx) (Nat.le_of_succ_le_succ hmn)

theorem EndsWithin.below (h : store.EndsWithin n v)
    (hx : Relation.ReflTransGen store.HasPart v x) : store.EndsWithin n x := by
  induction hx with
  | refl => exact h
  | tail _ hstep ih =>
    cases n with
    | zero => exact ih.elim
    | succ n => exact (ih _ hstep).mono (Nat.le_succ n)

/-- Where all ways end nothing holds itself. -/
theorem EndsWithin.acyclic (h : store.EndsWithin n v) : store.Acyclic v := by
  have hself : ∀ n x, store.EndsWithin n x →
      ¬Relation.TransGen store.HasPart x x := by
    intro n
    induction n with
    | zero => exact fun x h => h.elim
    | succ n ih =>
      intro x h hround
      obtain ⟨y, hstep, hback⟩ := Relation.TransGen.head'_iff.1 hround
      exact ih x ((h y hstep).below hback) hround
  exact fun x hx => hself n x (h.below hx)

/-- A part of a value is one of the values of its object. -/
theorem exists_get?_of_hasPart (h : store.HasPart v x) :
    ∃ i o, v = .object i ∧ store.get? i = some o ∧ x ∈ o.values := by
  rcases List.mem_append.1 h with h | h
  · unfold items at h
    split at h
    · next ho =>
      obtain ⟨i, hi, hget⟩ := object?_eq_some.1 ho
      exact ⟨i, _, hi, hget, h⟩
    · next ho =>
      obtain ⟨i, hi, hget⟩ := object?_eq_some.1 ho
      exact ⟨i, _, hi, hget, h⟩
    · cases h
  · obtain ⟨e, he, rfl⟩ := List.mem_map.1 h
    obtain ⟨i, o, hi, hget, -, hslot⟩ := slots_of_mem_entries he
    exact ⟨i, o, hi, hget, Object.mem_values_of_mem_slots hslot⟩

/-- Below objects that all lead to a value the ways down from it end before
the room does, if nothing holds itself. -/
theorem endsWithin_of_room {depth : Nat} {above : List ObjectId}
    (hroom : store.Room depth above)
    (hv : ¬Relation.TransGen store.HasPart v v)
    (hbelow : ∀ x, Relation.TransGen store.HasPart v x →
      ¬Relation.TransGen store.HasPart x x)
    (habove : ∀ i ∈ above, Relation.TransGen store.HasPart (.object i) v) :
    store.EndsWithin depth v := by
  induction depth generalizing above v with
  | zero => exact absurd rfl hroom.ne_zero
  | succ depth ih =>
    intro x hx
    obtain ⟨i, o, rfl, ho, -⟩ := exists_get?_of_hasPart hx
    have hnew : ¬above.contains i = true := fun hmem =>
      hv (habove i (by simpa using hmem))
    refine ih (hroom.below (lt_size_of_get? ho) hnew)
      (hbelow x (.single hx)) (fun y hy => hbelow y (.head hx hy)) ?_
    refine List.forall_mem_cons.2 ⟨.single hx, fun j hj => ?_⟩
    exact (habove j hj).tail hx

/-- Below a value that does not contain itself no way is longer than there
are objects. -/
theorem Acyclic.endsWithin (h : store.Acyclic v) :
    store.EndsWithin (store.size + 1) v := by
  refine endsWithin_of_room ⟨List.nodup_nil, List.forall_mem_nil _, ?_⟩
    (h v .refl) (fun x hx => h x hx.to_reflTransGen) (List.forall_mem_nil _)
  rw [List.length_nil]
  exact Nat.lt_succ_self _

/-- The budget of a comparison is enough for all ways down. -/
theorem Acyclic.endsWithin_comparisonDepth (h : store.Acyclic v) :
    store.EndsWithin store.comparisonDepth v :=
  h.endsWithin.mono (Nat.succ_le_succ (Nat.le_mul_self _))

/-- In a store that was built from the inside out all ways down end. -/
theorem Grounded.endsWithin {roots : List ObjectId}
    (hs : store.Grounded roots) (hv : v.Below roots n) :
    store.EndsWithin (n + 1) v := by
  induction n generalizing v with
  | zero =>
    intro x hx
    obtain ⟨i, o, rfl, -, -⟩ := exists_get?_of_hasPart hx
    exact absurd (hv i rfl).1 (Nat.not_lt_zero i)
  | succ n ih =>
    intro x hx
    obtain ⟨i, o, rfl, ho, hmem⟩ := exists_get?_of_hasPart hx
    exact ih ((hs i o ho x hmem).mono (Nat.le_of_lt_succ (hv i rfl).1))

end Stencil.Store
