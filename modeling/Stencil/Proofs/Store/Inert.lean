/-
Data that do nothing when they are read.

A value is inert if whatever can be reached from it is there, and is
neither deferred nor a drop. What is read from inert data is inert again,
and can be read without evaluating anything: a part is what `fetch` says,
and a host object stands for the value in it. Nor do inert data become
anything else when an entry of a table is put into a new list, which is all
that reading them adds to a store.
-/
import Mathlib.Logic.Relation
import Stencil.Proofs.Store.Slots

namespace Stencil

/-- Whether reading an object means to evaluate something. -/
def Object.acts : Object → Bool
  | .deferred _ | .drop _ => true
  | _ => false

namespace Store

variable {store : Store} {v x key : Value}

/-- A value is an object that refers to another value. -/
def Refers (store : Store) (v x : Value) : Prop :=
  ∃ o, store.object? v = some o ∧ x ∈ o.values

/-- Whatever can be reached from a value is there and does nothing. -/
def Inert (store : Store) (v : Value) : Prop :=
  ∀ i, Relation.ReflTransGen store.Refers v (.object i) →
    ∃ o, store.get? i = some o ∧ o.acts = false

-- ============================================================= reached

/-- What a set of values says of itself and of what its values refer to is
said of all that can be reached. -/
theorem inert_of_closed {T : Value → Prop} (hv : T v)
    (hT : ∀ i, T (.object i) → ∃ o, store.get? i = some o ∧
      o.acts = false ∧ ∀ x ∈ o.values, T x) : store.Inert v := by
  have hreach {x : Value} (h : Relation.ReflTransGen store.Refers v x) :
      T x := by
    induction h with
    | refl => exact hv
    | tail _ hstep ih =>
      obtain ⟨o, ho, hx⟩ := hstep
      obtain ⟨i, rfl, ho⟩ := object?_eq_some.1 ho
      obtain ⟨o', ho', -, hvalues⟩ := hT i ih
      obtain rfl : o = o' := Option.some.inj (ho.symm.trans ho')
      exact hvalues _ hx
  intro i hi
  obtain ⟨o, ho, hacts, -⟩ := hT i (hreach hi)
  exact ⟨o, ho, hacts⟩

/-- Where no object does anything, all that is there is inert. -/
theorem inert_of_all (hclosed : store.Closed [])
    (h : ∀ i o, store.get? i = some o → o.acts = false)
    (hv : store.Has [] v) : store.Inert v := by
  refine inert_of_closed (T := store.Has []) hv fun i hi => ?_
  obtain ⟨o, ho⟩ := exists_get? (hi i rfl).1
  exact ⟨o, ho, h i o ho, hclosed i o ho⟩

namespace Inert

theorem of_scalar (h : v.IsScalar) : store.Inert v :=
  inert_of_closed (T := Value.IsScalar) h fun i hi => absurd rfl (hi i)

/-- What inert data refer to is inert. -/
theorem of_values (hv : store.Inert v) {o : Object}
    (ho : store.object? v = some o) (hx : x ∈ o.values) : store.Inert x :=
  fun i hi => hv i (Relation.ReflTransGen.head ⟨o, ho, hx⟩ hi)

theorem exists_object (hv : store.Inert v) {i : ObjectId}
    (hi : v = .object i) : ∃ o, store.get? i = some o ∧ o.acts = false :=
  hv i (hi ▸ Relation.ReflTransGen.refl)

/-- Inert data are there. -/
theorem has (hv : store.Inert v) : store.Has [] v := by
  intro i hi
  obtain ⟨o, ho, -⟩ := hv.exists_object hi
  exact ⟨lt_size_of_get? ho, List.not_mem_nil⟩

theorem not_acts (hv : store.Inert v) {o : Object}
    (ho : store.object? v = some o) : o.acts = false := by
  obtain ⟨i, hi, ho⟩ := object?_eq_some.1 ho
  obtain ⟨o', ho', hacts⟩ := hv.exists_object hi
  obtain rfl : o = o' := Option.some.inj (ho.symm.trans ho')
  exact hacts

theorem drop?_eq_none (hv : store.Inert v) : store.drop? v = none := by
  cases hd : store.drop? v with
  | none => rfl
  | some d => cases hv.not_acts (drop?_eq_some.1 hd)

theorem deferred?_eq_none (hv : store.Inert v) :
    store.deferred? v = none := by
  cases hd : store.deferred? v with
  | none => rfl
  | some d =>
    obtain ⟨i, rfl, ho⟩ := deferred?_eq_some.1 hd
    cases hv.not_acts (v := .object i) ho

/-- Inert data stay so while a store grows. -/
theorem grown {store' : Store} (hv : store.Inert v)
    (h : store.Grown store') : store'.Inert v := by
  refine inert_of_closed hv fun i hi => ?_
  obtain ⟨o, ho, hacts⟩ := hi.exists_object rfl
  exact ⟨o, h i o ho, hacts, fun x hx => hi.of_values (v := .object i) ho hx⟩

-- =============================================================== parts

theorem entries (hv : store.Inert v) {e : Value × Value}
    (he : e ∈ store.entries v) : store.Inert e.1 ∧ store.Inert e.2 := by
  obtain ⟨i, o, rfl, ho, hk, hx⟩ := slots_of_mem_entries he
  exact ⟨hv.of_values (v := .object i) ho (Object.mem_values_of_mem_slots hk),
    hv.of_values (v := .object i) ho (Object.mem_values_of_mem_slots hx)⟩

theorem items (hv : store.Inert v) (hx : x ∈ store.items v) :
    store.Inert x := by
  unfold Store.items at hx
  split at hx
  · next ho => exact hv.of_values ho hx
  · next ho => exact hv.of_values ho hx
  · cases hx

theorem item (hv : store.Inert v) (index : Int) :
    store.Inert (store.item v index) := by
  rcases store.item_cases v index with h | h
  · exact hv.items h
  · exact .of_scalar h

/-- A part of inert data is inert. -/
theorem fetch (hv : store.Inert v) (h : store.fetch v key = .ok x) :
    store.Inert x := by
  rcases fetch_cases h with ⟨e, he, rfl⟩ | h | h
  · exact (hv.entries he).2
  · exact hv.items h
  · exact .of_scalar h

/-- A new object that does nothing and refers to inert values leaves inert
what was so, and is inert. -/
theorem alloc {o : Object} (ho : o.acts = false)
    (hvalues : ∀ x ∈ o.values, store.Inert x) :
    (store.alloc o).2.Inert (store.alloc o).1 ∧
      ∀ v, store.Inert v → (store.alloc o).2.Inert v := by
  have hold : ∀ v, store.Inert v → (store.alloc o).2.Inert v :=
    fun v hv => hv.grown ((Grown.refl store).alloc o)
  refine ⟨inert_of_closed (T := fun v => v = (store.alloc o).1 ∨
    (store.alloc o).2.Inert v) (Or.inl rfl) fun i hi => ?_, hold⟩
  rcases hi with hi | hi
  · have ho' : (store.alloc o).2.object? (.object i) = some o :=
      hi ▸ object?_alloc store o
    exact ⟨o, ho', ho, fun x hx => Or.inr (hold x (hvalues x hx))⟩
  · obtain ⟨p, hp, hacts⟩ := hi.exists_object rfl
    exact ⟨p, hp, hacts,
      fun x hx => Or.inr (hi.of_values (v := .object i) hp hx)⟩

end Inert

/-- The value that a value stands for in templates, where that is found out
without evaluating anything. -/
def standIn (store : Store) (v : Value) : Value :=
  match store.object? v with
  | some (.host inner) => inner
  | _ => v

theorem Inert.standIn (hv : store.Inert v) :
    store.Inert (store.standIn v) := by
  unfold Store.standIn
  split
  · next ho => exact hv.of_values ho (List.mem_singleton.2 rfl)
  · exact hv

-- ============================================================= commands

/-- What inert data answer to a command is inert. A new object is a list of
a key and its value at most. -/
theorem Inert.command? (hv : store.Inert v) {command : Command}
    {answer : Except Failure Value} {store' : Store}
    (h : store.command? v command = some (answer, store')) :
    (store' = store ∧ ∀ x, answer = .ok x → store.Inert x) ∨
      ∃ k x, store.Inert k ∧ store.Inert x ∧
        store' = (store.alloc (.list [k, x])).2 ∧
        answer = .ok (store.alloc (.list [k, x])).1 := by
  unfold Store.command? at h
  split at h
  · cases command with
    | size =>
      cases h
      refine Or.inl ⟨rfl, fun x hx => ?_⟩
      cases hlength : (store.datum v).length? with
      | error f =>
        rw [sizeOf, hlength] at hx
        cases hx
      | ok n =>
        rw [sizeOf, hlength] at hx
        cases hx
        exact .of_scalar fun i hi => by cases hi
    | last =>
      cases h
      refine Or.inl ⟨rfl, fun x hx => ?_⟩
      cases hx
      exact hv.item _
    | first =>
      simp only [firstOf] at h
      split at h
      · split at h
        · next k x rest hentries =>
          cases h
          have hmem : (k, x) ∈ store.entries v := by
            rw [hentries]
            exact List.mem_cons_self ..
          obtain ⟨hk, hx⟩ := hv.entries hmem
          exact Or.inr ⟨k, x, hk, hx, rfl, rfl⟩
        · cases h
          refine Or.inl ⟨rfl, fun x hx => ?_⟩
          cases hx
          exact .of_scalar Value.isScalar_nil
      · cases h
        refine Or.inl ⟨rfl, fun x hx => ?_⟩
        cases hx
        exact hv.item _
  · cases h

end Store

end Stencil
