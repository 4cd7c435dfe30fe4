/-
Stores in which keys are all different.

The keys of a table, and the members of a set, can be keys, and no two of
them count as one (`WellKeyed`). Then no key has two partners among the keys
of another table. So as many partners as there are keys are all there are
(`covers_of_covered`), and what was looked for from the one side is found
from the other side as well (`covers_of_keys`).
-/
import Stencil.Proofs.Store.Entries

namespace Stencil

/-- What is related to all of one list is all of another, if nothing has two
partners and the other list is not the longer one. -/
theorem covers_of_covered {α β : Type} {R : α → β → Prop} {xs : List α}
    {ys : List β} (hlen : ys.length ≤ xs.length)
    (hone : xs.Pairwise fun x x' => ∀ y ∈ ys, R x y → ¬R x' y)
    (hall : ∀ x ∈ xs, ∃ y ∈ ys, R x y) : ∀ y ∈ ys, ∃ x ∈ xs, R x y := by
  induction xs generalizing ys with
  | nil =>
    obtain rfl : ys = [] := List.length_eq_zero_iff.1 (by simpa using hlen)
    exact nofun
  | cons x xs ih =>
    obtain ⟨hfirst, hrest⟩ := List.pairwise_cons.1 hone
    obtain ⟨⟨y, hy, hxy⟩, hall⟩ := List.forall_mem_cons.1 hall
    obtain ⟨before, after, rfl⟩ := List.append_of_mem hy
    -- the partner of the first is nobody else's, so the rest shares the rest
    have hothers : ∀ z ∈ before ++ after, ∃ x' ∈ xs, R x' z := by
      apply ih
      · simp only [List.length_append, List.length_cons] at hlen ⊢
        omega
      · exact hrest.imp fun h z hz => h z (by grind)
      · intro x' hx'
        obtain ⟨z, hz, hxz⟩ := hall x' hx'
        have hne : z ≠ y := by
          rintro rfl
          exact hfirst x' hx' z hy hxy hxz
        exact ⟨z, by grind, hxz⟩
    intro z hz
    by_cases hzy : z = y
    · exact ⟨x, List.mem_cons_self .., hzy ▸ hxy⟩
    · obtain ⟨x', hx', hxz⟩ := hothers z (by grind)
      exact ⟨x', List.mem_cons_of_mem _ hx', hxz⟩

/-- The keys of a table, and the members of a set. -/
def Object.keys : Object → List Value
  | .set items => items
  | .table entries | .frozen entries => entries.map Prod.fst
  | _ => []

theorem Object.mem_values_of_mem_keys {o : Object} {k : Value}
    (h : k ∈ o.keys) : k ∈ o.values := by
  cases o with
  | set items => exact h
  | table entries | frozen entries =>
    obtain ⟨e, he, rfl⟩ := List.mem_map.1 h
    exact (mem_entryValues he).1
  | _ => cases h

namespace Store

variable {store : Store}

/-- Values refer to what is there, and the keys of each table, like the
members of each set, can be keys and are all different. -/
structure WellKeyed (store : Store) : Prop where
  closed : store.Closed []
  hashable : ∀ i o, store.get? i = some o →
    ∀ k ∈ o.keys, store.isHashable k = true
  distinct : ∀ i o, store.get? i = some o →
    o.keys.Pairwise fun a b => store.sameKey a b = false

/-- Whether a store is well keyed is found out object by object. -/
theorem wellKeyed_iff :
    store.WellKeyed ↔ ∀ o ∈ store.objects.toList,
      (∀ v ∈ o.values, v.Below [] store.size) ∧
        (∀ k ∈ o.keys, store.isHashable k = true) ∧
          o.keys.Pairwise fun a b => store.sameKey a b = false := by
  constructor
  · intro h o ho
    obtain ⟨i, hi⟩ := List.mem_iff_getElem?.1 ho
    have hget : store.get? i = some o := by
      rw [get?, ← Array.getElem?_toList]
      exact hi
    exact ⟨h.closed i o hget, h.hashable i o hget, h.distinct i o hget⟩
  · intro h
    have hmem {i : ObjectId} {o : Object} (ho : store.get? i = some o) :
        o ∈ store.objects.toList :=
      Array.mem_toList_iff.2 (Array.mem_of_getElem? ho)
    exact ⟨fun i o ho => (h o (hmem ho)).1,
      fun i o ho => (h o (hmem ho)).2.1, fun i o ho => (h o (hmem ho)).2.2⟩

instance (store : Store) : Decidable store.WellKeyed :=
  decidable_of_iff _ wellKeyed_iff.symm

/-- Values that are the keys of one table, or the members of one set: they
can be keys, and no two of them count as one. -/
structure Keys (store : Store) (ks : List Value) : Prop where
  keyable : ∀ k ∈ ks, store.Keyable k
  distinct : ks.Pairwise fun a b => store.sameKey a b = false

theorem WellKeyed.keys (h : store.WellKeyed) {v : Value} {o : Object}
    (ho : store.object? v = some o) : store.Keys o.keys := by
  obtain ⟨i, -, hget⟩ := object?_eq_some.1 ho
  exact ⟨fun k hk => ⟨h.closed i o hget k (Object.mem_values_of_mem_keys hk),
    h.hashable i o hget k hk⟩, h.distinct i o hget⟩

/-- What has partners among as many, under keys that count as one, is
partnered from the other side as well. -/
theorem covers_of_keys (hclosed : store.Closed []) {α : Type}
    {k : α → Value} {xs ys : List α} {R : α → α → Prop}
    (hx : store.Keys (xs.map k)) (hy : store.Keys (ys.map k))
    (hlen : xs.length = ys.length)
    (hkey : ∀ x y, R x y → store.sameKey (k x) (k y) = true)
    (hall : ∀ x ∈ xs, ∃ y ∈ ys, R x y) : ∀ y ∈ ys, ∃ x ∈ xs, R x y := by
  refine covers_of_covered (Nat.le_of_eq hlen.symm) ?_ hall
  refine (List.pairwise_map.1 hx.distinct).imp_of_mem
    fun {x x'} hxs hxs' hne y hys hxy hxy' => ?_
  have hone := sameKey_trans hclosed
    (hx.keyable _ (List.mem_map_of_mem hxs))
    (hy.keyable _ (List.mem_map_of_mem hys))
    (hx.keyable _ (List.mem_map_of_mem hxs'))
    (hkey x y hxy) (sameKey_symm (hkey x' y hxy'))
  rw [hne] at hone
  cases hone

end Store
end Stencil
