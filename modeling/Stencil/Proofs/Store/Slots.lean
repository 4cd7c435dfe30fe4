/-
Slots that are filled again.

Only lists and tables change, and only in the slots they have. What is left
of an object without the values in its slots is its hull: the length of a
list, the keys of a table in their order, and the whole of anything else.
One object is another one refilled if both have the same hull and what
their slots hold is related, slot by slot. A store is refilled object by
object, and it may get new objects.

Where a list or table gets other contents altogether it is rewritten, which
is less than being refilled; what is neither is then as it was all the same.
-/
import Mathlib.Data.List.Forall2
import Stencil.Proofs.Store.Grounded

namespace Stencil

-- =============================================================== slots

namespace Object

/-- An object without the values in its slots. -/
def hull : Object → Object
  | .list items => .list (items.map fun _ => .nil)
  | .table entries => .table (entries.map fun e => (e.1, .nil))
  | o => o

/-- The value in a slot. -/
def slot? : Object → Nat → Option Value
  | .list items, k => items[k]?
  | .table entries, k => entries[k]?.map Prod.snd
  | _, _ => none

/-- An object with another value in a slot. -/
def refill (o : Object) (k : Nat) (y : Value) : Object :=
  match o with
  | .list items => .list (items.set k y)
  | .table entries => .table (entries.modify k fun e => (e.1, y))
  | o => o

variable {o o' o'' : Object} {k : Nat} {x y : Value}

theorem hull_refill : (o.refill k y).hull = o.hull := by
  cases o with
  | list items =>
    refine congrArg Object.list (List.ext_getElem? fun j => ?_)
    simp only [List.getElem?_map, List.getElem?_set]
    split
    · next hj =>
      subst hj
      split
      · next hlt => simp [hlt]
      · next hlt => simp [List.getElem?_eq_none (Nat.le_of_not_lt hlt)]
    · rfl
  | table entries =>
    refine congrArg Object.table (List.ext_getElem? fun j => ?_)
    simp only [List.getElem?_map, List.getElem?_modify]
    cases entries[j]? with
    | none => rfl
    | some e =>
      simp only [Option.map_some]
      split
      · rfl
      · rfl
  | _ => rfl

/-- A refilled slot holds the new value, and all others hold what they
held. -/
theorem slot?_refill (j : Nat) :
    (o.refill k y).slot? j =
      if k = j then (o.slot? j).map fun _ => y else o.slot? j := by
  cases o with
  | list items =>
    simp only [refill, slot?, List.getElem?_set]
    split
    · next hj =>
      subst hj
      split
      · next hlt => rw [List.getElem?_eq_getElem hlt, Option.map_some]
      · next hlt =>
        rw [List.getElem?_eq_none (Nat.le_of_not_lt hlt), Option.map_none]
    · rfl
  | table entries =>
    simp only [refill, slot?, List.getElem?_modify]
    cases entries[j]? with
    | none => simp
    | some e =>
      simp only [Option.map_some]
      split
      · rfl
      · rfl
  | _ => simp [refill, slot?]

/-- What stands in a slot is a value of the object. -/
theorem mem_values_of_slot? (h : o.slot? k = some x) :
    x ∈ o.values := by
  cases o with
  | list items => exact List.mem_of_getElem? h
  | table entries =>
    obtain ⟨e, he, rfl⟩ := Option.map_eq_some_iff.1 h
    exact (mem_entryValues (List.mem_of_getElem? he)).2
  | _ => cases h

/-- Only lists and tables have slots. -/
theorem slot?_eq_none (hlist : ∀ xs, o ≠ .list xs)
    (htable : ∀ es, o ≠ .table es) (k : Nat) : o.slot? k = none := by
  cases o with
  | list xs => exact absurd rfl (hlist xs)
  | table es => exact absurd rfl (htable es)
  | _ => rfl

/-- What an object refers to stands in a slot or elsewhere. -/
theorem mem_values (h : x ∈ o.values) :
    x ∈ o.hull.values ∨ ∃ k, o.slot? k = some x := by
  cases o with
  | list items => exact Or.inr (List.mem_iff_getElem?.1 h)
  | table entries =>
    obtain ⟨e, he, hx⟩ := List.mem_flatMap.1 h
    rcases List.mem_cons.1 hx with rfl | hx
    · have hkey : (e.1, Value.nil) ∈ entries.map fun e => (e.1, .nil) :=
        List.mem_map_of_mem he
      exact Or.inl (mem_entryValues hkey).1
    · obtain rfl := List.mem_singleton.1 hx
      obtain ⟨k, hk⟩ := List.mem_iff_getElem?.1 he
      exact Or.inr ⟨k, by rw [slot?, hk]; rfl⟩
  | _ => exact Or.inl h

/-- Besides nil, an object refers to what its hull refers to. -/
theorem mem_values_of_hull (h : x ∈ o.hull.values) :
    x ∈ o.values ∨ x = .nil := by
  cases o with
  | list items =>
    obtain ⟨-, -, rfl⟩ := List.mem_map.1 h
    exact Or.inr rfl
  | table entries =>
    obtain ⟨e, he, hx⟩ := List.mem_flatMap.1 h
    obtain ⟨e', he', rfl⟩ := List.mem_map.1 he
    rcases List.mem_cons.1 hx with rfl | hx
    · exact Or.inl (mem_entryValues he').1
    · exact Or.inr (List.mem_singleton.1 hx)
  | _ => exact Or.inl h

/-- What is deferred is not made by filling a slot. -/
theorem deferred_of_refill {d : Deferred}
    (h : o.refill k y = .deferred d) : o = .deferred d := by
  cases o with
  | list | table => cases h
  | _ => exact h

/-- An entry of a refilled table is one of the table, with its value or the
new one. -/
theorem mem_refill_entries {es : List (Value × Value)} {e : Value × Value}
    (h : e ∈ es.modify k fun e => (e.1, y)) :
    ∃ e' ∈ es, e.1 = e'.1 ∧ (e.2 = e'.2 ∨ e.2 = y) := by
  obtain ⟨j, hj⟩ := List.mem_iff_getElem?.1 h
  rw [List.getElem?_modify, Option.map_eq_map,
    Option.map_eq_some_iff] at hj
  obtain ⟨e', he', heq⟩ := hj
  refine ⟨e', List.mem_of_getElem? he', ?_⟩
  split at heq
  · subst heq
    exact ⟨rfl, Or.inr rfl⟩
  · subst heq
    exact ⟨rfl, Or.inl rfl⟩

/-- A refilled object refers to what it referred to, and to the new
value. -/
theorem mem_values_refill {v : Value} (h : v ∈ (o.refill k y).values) :
    v ∈ o.values ∨ v = y := by
  cases o with
  | list items => exact List.mem_or_eq_of_mem_set h
  | table entries =>
    obtain ⟨e, he, hv⟩ := List.mem_flatMap.1 h
    obtain ⟨e', he', hkey, hvalue⟩ := mem_refill_entries he
    obtain ⟨hk, hx⟩ := mem_entryValues he'
    rcases List.mem_cons.1 hv with rfl | hv
    · exact Or.inl (hkey ▸ hk)
    · obtain rfl := List.mem_singleton.1 hv
      rcases hvalue with hvalue | hvalue
      · exact Or.inl (hvalue ▸ hx)
      · exact Or.inr hvalue
  | _ => exact Or.inl h

/-- Objects with one hull are of one kind: lists of one length, tables of
the same keys, or the same object. -/
theorem hull_eq (h : o'.hull = o.hull) :
    (∃ xs ys, o = .list xs ∧ o' = .list ys ∧ ys.length = xs.length) ∨
      (∃ es es', o = .table es ∧ o' = .table es' ∧
        es'.map Prod.fst = es.map Prod.fst) ∨ o' = o := by
  cases o with
  | list xs =>
    cases o' with
    | list ys =>
      have hlength := congrArg List.length (Object.list.inj h)
      simp only [List.length_map] at hlength
      exact Or.inl ⟨xs, ys, rfl, rfl, hlength⟩
    | _ => cases h
  | table es =>
    cases o' with
    | table es' =>
      have hkeys := congrArg (List.map Prod.fst) (Object.table.inj h)
      simp only [List.map_map] at hkeys
      exact Or.inr (Or.inl ⟨es, es', rfl, rfl, hkeys⟩)
    | _ => cases h
  | _ =>
    cases o' with
    | list | table => cases h
    | _ => exact Or.inr (Or.inr h)

/-- What has the hull of a table is a table of the same keys. -/
theorem exists_table {es : List (Value × Value)}
    (h : o'.hull = (Object.table es).hull) :
    ∃ es', o' = .table es' ∧ es'.map Prod.fst = es.map Prod.fst := by
  rcases hull_eq h with ⟨_, _, hxs, -⟩ | ⟨_, es', hes, rfl, hkeys⟩ | rfl
  · cases hxs
  · cases hes
    exact ⟨es', rfl, hkeys⟩
  · exact ⟨es, rfl, rfl⟩

-- ============================================================ refilled

/-- An object is another one but for its slots, which hold related
values. -/
structure Refilled (R : Value → Value → Prop) (o o' : Object) : Prop where
  hull : o'.hull = o.hull
  slots : ∀ k x, o.slot? k = some x → ∃ y, o'.slot? k = some y ∧ R x y

namespace Refilled

variable {R R' : Value → Value → Prop}

protected theorem refl (hR : ∀ x, R x x) : Refilled R o o :=
  ⟨rfl, fun _ x hx => ⟨x, hx, hR x⟩⟩

protected theorem trans (h : Refilled R o o') (h' : Refilled R o' o'')
    (hR : ∀ {x y z}, R x y → R y z → R x z) : Refilled R o o'' := by
  refine ⟨h'.hull.trans h.hull, fun k x hx => ?_⟩
  obtain ⟨y, hy, hxy⟩ := h.slots k x hx
  obtain ⟨z, hz, hyz⟩ := h'.slots k y hy
  exact ⟨z, hz, hR hxy hyz⟩

theorem mono (h : Refilled R o o') (hR : ∀ x y, R x y → R' x y) :
    Refilled R' o o' := by
  refine ⟨h.hull, fun k x hx => ?_⟩
  obtain ⟨y, hy, hxy⟩ := h.slots k x hx
  exact ⟨y, hy, hR x y hxy⟩

/-- Another value in a slot, if it is related to what the slot held at
first. -/
theorem refill (h : Refilled R o o') (hk : ∀ x, o.slot? k = some x → R x y) :
    Refilled R o (o'.refill k y) := by
  refine ⟨hull_refill.trans h.hull, fun j x hx => ?_⟩
  obtain ⟨z, hz, hxz⟩ := h.slots j x hx
  rw [slot?_refill, hz]
  split
  · next hj => exact ⟨y, rfl, hk x (hj ▸ hx)⟩
  · exact ⟨z, rfl, hxz⟩

/-- What has no slots is as it was. -/
theorem eq_of_slotless (h : Refilled R o o')
    (hlist : ∀ items, o ≠ .list items)
    (htable : ∀ entries, o ≠ .table entries) : o' = o := by
  rcases hull_eq h.hull with ⟨xs, -, rfl, -⟩ | ⟨es, -, rfl, -⟩ | heq
  · exact absurd rfl (hlist xs)
  · exact absurd rfl (htable es)
  · exact heq

/-- A table that is refilled keeps its keys in their order, each with a
related value. -/
theorem table {es : List (Value × Value)} (h : Refilled R (.table es) o') :
    ∃ es', o' = .table es' ∧
      List.Forall₂ (fun e e' => e'.1 = e.1 ∧ R e.2 e'.2) es es' := by
  obtain ⟨es', rfl, hkeys⟩ := exists_table h.hull
  refine ⟨es', rfl, List.forall₂_iff_get.2 ⟨?_, fun k hk hk' => ?_⟩⟩
  · have hlength := congrArg List.length hkeys
    simp only [List.length_map] at hlength
    exact hlength.symm
  · have hkey := congrArg (·[k]?) hkeys
    simp only [List.getElem?_map, List.getElem?_eq_getElem hk,
      List.getElem?_eq_getElem hk', Option.map_some,
      Option.some.injEq] at hkey
    obtain ⟨y, hy, hrel⟩ := h.slots k es[k].2
      (congrArg (Option.map Prod.snd) (List.getElem?_eq_getElem hk))
    simp only [Object.slot?, List.getElem?_eq_getElem hk', Option.map_some,
      Option.some.injEq] at hy
    exact ⟨hkey, hy ▸ hrel⟩

/-- What has kept the values in its slots is as it was. -/
theorem eq_of_kept (h : Refilled R o o')
    (hkept : ∀ x ∈ o.slots, ∀ y, R x y → y = x) : o' = o := by
  cases o with
  | list xs =>
    rcases hull_eq h.hull with ⟨_, ys, heq, rfl, hlength⟩ | ⟨_, _, heq, -⟩ |
      heq
    · cases heq
      refine congrArg Object.list (List.ext_getElem hlength fun k hk hk' => ?_)
      obtain ⟨y, hy, hxy⟩ := h.slots k xs[k] (List.getElem?_eq_getElem hk')
      have hsame : ys[k] = y :=
        Option.some.inj ((List.getElem?_eq_getElem hk).symm.trans hy)
      exact hsame.trans (hkept _ (List.getElem_mem hk') y hxy)
    · cases heq
    · exact heq
  | table es =>
    obtain ⟨es', rfl, hentries⟩ := h.table
    have hboth := (List.forall₂_and_left es es').2
      ⟨fun e he => hkept e.2 (mem_entryValues he).2, hentries⟩
    have hsame : List.Forall₂ Eq es es' :=
      hboth.imp fun e e' he =>
        Prod.ext he.2.1.symm (he.1 e'.2 he.2.2).symm
    rw [List.forall₂_eq_eq_eq] at hsame
    rw [hsame]
  | _ =>
    exact h.eq_of_slotless (fun _ heq => by cases heq) fun _ heq => by
      cases heq

theorem shape? (h : Refilled R o o') : Store.shape? o' = Store.shape? o := by
  rcases hull_eq h.hull with ⟨xs, ys, rfl, rfl, -⟩ | ⟨es, es', rfl, rfl, -⟩ |
    rfl
  · rfl
  · rfl
  · rfl

end Refilled
end Object

-- ============================================================ rewriting

/-- A list or table may have been written anew. What is neither is as it
was. -/
structure Object.Rewritten (o o' : Object) : Prop where
  shape? : Store.shape? o' = Store.shape? o
  other : (∀ xs, o ≠ .list xs) → (∀ es, o ≠ .table es) → o' = o

/-- All objects of a store are in another one, at their places, and no more
than rewritten. -/
def Store.Rewritten (store store' : Store) : Prop :=
  ∀ i o, store.get? i = some o →
    ∃ o', store'.get? i = some o' ∧ o.Rewritten o'

namespace Object.Rewritten

variable {o o' o'' : Object}

protected theorem refl (o : Object) : o.Rewritten o := ⟨rfl, fun _ _ => rfl⟩

protected theorem trans (h : o.Rewritten o') (h' : o'.Rewritten o'') :
    o.Rewritten o'' := by
  refine ⟨h'.shape?.trans h.shape?, fun hlist htable => ?_⟩
  obtain rfl := h.other hlist htable
  exact h'.other hlist htable

/-- What is no list and no table now was none before. -/
theorem eq_other (h : o.Rewritten o') (hlist : ∀ xs, o' ≠ .list xs)
    (htable : ∀ es, o' ≠ .table es) : o' = o := by
  refine h.other ?_ ?_
  · rintro xs rfl
    cases o' with
    | list ys => exact hlist ys rfl
    | _ => cases h.shape?
  · rintro es rfl
    cases o' with
    | table es' => exact htable es' rfl
    | _ => cases h.shape?

end Object.Rewritten

theorem Object.Refilled.rewritten {R : Value → Value → Prop} {o o' : Object}
    (h : o.Refilled R o') : o.Rewritten o' :=
  ⟨h.shape?, h.eq_of_slotless⟩

namespace Store

namespace Rewritten

variable {store store' store'' : Store}

protected theorem refl (store : Store) : store.Rewritten store :=
  fun _ o ho => ⟨o, ho, .refl o⟩

protected theorem trans (h : store.Rewritten store')
    (h' : store'.Rewritten store'') : store.Rewritten store'' := by
  intro i o ho
  obtain ⟨o', ho', hfirst⟩ := h i o ho
  obtain ⟨o'', ho'', hsecond⟩ := h' i o' ho'
  exact ⟨o'', ho'', hfirst.trans hsecond⟩

/-- An object is put in the place of one that it may be rewritten from. -/
theorem put {id : ObjectId} {o o' : Object} (hid : store.get? id = some o)
    (ho : o.Rewritten o') : store.Rewritten (store.put id o') := by
  intro i p hp
  rw [get?_put _ (lt_size_of_get? hid)]
  split
  · next hi =>
    subst hi
    obtain rfl := Option.some.inj (hid.symm.trans hp)
    exact ⟨o', rfl, ho⟩
  · exact ⟨p, hp, .refl p⟩

/-- No object is lost. -/
theorem size_le (h : store.Rewritten store') : store.size ≤ store'.size := by
  refine Nat.le_of_not_lt fun hlt => ?_
  obtain ⟨o, ho⟩ := exists_get? hlt
  obtain ⟨o', ho', -⟩ := h _ o ho
  exact Nat.lt_irrefl _ (lt_size_of_get? ho')

theorem has (h : store.Rewritten store') {roots : List ObjectId}
    {v : Value} (hv : store.Has roots v) : store'.Has roots v :=
  hv.mono h.size_le

/-- A value that is there refers to the same object, or to a list or table
as before. -/
theorem object?_cases (h : store.Rewritten store') {v : Value}
    (hv : store.Has [] v) :
    store'.object? v = store.object? v ∨
      (∃ xs ys, store.object? v = some (.list xs) ∧
        store'.object? v = some (.list ys)) ∨
      ∃ es es', store.object? v = some (.table es) ∧
        store'.object? v = some (.table es') := by
  rcases v.scalar_or_object with hscalar | ⟨i, rfl⟩
  · cases v with
    | object i => exact absurd rfl (hscalar i)
    | _ => exact Or.inl rfl
  · obtain ⟨o, ho⟩ := exists_get? (hv i rfl).1
    obtain ⟨o', ho', hrewritten⟩ := h i o ho
    have hshape := hrewritten.shape?
    cases o with
    | list xs =>
      cases o' with
      | list ys => exact Or.inr (Or.inl ⟨xs, ys, ho, ho'⟩)
      | _ => cases hshape
    | table es =>
      cases o' with
      | table es' => exact Or.inr (Or.inr ⟨es, es', ho, ho'⟩)
      | _ => cases hshape
    | _ =>
      obtain rfl := hrewritten.other (fun _ heq => by cases heq)
        fun _ heq => by cases heq
      exact Or.inl (ho'.trans ho.symm)

/-- What is no list and no table stays what it is. -/
theorem object?_other (h : store.Rewritten store') {v : Value} {o : Object}
    (ho : store.object? v = some o) (hlist : ∀ xs, o ≠ .list xs)
    (htable : ∀ es, o ≠ .table es) : store'.object? v = some o := by
  obtain ⟨i, rfl, ho⟩ := object?_eq_some.1 ho
  obtain ⟨o', ho', hrewritten⟩ := h i o ho
  obtain rfl := hrewritten.other hlist htable
  exact ho'

/-- A value that is there, and is no list and no table, was so before. -/
theorem object?_of (h : store.Rewritten store') {v : Value}
    (hv : store.Has [] v) {o : Object} (ho : store'.object? v = some o)
    (hlist : ∀ xs, o ≠ .list xs) (htable : ∀ es, o ≠ .table es) :
    store.object? v = some o := by
  obtain ⟨i, rfl, hget⟩ := object?_eq_some.1 ho
  obtain ⟨p, hp⟩ := exists_get? (hv i rfl).1
  obtain ⟨p', hp', hrewritten⟩ := h i p hp
  obtain rfl : p' = o := Option.some.inj (hp'.symm.trans hget)
  obtain rfl := hrewritten.eq_other hlist htable
  exact hp

/-- A value that is there and deferred was so before. -/
theorem deferred?_of (h : store.Rewritten store') {v : Value}
    (hv : store.Has [] v) {d : Deferred}
    (hd : store'.deferred? v = some d) : store.deferred? v = some d := by
  obtain ⟨i, rfl, ho⟩ := deferred?_eq_some.1 hd
  exact deferred?_eq_some.2 ⟨i, rfl, h.object?_of (v := .object i) hv ho
    (fun _ heq => by cases heq) fun _ heq => by cases heq⟩

end Rewritten

/-- All objects of a store are in another one, at their places, as they
are. -/
def Grown (store store' : Store) : Prop :=
  ∀ i o, store.get? i = some o → store'.get? i = some o

namespace Grown

variable {store store' : Store}

protected theorem refl (store : Store) : store.Grown store := fun _ _ ho => ho

/-- A new object goes behind all others. -/
theorem alloc (h : store.Grown store') (o : Object) :
    store.Grown (store'.alloc o).2 := by
  intro i p hp
  have hp' := h i p hp
  rw [get?_alloc_old o (lt_size_of_get? hp')]
  exact hp'

theorem rewritten (h : store.Grown store') : store.Rewritten store' :=
  fun i o ho => ⟨o, h i o ho, .refl o⟩

/-- What a value that is there refers to stays the same. -/
theorem object?_eq (h : store.Grown store') {v : Value}
    (hv : store.Has [] v) : store'.object? v = store.object? v := by
  rcases v.scalar_or_object with hscalar | ⟨i, rfl⟩
  · cases v with
    | object i => exact absurd rfl (hscalar i)
    | _ => rfl
  · obtain ⟨o, ho⟩ := exists_get? (hv i rfl).1
    exact (h i o ho).trans ho.symm

end Grown

-- ============================================================== stores

/-- All objects of a store are in another one, at their places, with
related values in their slots. -/
def Refilled (R : Value → Value → Prop) (store store' : Store) : Prop :=
  ∀ i o, store.get? i = some o →
    ∃ o', store'.get? i = some o' ∧ o.Refilled R o'

namespace Refilled

variable {R R' : Value → Value → Prop} {store store' store'' : Store}

protected theorem refl (hR : ∀ x, R x x) : store.Refilled R store :=
  fun _ o ho => ⟨o, ho, .refl hR⟩

protected theorem trans (h : store.Refilled R store')
    (h' : store'.Refilled R store'')
    (hR : ∀ {x y z}, R x y → R y z → R x z) : store.Refilled R store'' := by
  intro i o ho
  obtain ⟨o', ho', hfirst⟩ := h i o ho
  obtain ⟨o'', ho'', hsecond⟩ := h' i o' ho'
  exact ⟨o'', ho'', hfirst.trans hsecond hR⟩

theorem mono (h : store.Refilled R store') (hR : ∀ x y, R x y → R' x y) :
    store.Refilled R' store' := by
  intro i o ho
  obtain ⟨o', ho', hrefilled⟩ := h i o ho
  exact ⟨o', ho', hrefilled.mono hR⟩

theorem rewritten (h : store.Refilled R store') : store.Rewritten store' := by
  intro i o ho
  obtain ⟨o', ho', hrefilled⟩ := h i o ho
  exact ⟨o', ho', hrefilled.rewritten⟩

/-- A new object goes behind all others. -/
theorem alloc (h : store.Refilled R store') (o : Object) :
    store.Refilled R (store'.alloc o).2 := by
  intro i p hp
  obtain ⟨p', hp', hrefilled⟩ := h i p hp
  exact ⟨p', (get?_alloc_old o (lt_size_of_get? hp')).trans hp', hrefilled⟩

/-- An object is refilled, if its slot was related to the new value at
first. -/
theorem refill (h : store.Refilled R store') {id : ObjectId} {o' : Object}
    (hid : store'.get? id = some o') {k : Nat} {y : Value}
    (hk : ∀ o x, store.get? id = some o → o.slot? k = some x → R x y) :
    store.Refilled R (store'.put id (o'.refill k y)) := by
  intro i o ho
  rw [get?_put _ (lt_size_of_get? hid)]
  obtain ⟨p, hp, hrefilled⟩ := h i o ho
  split
  · next hi =>
    subst hi
    obtain rfl : o' = p := Option.some.inj (hid.symm.trans hp)
    exact ⟨_, rfl, hrefilled.refill fun x => hk o x ho⟩
  · exact ⟨p, hp, hrefilled⟩

/-- A list stays a list of its length. -/
theorem object?_list (h : store.Refilled R store') {v : Value}
    {xs : List Value} (ho : store.object? v = some (.list xs)) :
    ∃ ys, store'.object? v = some (.list ys) ∧ ys.length = xs.length := by
  obtain ⟨i, rfl, ho⟩ := object?_eq_some.1 ho
  obtain ⟨o', ho', hrefilled⟩ := h i _ ho
  rcases Object.hull_eq hrefilled.hull with ⟨xs', ys, hxs, rfl, hlength⟩ |
    ⟨_, _, hes, -⟩ | rfl
  · cases hxs
    exact ⟨ys, ho', hlength⟩
  · cases hes
  · exact ⟨xs, ho', rfl⟩

/-- A table stays a table of its keys. -/
theorem object?_table (h : store.Refilled R store') {v : Value}
    {es : List (Value × Value)} (ho : store.object? v = some (.table es)) :
    ∃ es', store'.object? v = some (.table es') ∧
      es'.map Prod.fst = es.map Prod.fst := by
  obtain ⟨i, rfl, ho⟩ := object?_eq_some.1 ho
  obtain ⟨o', ho', hrefilled⟩ := h i _ ho
  obtain ⟨es', rfl, hkeys⟩ := Object.exists_table hrefilled.hull
  exact ⟨es', ho', hkeys⟩

theorem object?_other (h : store.Refilled R store') {v : Value} {o : Object}
    (ho : store.object? v = some o) (hlist : ∀ xs, o ≠ .list xs)
    (htable : ∀ es, o ≠ .table es) : store'.object? v = some o :=
  h.rewritten.object?_other ho hlist htable

end Refilled
end Store

end Stencil
