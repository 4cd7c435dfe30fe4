/-
Stores that were built from the inside out.

An object is made after the objects it refers to, so it refers to lower
places only. Such a store holds no circle, and facts about what lists hold
follow by induction on the place of the object. Less than that is asked for
most of the time: that objects refer only to what is there (`Closed`).

Some objects may be set apart as roots: no object refers to them, so they
are not met inside of others. With no roots this asks for nothing.
-/
import Stencil.Access
import Stencil.Proofs.Datum.Relocation

namespace Stencil

-- ============================================================ referring

/-- A value refers to no object from a place on, and to no root. -/
def Value.Below (roots : List ObjectId) (n : Nat) (v : Value) : Prop :=
  ∀ i, v = .object i → i < n ∧ i ∉ roots

theorem Value.Below.mono {roots : List ObjectId} {m n : Nat} {v : Value}
    (h : v.Below roots m) (hmn : m ≤ n) : v.Below roots n :=
  fun i hi => ⟨Nat.lt_of_lt_of_le (h i hi).1 hmn, (h i hi).2⟩

theorem Value.below_object {roots : List ObjectId} {i n : Nat} :
    (Value.object i).Below roots n ↔ i < n ∧ i ∉ roots :=
  ⟨fun h => h i rfl, fun h j hj => by cases hj; exact h⟩

instance (roots : List ObjectId) (n : Nat) (v : Value) :
    Decidable (v.Below roots n) :=
  match v with
  | .object _ => decidable_of_iff _ Value.below_object.symm
  | .nil | .bool _ | .int _ | .float _ | .text _ | .bytes _ | .range _ _
  | .probe _ => .isTrue fun _ h => by cases h

/-- Scalars refer to nothing. -/
theorem Value.IsScalar.below {v : Value} (h : v.IsScalar)
    (roots : List ObjectId) (n : Nat) : v.Below roots n :=
  fun i hi => absurd hi (h i)

/-- The values that a member of a drop answers with. -/
def Member.values : Member → List Value
  | .method v | .property v | .data v => [v]
  | .reader _ | .itself => []

/-- The values that a deferred value yields. -/
def Deed.values : Deed → List Value
  | .yield v => [v]
  | .read _ | .fail _ => []

namespace Object

/-- The keys and values of entries. -/
def entryValues (entries : List (Value × Value)) : List Value :=
  entries.flatMap fun e => [e.1, e.2]

/-- All values that an object refers to. -/
def values : Object → List Value
  | .list items | .tuple items | .set items => items
  | .table entries | .frozen entries => entryValues entries
  | .host v => [v]
  | .handle _ | .quoted _ => []
  | .drop d => d.members.flatMap fun m => m.2.values
  | .deferred d => d.deed.values

/-- The values that an object holds in slots, whence they can be taken one
by one. -/
def slots : Object → List Value
  | .list items => items
  | .table entries | .frozen entries => entryValues entries
  | _ => []

theorem mem_values_of_mem_slots {o : Object} {v : Value}
    (h : v ∈ o.slots) : v ∈ o.values := by
  cases o with
  | list | table | frozen => exact h
  | _ => cases h

theorem mem_entryValues {entries : List (Value × Value)}
    {e : Value × Value} (h : e ∈ entries) :
    e.1 ∈ entryValues entries ∧ e.2 ∈ entryValues entries := by
  constructor
  · exact List.mem_flatMap.2 ⟨e, h, List.mem_cons_self ..⟩
  · exact List.mem_flatMap.2
      ⟨e, h, List.mem_cons_of_mem _ (List.mem_cons_self ..)⟩

end Object

namespace Store

-- ============================================================ grounded

/-- A value refers to an object that is there and no root, or to none. -/
def Has (store : Store) (roots : List ObjectId) (v : Value) : Prop :=
  v.Below roots store.size

/-- Every object refers only to objects made before it, and to no root. -/
def Grounded (store : Store) (roots : List ObjectId) : Prop :=
  ∀ i o, store.get? i = some o → ∀ v ∈ o.values, v.Below roots i

/-- Every object refers only to objects that are there, and to no root. -/
def Closed (store : Store) (roots : List ObjectId) : Prop :=
  ∀ i o, store.get? i = some o → ∀ v ∈ o.values, store.Has roots v

variable {store : Store} {roots : List ObjectId}

theorem lt_size_of_get? {i : ObjectId} {o : Object}
    (h : store.get? i = some o) : i < store.size := by
  obtain ⟨hlt, -⟩ := Array.getElem?_eq_some_iff.1 h
  exact hlt

theorem exists_get? {i : ObjectId} (h : i < store.size) :
    ∃ o, store.get? i = some o :=
  ⟨_, Array.getElem?_eq_getElem h⟩

/-- What an object refers to is there. -/
theorem Grounded.has (hs : store.Grounded roots) {i : ObjectId} {o : Object}
    (h : store.get? i = some o) {v : Value} (hv : v ∈ o.values) :
    store.Has roots v :=
  (hs i o h v hv).mono (Nat.le_of_lt (lt_size_of_get? h))

theorem object?_eq_some {v : Value} {o : Object} :
    store.object? v = some o ↔ ∃ i, v = .object i ∧ store.get? i = some o := by
  constructor
  · intro h
    cases v with
    | object i => exact ⟨i, rfl, h⟩
    | _ => cases h
  · rintro ⟨i, rfl, h⟩
    exact h

theorem deferred?_eq_some {v : Value} {d : Deferred} :
    store.deferred? v = some d ↔
      ∃ i, v = .object i ∧ store.get? i = some (.deferred d) := by
  rw [deferred?, ← object?_eq_some]
  constructor
  · intro h
    split at h
    · next ho =>
      cases h
      exact ho
    · cases h
  · intro h
    rw [h]

theorem drop?_eq_some {v : Value} {d : Drop} :
    store.drop? v = some d ↔ store.object? v = some (.drop d) := by
  unfold drop?
  constructor
  · intro h
    split at h
    · next ho =>
      cases h
      exact ho
    · cases h
  · intro h
    rw [h]

theorem Grounded.closed (hs : store.Grounded roots) : store.Closed roots :=
  fun _ _ ho _ hv => hs.has ho hv

theorem Closed.has_of_object? (hs : store.Closed roots) {v x : Value}
    {o : Object} (ho : store.object? v = some o) (hx : x ∈ o.values) :
    store.Has roots x := by
  obtain ⟨i, rfl, ho⟩ := object?_eq_some.1 ho
  exact hs i o ho x hx

/-- Which objects are roots does not matter for the order of places. -/
theorem Grounded.unrooted (hs : store.Grounded roots) :
    store.Grounded [] :=
  fun i o ho v hv j hj => ⟨(hs i o ho v hv j hj).1, List.not_mem_nil⟩

-- =========================================================== unfolding

theorem unfold_of_scalar {v : Value} (h : v.IsScalar)
    (depth : Nat) (above : List ObjectId) :
    store.unfold depth above v = .atom v := by
  cases depth with
  | zero => rfl
  | succ depth =>
    cases v with
    | object id => exact absurd rfl (h id)
    | _ => rfl

theorem datum_of_scalar {v : Value} (h : v.IsScalar) :
    store.datum v = .atom v :=
  unfold_of_scalar h _ _

theorem print_of_scalar {v : Value} (h : v.IsScalar) :
    store.print v = written v.isWritable v.print := by
  rw [print, isWritable, datum_of_scalar h, Datum.isWritable, Datum.print]

-- =============================================================== parts

/-- The entries of a value are slots of its object. -/
theorem slots_of_mem_entries {v : Value} {e : Value × Value}
    (he : e ∈ store.entries v) :
    ∃ i o, v = .object i ∧ store.get? i = some o ∧
      e.1 ∈ o.slots ∧ e.2 ∈ o.slots := by
  unfold entries at he
  split at he
  · next ho =>
    obtain ⟨i, hi, ho⟩ := object?_eq_some.1 ho
    exact ⟨i, _, hi, ho, Object.mem_entryValues he⟩
  · next ho =>
    obtain ⟨i, hi, ho⟩ := object?_eq_some.1 ho
    exact ⟨i, _, hi, ho, Object.mem_entryValues he⟩
  · cases he

/-- The entries of a value refer to what is there. -/
theorem Closed.entries_has (hs : store.Closed roots) {v : Value}
    {e : Value × Value} (he : e ∈ store.entries v) :
    store.Has roots e.1 ∧ store.Has roots e.2 := by
  obtain ⟨i, o, -, ho, hk, hx⟩ := slots_of_mem_entries he
  exact ⟨hs i o ho _ (Object.mem_values_of_mem_slots hk),
    hs i o ho _ (Object.mem_values_of_mem_slots hx)⟩

/-- The items of a value refer to what is there. -/
theorem Closed.items_has (hs : store.Closed roots) {v x : Value}
    (hx : x ∈ store.items v) : store.Has roots x := by
  unfold items at hx
  split at hx
  · next ho => exact hs.has_of_object? ho hx
  · next ho => exact hs.has_of_object? ho hx
  · cases hx

/-- The item at an index of anything but a range. -/
theorem item_eq {v : Value} (hv : ∀ first stop, v ≠ .range first stop)
    (index : Int) :
    store.item v index =
      ((position? (store.items v).length index).bind
        fun i => (store.items v)[i]?).getD .nil := by
  cases hp : position? (store.items v).length index with
  | none =>
    cases v with
    | range first stop => exact absurd rfl (hv first stop)
    | _ =>
      simp only [item, hp]
      rfl
  | some i =>
    cases v with
    | range first stop => exact absurd rfl (hv first stop)
    | _ =>
      simp only [item, hp]
      rfl

/-- An item of a value is one of its items or a scalar. -/
theorem item_cases (store : Store) (v : Value) (index : Int) :
    store.item v index ∈ store.items v ∨
      (store.item v index).IsScalar := by
  by_cases hrange : ∃ first stop, v = .range first stop
  · obtain ⟨first, stop, rfl⟩ := hrange
    right
    intro i
    simp only [item]
    split
    · exact fun h => by cases h
    · exact fun h => by cases h
  · rw [item_eq fun first stop heq => hrange ⟨first, stop, heq⟩]
    cases position? (store.items v).length index with
    | none => exact Or.inr fun i h => by cases h
    | some k =>
      rw [Option.bind_some]
      cases hk : (store.items v)[k]? with
      | none => exact Or.inr fun i h => by cases h
      | some x => exact Or.inl (List.mem_of_getElem? hk)

theorem Closed.item_has (hs : store.Closed roots) (v : Value)
    (index : Int) : store.Has roots (store.item v index) := by
  rcases store.item_cases v index with h | h
  · exact hs.items_has h
  · exact h.below _ _

/-- A part of a value under a key is one of its values or items, or a
scalar. -/
theorem fetch_cases {v key x : Value} (h : store.fetch v key = .ok x) :
    (∃ e ∈ store.entries v, x = e.2) ∨ x ∈ store.items v ∨
      x.IsScalar := by
  unfold fetch at h
  split at h
  · split at h
    · cases h
      cases hentry : store.entry? (store.entries v) key with
      | none => exact Or.inr (Or.inr fun i h => by cases h)
      | some x =>
        obtain ⟨e, he, rfl⟩ := Option.map_eq_some_iff.1 hentry
        exact Or.inl ⟨e, List.mem_of_find?_eq_some he, rfl⟩
    · cases h
  · split at h
    · cases h
      exact Or.inr (store.item_cases v _)
    · cases h
  · cases h

theorem Closed.fetch_has (hs : store.Closed roots) {v key x : Value}
    (h : store.fetch v key = .ok x) : store.Has roots x := by
  rcases fetch_cases h with ⟨e, he, rfl⟩ | h | h
  · exact (hs.entries_has he).2
  · exact hs.items_has h
  · exact h.below _ _

section

variable {store' : Store} {i : ObjectId} {es : List (Value × Value)}
  {v : Value}

theorem access_table (ho : store.object? v = some (.table es)) :
    store.access v = .table ∧ store.entries v = es := by
  obtain ⟨i, rfl, -⟩ := object?_eq_some.1 ho
  simp only [access, entries, ho, and_self]

theorem access_frozen (ho : store.object? v = some (.frozen es)) :
    store.access v = .table ∧ store.entries v = es := by
  obtain ⟨i, rfl, -⟩ := object?_eq_some.1 ho
  simp only [access, entries, ho, and_self]

/-- What is accessed by keys is a table, frozen or not. -/
theorem object?_of_access (h : store.access v = .table) :
    ∃ es, store.object? v = some (.table es) ∨
      store.object? v = some (.frozen es) := by
  unfold access at h
  split at h
  · cases h
  · cases h
  · cases h
  · split at h
    · cases h
    · next es ho => exact ⟨es, Or.inl ho⟩
    · next es ho => exact ⟨es, Or.inr ho⟩
    · cases h
    · cases h
    · cases h

/-- What is accessed by keys is no drop. -/
theorem drop?_of_access (h : store.access v = .table) :
    store.drop? v = none := by
  obtain ⟨es, ho | ho⟩ := object?_of_access h
  · rw [drop?, ho]
  · rw [drop?, ho]

/-- Only drops are accessed as such. -/
theorem exists_drop?_of_access (h : store.access v = .drop) :
    ∃ d, store.drop? v = some d := by
  unfold access at h
  split at h
  · cases h
  · cases h
  · cases h
  · split at h
    · next d ho => exact ⟨d, drop?_eq_some.2 ho⟩
    · cases h
    · cases h
    · cases h
    · cases h
    · cases h

/-- How a value is accessed is a matter of the object it refers to. -/
theorem access_congr (h : store'.object? v = store.object? v) :
    store'.access v = store.access v := by
  cases v with
  | object i => simp only [access, h]
  | _ => rfl

theorem entries_congr (h : store'.object? v = store.object? v) :
    store'.entries v = store.entries v := by
  rw [entries, entries, h]

theorem hasKey_table (hget : store.get? i = some (.table es)) (key : Value) :
    store.hasKey (.object i) key =
      (store.isHashable key && (store.entry? es key).isSome) := by
  have ho : store.object? (.object i) = some (.table es) := hget
  simp only [hasKey, access, entries, ho]

theorem fetch_table (hget : store.get? i = some (.table es)) {key x : Value}
    (hhas : store.hasKey (.object i) key = true)
    (hx : store.entry? es key = some x) :
    store.fetch (.object i) key = .ok x := by
  have ho : store.object? (.object i) = some (.table es) := hget
  rw [hasKey_table hget, Bool.and_eq_true] at hhas
  simp only [fetch, access, entries, ho, hhas.1, hx, if_true,
    Option.getD_some]

end

-- ====================================================== changed stores

theorem get?_put {i : ObjectId} (o : Object) (hi : i < store.size)
    (j : ObjectId) :
    (store.put i o).get? j = if j = i then some o else store.get? j := by
  by_cases hj : j = i
  · subst hj
    rw [if_pos rfl]
    exact Array.getElem?_setIfInBounds_self_of_lt hi
  · rw [if_neg hj]
    exact get?_put_of_ne o (Ne.symm hj)

theorem get?_alloc (o : Object) (i : ObjectId) :
    (store.alloc o).2.get? i =
      if i = store.size then some o else store.get? i := by
  show (store.objects.push o)[i]? = _
  rw [Array.getElem?_push]
  rfl

theorem size_alloc (o : Object) :
    (store.alloc o).2.size = store.size + 1 := by
  simp [alloc, size]

/-- A new object may refer to whatever is there, and stays within the
store. -/
theorem Closed.alloc (hs : store.Closed roots) {o : Object}
    (ho : ∀ v ∈ o.values, store.Has roots v) :
    (store.alloc o).2.Closed roots := by
  intro i p hp v hv
  have hle : store.size ≤ (store.alloc o).2.size := by
    rw [size_alloc]
    exact Nat.le_succ _
  rw [get?_alloc] at hp
  split at hp
  · cases hp
    exact (ho v hv).mono hle
  · exact (hs i p hp v hv).mono hle

/-- A new object may refer to whatever is there. -/
theorem Grounded.alloc (hs : store.Grounded roots) {o : Object}
    (ho : ∀ v ∈ o.values, store.Has roots v) :
    (store.alloc o).2.Grounded roots := by
  intro i o' ho'
  rw [get?_alloc] at ho'
  split at ho'
  · next hi =>
    cases ho'
    exact hi ▸ ho
  · exact hs i o' ho'

end Store
end Stencil
