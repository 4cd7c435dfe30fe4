/-
Stores with the deferred values replaced by what they yield.

Data are lists and tables, frozen or not, in which some parts are deferred
values that each yield one value, no matter when they are called. Settling
a store puts that value in place of every such part. The objects stay where
they are and what they are, lists as long as they were and tables with
their keys, so values mean the same objects in both stores: what is settled
is what they hold. As the values that are yielded are data themselves,
settling goes all the way down (`deferred?_of_mem_parts`).

What a scalar key has in a settled store is what it has in the store,
settled (`fetch_settled`). And a slot that is filled with what its deferred
value yields makes no difference to the settled store (`IsData.refill`).
-/
import Stencil.Proofs.Evaluation.Remembering
import Stencil.Proofs.Store.Layers

namespace Stencil

-- =============================================================== parts

namespace Object

/-- The items of a list and the values of a table, frozen or not. -/
def parts : Object → List Value
  | .list items | .tuple items => items
  | .table entries | .frozen entries => entries.map Prod.snd
  | _ => []

/-- An object with all its parts changed. -/
def mapParts (f : Value → Value) : Object → Object
  | .list items => .list (items.map f)
  | .tuple items => .tuple (items.map f)
  | .table entries => .table (entries.map fun e => (e.1, f e.2))
  | .frozen entries => .frozen (entries.map fun e => (e.1, f e.2))
  | o => o

variable {f : Value → Value} {o : Object}

theorem parts_mapParts : (o.mapParts f).parts = o.parts.map f := by
  cases o with
  | table | frozen => simp [mapParts, parts]
  | _ => rfl

/-- Nothing changes but parts. -/
theorem mapParts_eq_deferred {d : Deferred} :
    o.mapParts f = .deferred d ↔ o = .deferred d := by
  cases o <;> simp [mapParts]

/-- A slot can be filled with what is changed alike. -/
theorem mapParts_refill {k : Nat} {x y : Value} (hx : o.slot? k = some x)
    (hxy : f y = f x) : (o.refill k y).mapParts f = o.mapParts f := by
  cases o with
  | list items =>
    refine congrArg Object.list (List.ext_getElem? fun j => ?_)
    have hx : items[k]? = some x := hx
    rw [List.getElem?_map, List.getElem?_map, List.getElem?_set]
    split
    · next hj =>
      subst hj
      rw [hx, if_pos (List.getElem?_eq_some_iff.1 hx).1]
      exact congrArg some hxy
    · rfl
  | table entries =>
    refine congrArg Object.table (List.ext_getElem? fun j => ?_)
    obtain ⟨e, he, hx⟩ := Option.map_eq_some_iff.1 hx
    rw [List.getElem?_map, List.getElem?_map, List.getElem?_modify]
    split
    · next hj =>
      subst hj
      rw [he]
      exact congrArg (fun z => some (e.1, z)) (hxy.trans (congrArg f hx.symm))
    · simp
  | _ => cases hx

end Object

namespace Store

variable {store : Store}

-- ============================================================== settling

/-- What a part of the data is once it is forced: what a deferred value
yields, and any other value itself. -/
def settle (store : Store) (v : Value) : Value :=
  match (store.deferred? v).map Deferred.deed with
  | some (.yield x) => x
  | _ => v

/-- A store with all parts settled. -/
def settled (store : Store) : Store :=
  ⟨store.objects.map (Object.mapParts store.settle)⟩

/-- An object of the data: a list or a table, frozen or not, or a deferred
value that yields a value that is not deferred. -/
def IsDatum (store : Store) : Object → Prop
  | .list _ | .tuple _ | .table _ | .frozen _ => True
  | .deferred d => ∃ x, d.deed = .yield x ∧ store.deferred? x = none
  | _ => False

/-- All objects are data. -/
def IsData (store : Store) : Prop :=
  ∀ i o, store.get? i = some o → store.IsDatum o

/-- Whether an object is one of the data is found out from what it
yields. -/
instance (store : Store) : DecidablePred store.IsDatum
  | .list _ | .tuple _ | .table _ | .frozen _ => .isTrue trivial
  | .deferred ⟨_, _, .yield x⟩ =>
    decidable_of_iff (store.deferred? x = none)
      ⟨fun h => ⟨x, rfl, h⟩, fun ⟨_, hx, h⟩ => Deed.yield.inj hx ▸ h⟩
  | .deferred ⟨_, _, .read _⟩ | .deferred ⟨_, _, .fail _⟩ =>
    .isFalse fun ⟨_, hx, _⟩ => nomatch hx
  | .set _ | .host _ | .handle _ | .drop _ | .quoted _ => .isFalse id

/-- Whether all objects are data is found out object by object. -/
theorem isData_iff :
    store.IsData ↔ ∀ o ∈ store.objects.toList, store.IsDatum o := by
  constructor
  · intro h o ho
    obtain ⟨i, hi⟩ := List.mem_iff_getElem?.1 ho
    rw [Array.getElem?_toList] at hi
    exact h i o hi
  · intro h i o ho
    exact h o (Array.mem_toList_iff.2 (Array.mem_of_getElem? ho))

instance (store : Store) : Decidable store.IsData :=
  decidable_of_iff _ isData_iff.symm

theorem settle_of_none {v : Value} (h : store.deferred? v = none) :
    store.settle v = v := by
  rw [settle, h]
  rfl

theorem settle_of_yield {v x : Value} {d : Deferred}
    (h : store.deferred? v = some d) (hd : d.deed = .yield x) :
    store.settle v = x := by
  rw [settle, h, Option.map_some, hd]

theorem get?_settled (i : ObjectId) :
    store.settled.get? i =
      (store.get? i).map (Object.mapParts store.settle) := by
  rw [get?, settled, Array.getElem?_map]
  rfl

theorem object?_settled (v : Value) :
    store.settled.object? v =
      (store.object? v).map (Object.mapParts store.settle) := by
  cases v with
  | object i => exact get?_settled i
  | _ => rfl

/-- What is deferred stays what it is, where it was. -/
theorem deferred?_settled (v : Value) :
    store.settled.deferred? v = store.deferred? v := by
  rw [deferred?, deferred?, object?_settled]
  cases store.object? v with
  | none => rfl
  | some o => cases o <;> rfl

/-- What a deferred value of the data yields. -/
theorem IsData.exists_yield (h : store.IsData) {v : Value} {d : Deferred}
    (hd : store.deferred? v = some d) :
    ∃ x, d.deed = .yield x ∧ store.deferred? x = none := by
  obtain ⟨i, rfl, hi⟩ := deferred?_eq_some.1 hd
  exact h i _ hi

/-- What is settled is not deferred. -/
theorem IsData.deferred?_settle (h : store.IsData) (v : Value) :
    store.deferred? (store.settle v) = none := by
  cases hd : store.deferred? v with
  | none => rw [settle_of_none hd, hd]
  | some d =>
    obtain ⟨x, hdeed, hx⟩ := h.exists_yield hd
    rw [settle_of_yield hd hdeed, hx]

/-- In a settled store no part of any object is deferred. -/
theorem IsData.deferred?_of_mem_parts (h : store.IsData) {i : ObjectId}
    {o : Object} (ho : store.settled.get? i = some o) :
    ∀ x ∈ o.parts, store.settled.deferred? x = none := by
  intro x hx
  rw [get?_settled] at ho
  obtain ⟨o, -, rfl⟩ := Option.map_eq_some_iff.1 ho
  rw [Object.parts_mapParts] at hx
  obtain ⟨y, -, rfl⟩ := List.mem_map.1 hx
  rw [deferred?_settled, h.deferred?_settle]

/-- Settled data are data. -/
theorem IsData.settled (h : store.IsData) : store.settled.IsData := by
  intro i o ho
  rw [get?_settled] at ho
  obtain ⟨o', ho', rfl⟩ := Option.map_eq_some_iff.1 ho
  have hdatum := h i o' ho'
  cases o' with
  | deferred d =>
    obtain ⟨x, hx, hnone⟩ := hdatum
    exact ⟨x, hx, (deferred?_settled x).trans hnone⟩
  | list | tuple | table | frozen => trivial
  | _ => exact hdatum.elim

/-- No data are drops, nor do they stand for others. -/
theorem IsData.object?_cases (h : store.IsData) {v : Value} {o : Object}
    (ho : store.object? v = some o) :
    (∀ d, o ≠ .drop d) ∧ ∀ x, o ≠ .host x := by
  obtain ⟨i, rfl, hi⟩ := object?_eq_some.1 ho
  have hdatum := h i o hi
  constructor
  · rintro d rfl
    exact hdatum
  · rintro x rfl
    exact hdatum

theorem IsData.drop?_eq_none (h : store.IsData) (v : Value) :
    store.drop? v = none := by
  rw [drop?]
  split
  · next d ho => exact absurd rfl ((h.object?_cases ho).1 d)
  · rfl

-- ================================================================ access

theorem access_settled (v : Value) :
    store.settled.access v = store.access v := by
  cases v with
  | object i =>
    simp only [access, object?_settled]
    cases store.object? (.object i) with
    | none => rfl
    | some o => cases o <;> rfl
  | _ => rfl

theorem entries_settled (v : Value) :
    store.settled.entries v =
      (store.entries v).map fun e => (e.1, store.settle e.2) := by
  rw [entries, entries, object?_settled]
  cases store.object? v with
  | none => rfl
  | some o => cases o <;> rfl

theorem items_settled (v : Value) :
    store.settled.items v = (store.items v).map store.settle := by
  rw [items, items, object?_settled]
  cases store.object? v with
  | none => rfl
  | some o => cases o <;> rfl

variable {key : Value}

theorem entry?_settled (hkey : key.IsScalar) (v : Value) :
    store.settled.entry? (store.settled.entries v) key =
      (store.entry? (store.entries v) key).map store.settle := by
  rw [Store.entry?, entry?, entries_settled, List.find?_map]
  have hsame : (fun e => store.settled.sameKey e.1 key) ∘
      (fun e => (e.1, store.settle e.2)) =
      fun e : Value × Value => store.sameKey e.1 key :=
    funext fun e => sameKey_scalar e.1 hkey
  rw [hsame, Option.map_map, Option.map_map]
  rfl

/-- Settling a store changes no keys. -/
theorem hasKey_settled (hkey : key.IsScalar) (v : Value) :
    store.settled.hasKey v key = store.hasKey v key := by
  rw [hasKey, hasKey, access_settled, entry?_settled hkey,
    isHashable_scalar hkey, isHashable_scalar hkey, Option.isSome_map]

theorem item_settled (v : Value) (index : Int) :
    store.settled.item v index = store.settle (store.item v index) := by
  by_cases hrange : ∃ first stop, v = .range first stop
  · obtain ⟨first, stop, rfl⟩ := hrange
    simp only [item]
    split <;> rfl
  · have hrange : ∀ first stop, v ≠ .range first stop :=
      fun first stop h => hrange ⟨first, stop, h⟩
    rw [item_eq hrange, item_eq hrange, items_settled, List.length_map]
    cases position? (store.items v).length index with
    | none => rfl
    | some k =>
      rw [Option.bind_some, Option.bind_some, List.getElem?_map]
      cases (store.items v)[k]? <;> rfl

/-- What a scalar key has in a settled store is what it has in the store,
settled. -/
theorem fetch_settled (hkey : key.IsScalar) (v : Value) :
    store.settled.fetch v key = (store.fetch v key).map store.settle := by
  rw [fetch, fetch, access_settled, isHashable_scalar hkey,
    isHashable_scalar hkey, entry?_settled hkey]
  cases store.access v with
  | table =>
    cases store.entry? (store.entries v) key <;> rfl
  | sequence =>
    cases index? key with
    | none => rfl
    | some i => exact congrArg Except.ok (item_settled v i)
  | _ =>
    rw [datum_of_scalar hkey, datum_of_scalar hkey]
    rfl

-- ================================================================ slots

/-- Where an object is put in the place of one that is the same when
settled, the same values are deferred. -/
theorem deferred?_put {id : ObjectId} {o o' : Object}
    (hid : store.get? id = some o)
    (hparts : o'.mapParts store.settle = o.mapParts store.settle)
    (v : Value) : (store.put id o').deferred? v = store.deferred? v := by
  refine Option.ext fun d => ?_
  rw [deferred?_eq_some, deferred?_eq_some]
  refine exists_congr fun i => and_congr_right fun _ => ?_
  rw [get?_put _ (lt_size_of_get? hid)]
  split
  · next hi =>
    rw [hi, hid, Option.some_inj, Option.some_inj,
      ← Object.mapParts_eq_deferred (f := store.settle), hparts,
      Object.mapParts_eq_deferred]
  · rfl

/-- A slot of the data can be filled with what is settled alike: the store
that is settled is the same. -/
theorem IsData.refill (h : store.IsData) {id : ObjectId} {o : Object}
    (hid : store.get? id = some o) {k : Nat} {x y : Value}
    (hx : o.slot? k = some x) (hxy : store.settle y = store.settle x) :
    (store.put id (o.refill k y)).IsData ∧
      (store.put id (o.refill k y)).settled = store.settled := by
  have hparts := Object.mapParts_refill hx hxy
  have hdeferred := deferred?_put hid hparts
  have hsettle : (store.put id (o.refill k y)).settle = store.settle := by
    funext v
    rw [settle, settle, hdeferred]
  have hlt := lt_size_of_get? hid
  constructor
  · intro i p hp
    rw [get?_put _ hlt] at hp
    split at hp
    · cases hp
      cases o with
      | list | table => trivial
      | _ => cases hx
    · have hdatum := h i p hp
      cases p with
      | deferred d =>
        obtain ⟨z, hz, hnone⟩ := hdatum
        exact ⟨z, hz, (hdeferred z).trans hnone⟩
      | list | tuple | table | frozen => trivial
      | _ => exact hdatum.elim
  · refine congrArg Store.mk (Array.ext_getElem? fun i => ?_)
    have hget := store.get?_put (o.refill k y) hlt i
    rw [Array.getElem?_map, Array.getElem?_map, hsettle]
    change ((store.put id (o.refill k y)).get? i).map _ =
      (store.get? i).map _
    rw [hget]
    split
    · next hi =>
      rw [hi, hid, Option.map_some, Option.map_some, hparts]
    · rfl

end Store
end Stencil
