/-
Roots that are filled.

When a deferred value in a slot of a root is forced, the slot is filled
with what it yields. Two stores with the same objects at other places
stay so when the slot is filled in both, and also when it had been filled
in the second one before and is now filled in the first one: the relation
lets the second one be ahead (`RootSlot`).

For the same reason a store that has gone on is the store it came from
with its objects moved: those that were there stay where they are, and
those that are still to come are moved behind the ones that have come
since (`Later.moved`).
-/
import Stencil.Proofs.Store.Growth

namespace Stencil

section

variable {f : ObjectId → ObjectId} {g : ContextId → ContextId}
  {roots : List ObjectId} {built : Prop}

namespace Store

variable {store store' : Store}

-- ======================================================== filled roots

theorem put_eq_self {i : ObjectId} {o : Object}
    (ho : store.get? i = some o) : store.put i o = store := by
  refine congrArg Store.mk (Array.ext_getElem? fun j => ?_)
  have hj := get?_put o (lt_size_of_get? ho) j
  by_cases heq : j = i
  · rw [if_pos heq] at hj
    exact hj.trans (heq ▸ ho.symm)
  · rw [if_neg heq] at hj
    exact hj

section

variable {i : ObjectId} {es es₁ : List (Value × Value)}

theorem Grounded.put (hs : store.Grounded roots)
    (hget : store.get? i = some (.table es))
    (hes : List.Forall₂ (store.Slot id) es es₁) :
    (store.put i (.table es₁)).Grounded roots := by
  intro j o ho v hv
  rw [get?_put _ (lt_size_of_get? hget)] at ho
  split at ho
  · next hj =>
    cases ho
    subst hj
    obtain ⟨e₁, he₁, hv⟩ := List.mem_flatMap.1 hv
    obtain ⟨e, he, hkey, hfilled⟩ := mem_of_forall₂_slot hes he₁
    obtain ⟨hk, hx⟩ := Object.mem_entryValues he
    rcases List.mem_pair.1 hv with rfl | rfl
    · rw [hkey, Value.move_id]
      exact hs j _ hget _ hk
    · exact hs.below_filled (hs j _ hget _ hx) hfilled
  · exact hs j o ho v hv

/-- Entries whose slots are filled hold what is there. -/
theorem Closed.put (hs : store.Closed roots)
    (hget : store.get? i = some (.table es))
    (hes : List.Forall₂ (store.Slot id) es es₁) :
    (store.put i (.table es₁)).Closed roots := by
  intro j o ho v hv
  rw [Has, size_put]
  rw [get?_put _ (lt_size_of_get? hget)] at ho
  split at ho
  · cases ho
    obtain ⟨e₁, he₁, hv⟩ := List.mem_flatMap.1 hv
    obtain ⟨e, he, hkey, hfilled⟩ := mem_of_forall₂_slot hes he₁
    obtain ⟨hk, hx⟩ := hs.values_of_mem hget he
    rcases List.mem_pair.1 hv with rfl | rfl
    · rw [hkey, Value.move_id]
      exact hk
    · exact hs.has_filled hx hfilled
  · exact hs j o ho v hv

theorem Later.put (h : Later roots store store) (hi : i ∈ roots)
    (hget : store.get? i = some (.table es))
    (hes : List.Forall₂ (store.Slot id) es es₁) :
    Later roots store (store.put i (.table es₁)) := by
  have hlt := lt_size_of_get? hget
  refine ⟨h.injective, fun j o hj ho => ?_, fun j hj => ?_⟩
  · have hne : j ≠ i := fun heq => hj (heq ▸ hi)
    rw [get?_put _ hlt, id, if_neg hne]
    exact h.get? j o hj ho
  · by_cases heq : j = i
    · subst heq
      refine ⟨es, es₁, hget, ?_, hes⟩
      rw [get?_put _ hlt, id, if_pos rfl]
    · obtain ⟨as, bs, has, hbs, hslots⟩ := h.root j hj
      refine ⟨as, bs, has, ?_, hslots⟩
      rw [get?_put _ hlt, id, if_neg heq]
      exact hbs

/-- What fills a slot in one store and what fills it in the other leave
stores with the same objects, when the second is the first one moved. -/
theorem Moved.put (h : Moved f g roots built store store') (hi : i ∈ roots)
    {es' es₁' : List (Value × Value)}
    (hget : store.get? i = some (.table es))
    (hget' : store'.get? (f i) = some (.table es'))
    (hes : List.Forall₂ (store.Slot id) es es₁)
    (hes' : List.Forall₂ (store'.Slot id) es' es₁')
    (hboth : List.Forall₂ (store.Slot f) es₁ es₁') :
    Moved f g roots built (store.put i (.table es₁))
      (store'.put (f i) (.table es₁')) := by
  have hlater := h.later_refl.put hi hget hes
  have hlt := lt_size_of_get? hget
  have hlt' := lt_size_of_get? hget'
  refine ⟨⟨h.injective, fun j o hj ho => ?_, fun j hj => ?_⟩, fun n => ?_,
    h.closed.put hget hes, h.steady.later h.closed hlater fun j o hj ho => ?_,
    fun hbuilt => (h.grounded hbuilt).put hget hes,
    fun hbuilt => (h.grounded' hbuilt).put hget' hes'⟩
  · have hne : j ≠ i := fun heq => hj (heq ▸ hi)
    rw [get?_put _ hlt, if_neg hne] at ho
    rw [get?_put _ hlt', if_neg fun heq => hne (h.injective heq)]
    exact h.get? j o hj ho
  · by_cases heq : j = i
    · subst heq
      refine ⟨es₁, es₁', ?_, ?_, hlater.slots (fun v hv => ?_) hboth⟩
      · rw [get?_put _ hlt, if_pos rfl]
      · rw [get?_put _ hlt', if_pos rfl]
      · have hget₁ : (store.put j (.table es₁)).get? j =
            some (.table es₁) := by
          rw [get?_put _ hlt, if_pos rfl]
        have hthere := (h.closed.put hget hes) j _ hget₁ v hv
        rwa [Has, size_put] at hthere
    · obtain ⟨as, bs, has, hbs, hslots⟩ := h.root j hj
      refine ⟨as, bs, ?_, ?_, hlater.slots (fun v hv => ?_) hslots⟩
      · rw [get?_put _ hlt, if_neg heq]
        exact has
      · rw [get?_put _ hlt', if_neg fun h' => heq (h.injective h')]
        exact hbs
      · exact h.closed j _ has v hv
  · rw [size_put, size_put]
    exact h.next n
  · have hsize := lt_size_of_get? ho
    rw [size_put] at hsize
    exact absurd hsize (Nat.not_lt_of_le hj)

/-- An entry set in entries, and moved in moved ones. -/
theorem Moved.forall₂_setEntry (h : Moved f g roots built store store')
    {es' : List (Value × Value)} {key y : Value}
    (hkeys : ∀ e ∈ es, store.Has roots e.1) (hkey : store.Has roots key)
    (hes : List.Forall₂ (store.Slot f) es es') :
    List.Forall₂ (store.Slot f) (store.setEntry key y es)
      (store'.setEntry (key.move f) (y.move f) es') := by
  induction hes with
  | nil => exact .cons ⟨rfl, Or.inl rfl⟩ .nil
  | @cons e e' es es' he hrest ih =>
    obtain ⟨hhead, htail⟩ := List.forall_mem_cons.1 hkeys
    rw [setEntry, setEntry, he.1, h.sameKey hhead hkey]
    cases store.sameKey e.1 key with
    | true => exact .cons ⟨rfl, Or.inl rfl⟩ hrest
    | false => exact .cons he (ih htail)

/-- A root holds the same keys after it has been moved. -/
theorem Moved.hasKey_root (h : Moved f g roots built store store')
    (hi : i ∈ roots) {key : Value} (hkey : store.Has roots key) :
    store'.hasKey (.object (f i)) (key.move f) =
      store.hasKey (.object i) key := by
  obtain ⟨as, bs, has, hbs, hslots⟩ := h.root i hi
  have hkeys : ∀ e ∈ as, store.Has roots e.1 :=
    fun e he => (h.closed.values_of_mem has he).1
  have hrel := h.entry?_rel hkeys hkey hslots
  rw [hasKey_table has, hasKey_table hbs, h.isHashable hkey]
  generalize store.entry? as key = found,
    store'.entry? bs (key.move f) = found' at hrel ⊢
  cases hrel <;> rfl

/-- What two stores hold under a key of a root: tables at the places of
the root, and under the key a value and that value moved or filled. -/
structure RootSlot (f : ObjectId → ObjectId) (store store' : Store)
    (i : ObjectId) (key : Value) (entries entries' : List (Value × Value))
    (x x' : Value) : Prop where
  table : store.get? i = some (.table entries)
  table' : store'.get? (f i) = some (.table entries')
  slots : List.Forall₂ (store.Slot f) entries entries'
  value : store.entry? entries key = some x
  value' : store'.entry? entries' (key.move f) = some x'
  filled : store.Filled f x x'

/-- A key that a root holds is found in both stores. -/
theorem Moved.exists_rootSlot (h : Moved f g roots built store store')
    (hi : i ∈ roots) {key : Value} (hkey : store.Has roots key)
    (hhas : store.hasKey (.object i) key = true) :
    ∃ entries entries' x x',
      RootSlot f store store' i key entries entries' x x' := by
  obtain ⟨as, bs, has, hbs, hslots⟩ := h.root i hi
  have hrel := h.entry?_rel
    (fun e he => (h.closed.values_of_mem has he).1) hkey hslots
  rw [hasKey_table has, Bool.and_eq_true, Option.isSome_iff_exists] at hhas
  obtain ⟨-, x, hx⟩ := hhas
  rw [hx] at hrel
  cases hx' : store'.entry? bs (key.move f) with
  | none =>
    rw [hx'] at hrel
    cases hrel
  | some x' =>
    rw [hx'] at hrel
    cases hrel with
    | some hfilled =>
      exact ⟨as, bs, x, x', has, hbs, hslots, hx, hx', hfilled⟩

namespace RootSlot

variable {es' : List (Value × Value)} {key x x' : Value}
  (hslot : RootSlot f store store' i key es es' x x')

include hslot

theorem inRoot (hi : i ∈ roots) : store.InRoot roots x := by
  obtain ⟨e, he, rfl⟩ := Option.map_eq_some_iff.1 hslot.value
  exact ⟨i, hi, es, hslot.table, e, List.mem_of_find?_eq_some he, rfl⟩

/-- When the slot is filled in both stores, the second one is still the
first one moved. -/
theorem fill (h : Moved f g roots built store store') (hi : i ∈ roots)
    (hkey : store.Has roots key) {y : Value} (hy : store.Filled id x y)
    (hy' : store'.Filled id x' (y.move f)) :
    Moved f g roots built (store.put i (.table (store.setEntry key y es)))
      (store'.put (f i)
        (.table (store'.setEntry (key.move f) (y.move f) es'))) :=
  h.put hi hslot.table hslot.table'
    (forall₂_setEntry hslot.value hy) (forall₂_setEntry hslot.value' hy')
    (h.forall₂_setEntry
      (fun _ he => (h.closed.values_of_mem hslot.table he).1) hkey
      hslot.slots)

/-- When the slot had been filled in the second store, filling it in the
first one is enough. -/
theorem fill_left (h : Moved f g roots built store store') (hi : i ∈ roots)
    (hkey : store.Has roots key) {y : Value} (hy : store.Filled id x y)
    (hy' : x' = y.move f) :
    Moved f g roots built (store.put i (.table (store.setEntry key y es)))
      store' := by
  subst hy'
  have hboth := hslot.fill h hi hkey hy (Or.inl (y.move f).move_id.symm)
  rwa [setEntry_eq_self hslot.value', put_eq_self hslot.table'] at hboth

/-- A slot that holds a value that is not deferred holds that value, moved,
in the other store. -/
theorem plain (h : Moved f g roots built store store') (hi : i ∈ roots)
    (hd : store.deferred? x = none) :
    x' = x.move f ∧ store'.deferred? x' = none := by
  rcases hslot.filled with rfl | ⟨d, y, hd', -, -⟩
  · refine ⟨rfl, ?_⟩
    rw [h.deferred? (h.closed.has_inRoot (hslot.inRoot hi)), hd]
    rfl
  · cases hd.symm.trans hd'

/-- A slot that holds a deferred value holds it, moved, in the other store,
or it has been filled there. -/
theorem deferred (h : Moved f g roots built store store') (hi : i ∈ roots)
    {d : Deferred} (hd : store.deferred? x = some d) :
    store'.deferred? x' = some (d.move f) ∨
      ∃ y, d.deed = .yield y ∧ x' = y.move f ∧
        store'.deferred? x' = none := by
  have hin := hslot.inRoot hi
  rcases hslot.filled with rfl | ⟨d', y, hd', hy, rfl⟩
  · left
    rw [h.deferred? (h.closed.has_inRoot hin), hd]
    rfl
  · right
    obtain rfl : d = d' := Option.some.inj (hd.symm.trans hd')
    refine ⟨y, hy, rfl, ?_⟩
    rw [h.deferred? (h.closed.has_yield hd hy),
      h.steady.yields x d hin hd y hy]
    rfl

end RootSlot

end

-- =========================================================== moved on

/-- Leaves what is below a bound where it is, and moves the rest on. -/
def shift (bound k i : Nat) : Nat := if i < bound then i else i + k

theorem shift_of_lt {bound k i : Nat} (h : i < bound) :
    shift bound k i = i :=
  if_pos h

theorem shift_add (bound k n : Nat) :
    shift bound k (bound + n) = bound + n + k :=
  if_neg (Nat.not_lt_of_le (Nat.le_add_right bound n))

theorem shift_injective (bound k : Nat) :
    Function.Injective (shift bound k) := by
  intro i j hij
  unfold shift at hij
  split at hij <;> split at hij <;> omega

theorem shift_zero (bound : Nat) : shift bound 0 = id := by
  funext i
  exact ite_self i

/-- A later store is the earlier one with the objects still to come moved
behind those that have come since. -/
theorem Later.moved (h : Later roots store store')
    (hs : store.Grounded roots) (hs' : store'.Grounded [])
    (hsteady : store.Steady roots) {k : Nat}
    (hsize : store'.size = store.size + k)
    (hbound : ∀ i d, store.get? i = some (.drop d) →
      d.bound.map g = d.bound) :
    Moved (shift store.size k) g roots built store store' := by
  have hself {v : Value} (hv : store.Has roots v) :
      v.move (shift store.size k) = v :=
    Value.move_eq_of_below (fun i hi => shift_of_lt hi) hv
  refine ⟨⟨shift_injective _ _, fun i o hi ho => ?_, fun i hi => ?_⟩,
    fun n => ?_, hs.closed, hsteady, fun _ => hs, fun _ => hs'⟩
  · have hlater := h.get? i o hi ho
    have hmove : o.move (shift store.size k) g = o := by
      refine Object.move_eq_self (fun v hv => hself (hs.has ho hv)) ?_
      rintro d rfl
      exact hbound i d ho
    rw [o.move_id] at hlater
    rw [shift_of_lt (lt_size_of_get? ho), hmove]
    exact hlater
  · obtain ⟨es, es', hes, hes', hslots⟩ := h.root i hi
    refine ⟨es, es', hes, ?_, ?_⟩
    · rw [shift_of_lt (lt_size_of_get? hes)]
      exact hes'
    · have hboth := (List.forall₂_and_left es es').2
        ⟨fun e he => hs.closed.values_of_mem hes he, hslots⟩
      refine hboth.imp ?_
      rintro e e' ⟨⟨hk, hx⟩, hkey, hfilled⟩
      refine ⟨by rw [hself hk, hkey, Value.move_id], ?_⟩
      unfold Filled at hfilled ⊢
      rw [hself hx]
      rw [Value.move_id] at hfilled
      refine hfilled.imp_right ?_
      rintro ⟨d, y, hd, hy, hyield⟩
      refine ⟨d, y, hd, hy, ?_⟩
      rw [hyield, hself (hs.closed.has_yield hd hy), Value.move_id]
  · rw [shift_add, hsize, Nat.add_right_comm]

end Store
end
end Stencil
