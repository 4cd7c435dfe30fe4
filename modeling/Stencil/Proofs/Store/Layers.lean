/-
What layers hold.

A name is looked up in one layer after the other, and the first one that
holds it has its value (`lookUp?`). For a scalar this depends on the layers
alone: a key that is an object never counts as one with it, whatever the
object is, and other keys are scalars themselves. So it makes no difference
what else has become of the store.
-/
import Stencil.Proofs.Store.Inert
import Stencil.Proofs.Store.Keys

namespace Stencil

-- ============================================================== looking up

namespace Store

variable {store store' : Store} {layers : List Value} {name : Value}

/-- The value of a name in the first of the layers that holds it. -/
def lookUp? (store : Store) (layers : List Value) (name : Value) :
    Option Value :=
  (layers.find? fun v => store.hasKey v name).bind fun layer =>
    store.entry? (store.entries layer) name

/-- What holds a key and is no drop is a table with a value of the key. -/
theorem entry_of_hasKey {layer : Value}
    (hdrop : store.drop? layer = none)
    (h : store.hasKey layer name = true) :
    store.access layer = .table ∧ store.isHashable name = true ∧
      ∃ x, store.entry? (store.entries layer) name = some x := by
  unfold hasKey at h
  split at h
  · next haccess =>
    obtain ⟨d, hd⟩ := exists_drop?_of_access haccess
    cases hdrop.symm.trans hd
  · next haccess =>
    rw [Bool.and_eq_true, Option.isSome_iff_exists] at h
    exact ⟨haccess, h⟩
  · cases h

/-- A name is in no layer, or in one that has a value to fetch. -/
theorem lookUp?_cases (hdrop : ∀ v ∈ layers, store.drop? v = none)
    (name : Value) :
    ((layers.find? fun v => store.hasKey v name) = none ∧
        store.lookUp? layers name = none) ∨
      ∃ layer x, (layers.find? fun v => store.hasKey v name) = some layer ∧
        store.lookUp? layers name = some x ∧ store.drop? layer = none ∧
        store.fetch layer name = .ok x := by
  rw [lookUp?]
  cases hfind : layers.find? fun v => store.hasKey v name with
  | none => exact Or.inl ⟨rfl, rfl⟩
  | some layer =>
    have hlayer := hdrop layer (List.mem_of_find?_eq_some hfind)
    have hkey := List.find?_some hfind
    obtain ⟨haccess, hhash, x, hx⟩ := entry_of_hasKey hlayer hkey
    refine Or.inr ⟨layer, x, rfl, hx, hlayer, ?_⟩
    simp only [fetch, haccess, hhash, hx, if_true, Option.getD_some]

/-- Layers have no value for a name if and only if none of them holds
it. -/
theorem lookUp?_eq_none (hdrop : ∀ v ∈ layers, store.drop? v = none) :
    store.lookUp? layers name = none ↔
      ∀ v ∈ layers, store.hasKey v name = false := by
  have hfind : (∀ v ∈ layers, store.hasKey v name = false) ↔
      (layers.find? fun v => store.hasKey v name) = none := by
    simp only [List.find?_eq_none, Bool.not_eq_true]
  rw [hfind]
  rcases lookUp?_cases hdrop name with ⟨hnone, hvalue⟩ |
    ⟨layer, x, hsome, hvalue, -⟩
  · rw [hnone, hvalue]
  · simp only [hsome, hvalue, reduceCtorEq]

-- ======================================================== scalar names

/-- No object counts as one with a scalar. -/
theorem sameKey_object (i : ObjectId) (hname : name.IsScalar) :
    store.sameKey (.object i) name = false := by
  have hid : (store.datum (.object i)).id? = some i :=
    store.id?_unfold _ _ i
  have hnone : (Datum.atom name).id? = none := by
    cases name with
    | object j => exact absurd rfl (hname j)
    | _ => rfl
  rw [sameKey, datum_of_scalar hname, Datum.same, Datum.identical, hid,
    hnone]
  generalize store.datum (.object i) = d at hid
  cases d with
  | atom v =>
    cases v with
    | object j =>
      rw [Datum.equal]
      cases name with
      | object k => exact absurd rfl (hname k)
      | _ => rfl
    | _ => cases hid
  | _ => simp only [Datum.equal, Bool.false_or]

/-- Which keys count as one with a scalar is the same in all stores. -/
theorem sameKey_scalar (key : Value) (hname : name.IsScalar) :
    store'.sameKey key name = store.sameKey key name := by
  rcases key.scalar_or_object with hkey | ⟨i, rfl⟩
  · simp only [sameKey, datum_of_scalar hkey, datum_of_scalar hname]
  · rw [sameKey_object i hname, sameKey_object i hname]

theorem isHashable_scalar (hname : name.IsScalar) :
    store.isHashable name = true := by
  rw [isHashable, datum_of_scalar hname]
  rfl

/-- What layers have for a scalar depends on the layers only. -/
theorem lookUp?_scalar (hname : name.IsScalar)
    (hlayers : ∀ v ∈ layers, store'.object? v = store.object? v) :
    store'.lookUp? layers name = store.lookUp? layers name := by
  have hsame (key : Value) :
      store'.sameKey key name = store.sameKey key name :=
    sameKey_scalar key hname
  have hentry (es : List (Value × Value)) :
      store'.entry? es name = store.entry? es name := by
    simp only [Store.entry?, hsame]
  have hkey : ∀ v ∈ layers, store'.hasKey v name = store.hasKey v name := by
    intro v hv
    rw [hasKey, hasKey, access_congr (hlayers v hv),
      entries_congr (hlayers v hv), hentry, isHashable_scalar hname,
      isHashable_scalar hname]
  induction layers with
  | nil => rfl
  | cons layer rest ih =>
    obtain ⟨hfirst, hrest⟩ := List.forall_mem_cons.1 hlayers
    obtain ⟨hkeyFirst, hkeyRest⟩ := List.forall_mem_cons.1 hkey
    simp only [lookUp?, List.find?_cons, hkeyFirst]
    cases store.hasKey layer name with
    | true =>
      show store'.entry? (store'.entries layer) name = _
      rw [entries_congr hfirst, hentry]
      rfl
    | false => exact ih hrest hkeyRest

/-- An empty table in front makes no difference. -/
theorem lookUp?_cons_empty {layer : Value}
    (hlayer : store.object? layer = some (.table [])) :
    store.lookUp? (layer :: layers) name = store.lookUp? layers name := by
  obtain ⟨i, rfl, hget⟩ := object?_eq_some.1 hlayer
  have hkey : store.hasKey (.object i) name = false := by
    rw [hasKey_table hget, entry?, List.find?_nil, Option.map_none,
      Option.isSome_none, Bool.and_false]
  rw [lookUp?, List.find?_cons, hkey]
  rfl

/-- What inert layers have for a name is inert. -/
theorem Inert.lookUp? (hlayers : ∀ v ∈ layers, store.Inert v) {x : Value}
    (hx : store.lookUp? layers name = some x) : store.Inert x := by
  obtain ⟨layer, hfind, hx⟩ := Option.bind_eq_some_iff.1 hx
  obtain ⟨e, he, rfl⟩ := Option.map_eq_some_iff.1 hx
  exact ((hlayers layer (List.mem_of_find?_eq_some hfind)).entries
    (List.mem_of_find?_eq_some he)).2

end Store

end Stencil
