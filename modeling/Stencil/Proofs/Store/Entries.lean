/-
Entries, and what counts as one key.

To count as one is an equivalence among what can be a key (`sameKey_symm`,
`sameKey_trans`): such values unfold to data that are alike wherever they
are met. Therefore a name is found among entries under one key at most, and
an entry that is set is found under its key and under no other
(`entry?_setEntry`).
-/
import Stencil.Proofs.Datum.Sameness
import Stencil.Proofs.Store.Keys

namespace Stencil.Store

variable {store store' : Store} {es : List (Value × Value)}
  {a b c name : Value}

-- ========================================================= equivalence

/-- What can be a key unfolds to data that have, at each place, the core of
the object there. -/
theorem placed_unfold (hclosed : store.Closed []) {depth : Nat}
    {above : List ObjectId} (hroom : store.Room depth above) {v : Value}
    (hv : store.Has [] v)
    (hhash : (store.unfold depth above v).isHashable = true) :
    (store.unfold depth above v).Placed
      fun i => (store.datum (.object i)).core := by
  induction depth generalizing above v with
  | zero => exact absurd rfl hroom.ne_zero
  | succ depth ih =>
    rcases v.scalar_or_object with hscalar | ⟨i, rfl⟩
    · rw [unfold_of_scalar hscalar]
      intro i hi
      cases v with
      | object j => exact absurd rfl (hscalar j)
      | _ => cases hi
    · have hcore : (store.unfold (depth + 1) above (.object i)).core =
          (store.datum (.object i)).core := by
        refine ((Rewritten.refl store).core_unfold hclosed
          (List.nil_subset above) hroom ?_ hv hhash).symm
        refine ⟨hroom.nodup, hroom.there, ?_⟩
        omega
      have hi := (hv i rfl).1
      obtain ⟨o, ho⟩ := exists_get? hi
      cases o with
      | tuple items =>
        rw [unfold_container ho rfl] at hcore hhash ⊢
        split at hhash
        · cases hhash
        · next hnew =>
          rw [if_neg hnew] at hcore ⊢
          have hitems := Datum.allHashable_iff.1 hhash
          refine ⟨hcore, Datum.allPlaced_iff.2 fun d hd => ?_⟩
          obtain ⟨x, hx, rfl⟩ := List.mem_map.1 hd
          exact ih (hroom.below hi hnew) (hclosed i _ ho x hx) (hitems _ hd)
      | list | set | table | frozen =>
        rw [unfold_container ho rfl] at hhash
        split at hhash
        · cases hhash
        · cases hhash
      | _ =>
        rw [unfold_other ho rfl] at hcore ⊢
        intro j hj
        obtain rfl := Option.some.inj hj
        exact hcore

theorem placed_datum (hclosed : store.Closed []) {v : Value}
    (hv : store.Has [] v) (hhash : store.isHashable v = true) :
    (store.datum v).Placed fun i => (store.datum (.object i)).core :=
  placed_unfold hclosed (.of_le (Nat.le_refl _)) hv hhash

/-- A value is there and can be a key. -/
def Keyable (store : Store) (v : Value) : Prop :=
  store.Has [] v ∧ store.isHashable v = true

instance (store : Store) (v : Value) : Decidable (store.Keyable v) :=
  inferInstanceAs (Decidable (v.Below [] store.size ∧ _))

theorem Keyable.rewritten (h : store.Keyable a)
    (hrewritten : store.Rewritten store') (hclosed : store.Closed []) :
    store'.Keyable a :=
  ⟨hrewritten.has h.1, (hrewritten.isHashable hclosed h.1).trans h.2⟩

theorem sameKey_symm (h : store.sameKey a b = true) :
    store.sameKey b a = true :=
  Datum.same_symm h

theorem sameKey_trans (hclosed : store.Closed []) (ha : store.Keyable a)
    (hb : store.Keyable b) (hc : store.Keyable c)
    (h : store.sameKey a b = true) (h' : store.sameKey b c = true) :
    store.sameKey a c = true :=
  Datum.same_trans (placed_datum hclosed ha.1 ha.2)
    (placed_datum hclosed hb.1 hb.2) (placed_datum hclosed hc.1 hc.2) h h'

/-- Values that count as one key do so with the same keys. -/
theorem sameKey_congr (hclosed : store.Closed []) (ha : store.Keyable a)
    (hb : store.Keyable b) (hc : store.Keyable c)
    (h : store.sameKey a b = true) :
    store.sameKey c a = store.sameKey c b := by
  rw [Bool.eq_iff_iff]
  exact ⟨fun h' => sameKey_trans hclosed hc ha hb h' h,
    fun h' => sameKey_trans hclosed hc hb ha h' (sameKey_symm h)⟩

-- =============================================================== entries

theorem entry?_congr
    (h : ∀ e ∈ es, store'.sameKey e.1 b = store.sameKey e.1 a) :
    store'.entry? es b = store.entry? es a := by
  induction es with
  | nil => rfl
  | cons e es ih =>
    obtain ⟨hfirst, hrest⟩ := List.forall_mem_cons.1 h
    simp only [Store.entry?] at ih
    rw [Store.entry?, entry?, List.find?_cons, List.find?_cons, hfirst]
    cases store.sameKey e.1 a with
    | true => rfl
    | false => exact ih hrest

/-- An entry whose key is set is one that was there, with its value or the
new one, or it is new. -/
theorem mem_setEntry {key x : Value} {e : Value × Value}
    (h : e ∈ store.setEntry key x es) :
    (∃ e' ∈ es, e.1 = e'.1 ∧ (e.2 = e'.2 ∨ e.2 = x)) ∨ e = (key, x) := by
  induction es with
  | nil => exact Or.inr (List.mem_singleton.1 h)
  | cons e' es ih =>
    rw [setEntry] at h
    split at h
    · rcases List.mem_cons.1 h with rfl | h
      · exact Or.inl ⟨e', List.mem_cons_self .., rfl, Or.inr rfl⟩
      · exact Or.inl ⟨e, List.mem_cons_of_mem _ h, rfl, Or.inl rfl⟩
    · rcases List.mem_cons.1 h with rfl | h
      · exact Or.inl ⟨e, List.mem_cons_self .., rfl, Or.inl rfl⟩
      · rcases ih h with ⟨e'', he'', hrest⟩ | hnew
        · exact Or.inl ⟨e'', List.mem_cons_of_mem _ he'', hrest⟩
        · exact Or.inr hnew

/-- Where keys are all different, each of them has the value that stands
with it. -/
theorem entry?_of_mem
    (h : es.Pairwise fun e e' => store.sameKey e.1 e'.1 = false)
    {e : Value × Value} (he : e ∈ es)
    (hself : store.sameKey e.1 e.1 = true) :
    store.entry? es e.1 = some e.2 := by
  induction es with
  | nil => cases he
  | cons e' es ih =>
    obtain ⟨hfirst, hrest⟩ := List.pairwise_cons.1 h
    rw [Store.entry?, List.find?_cons]
    rcases List.mem_cons.1 he with rfl | he
    · rw [hself]
      rfl
    · rw [hfirst e he]
      exact ih hrest he

/-- Keys that are all different stay so. -/
theorem pairwise_setEntry {key x : Value}
    (h : es.Pairwise fun e e' => store.sameKey e.1 e'.1 = false) :
    (store.setEntry key x es).Pairwise fun e e' =>
      store.sameKey e.1 e'.1 = false := by
  induction es with
  | nil => exact List.pairwise_singleton ..
  | cons e es ih =>
    obtain ⟨hfirst, hrest⟩ := List.pairwise_cons.1 h
    rw [setEntry]
    split
    · exact List.pairwise_cons.2 ⟨hfirst, hrest⟩
    · next hnot =>
      refine List.pairwise_cons.2 ⟨fun e' he' => ?_, ih hrest⟩
      rcases mem_setEntry he' with ⟨e'', he'', hkey, -⟩ | rfl
      · rw [hkey]
        exact hfirst e'' he''
      · exact Bool.eq_false_iff.2 hnot

/-- A key that is set has the new value, and so has whatever counts as one
with it. All else has the value it had. -/
theorem entry?_setEntry (hclosed : store.Closed [])
    (hes : ∀ e ∈ es, store.Keyable e.1) {key : Value}
    (hkey : store.Keyable key) (hname : store.Keyable name) (x : Value) :
    store.entry? (store.setEntry key x es) name =
      if store.sameKey key name then some x else store.entry? es name := by
  induction es with
  | nil =>
    rw [setEntry, entry?, entry?, List.find?_cons]
    cases store.sameKey key name with
    | true => rfl
    | false => rfl
  | cons e es ih =>
    obtain ⟨he, hes⟩ := List.forall_mem_cons.1 hes
    simp only [Store.entry?] at ih
    rw [setEntry, entry?, entry?]
    split
    · next hsame =>
      have hcongr : store.sameKey e.1 name = store.sameKey key name := by
        rw [Bool.eq_iff_iff]
        exact ⟨sameKey_trans hclosed hkey he hname (sameKey_symm hsame),
          sameKey_trans hclosed he hkey hname hsame⟩
      rw [List.find?_cons, List.find?_cons, hcongr]
      cases store.sameKey key name with
      | true => rfl
      | false => rfl
    · next hnot =>
      rw [List.find?_cons, List.find?_cons]
      cases hfound : store.sameKey e.1 name with
      | false => exact ih hes
      | true =>
        -- the name is one with a key that is not the one set
        have hother : ¬store.sameKey key name = true := fun h =>
          hnot (sameKey_trans hclosed he hname hkey hfound
            (sameKey_symm h))
        rw [if_neg hother]

end Stencil.Store
