/-
Keys stay what they are.

A value that can be a key holds nothing that changes: it is a scalar, a
tuple of such values, or an object known by its place. So when lists and
tables are written anew, the same values can be keys, and the same
ones of them count as one. This is not to say that the data are the same.
A host object may stand for a list, or for itself, in which case it
unfolds deeper in a larger store; but a key is not asked what it stands
for. `Datum.core` leaves that out.

A value that can be a key unfolds all the way down, although the data may
go round in circles elsewhere: a tuple met inside itself is no key.
-/
import Mathlib.Data.List.Perm.Subperm
import Stencil.Proofs.Store.Slots

namespace Stencil

-- ================================================================ cores

namespace Datum

mutual

/-- A datum without what host objects stand for. -/
def core : Datum → Datum
  | .tuple id items => .tuple id (coreAll items)
  | .host id _ => .host id (.atom .nil)
  | d => d

/-- Data without what host objects stand for. -/
def coreAll : List Datum → List Datum
  | [] => []
  | d :: rest => core d :: coreAll rest

end

theorem coreAll_eq_map (ds : List Datum) : coreAll ds = ds.map core := by
  induction ds with
  | nil => rfl
  | cons d ds ih => rw [coreAll, ih, List.map_cons]

theorem allHashable_iff {ds : List Datum} :
    allHashable ds = true ↔ ∀ d ∈ ds, d.isHashable = true := by
  induction ds with
  | nil => simp [allHashable]
  | cons d ds ih =>
    rw [allHashable, Bool.and_eq_true, ih, List.forall_mem_cons]

theorem allHashable_congr {α : Type} {xs : List α} {f g : α → Datum}
    (h : ∀ x ∈ xs, (f x).isHashable = (g x).isHashable) :
    allHashable (xs.map f) = allHashable (xs.map g) := by
  induction xs with
  | nil => rfl
  | cons x xs ih =>
    obtain ⟨hfirst, hrest⟩ := List.forall_mem_cons.1 h
    rw [List.map_cons, List.map_cons, allHashable, allHashable, hfirst,
      ih hrest]

theorem id?_core (d : Datum) : d.core.id? = d.id? := by
  cases d <;> rfl

theorem identical_core (a b : Datum) :
    identical a.core b.core = identical a b := by
  rw [identical, identical, id?_core, id?_core]

mutual

/-- Equality does not ask what host objects stand for. -/
theorem equal_core : ∀ a b : Datum, a.core.equal b.core = a.equal b
  | .tuple _ xs, b => by
    cases b with
    | tuple _ ys => simp only [core, equal, equalItems_core xs ys]
    | _ => simp [core, equal]
  | .atom _, b | .list .., b | .set .., b | .table .., b | .frozen .., b
  | .host .., b | .handle .., b | .drop .., b | .deferred .., b
  | .quoted .., b | .again .., b => by
    cases b <;> simp [core, equal]

theorem equalItems_core :
    ∀ xs ys : List Datum,
      equalItems (coreAll xs) (coreAll ys) = equalItems xs ys
  | [], ys => by
    cases ys <;> simp [coreAll, equalItems]
  | x :: xs, [] => by
    simp [coreAll, equalItems]
  | x :: xs, y :: ys => by
    simp only [coreAll, equalItems, identical_core, equal_core x y,
      equalItems_core xs ys]

end

/-- Data that have one core count as one with the same data. -/
theorem same_core (a b : Datum) : same a.core b.core = same a b := by
  rw [same, same, identical_core, equal_core]

mutual

/-- What host objects stand for is not shown. -/
theorem display_core : ∀ d : Datum, d.core.display = d.display
  | .tuple _ items => by rw [core, display, display, displayAll_core items]
  | .atom _ | .list .. | .set .. | .table .. | .frozen .. | .host ..
  | .handle .. | .drop .. | .deferred .. | .quoted .. | .again .. => rfl

theorem displayAll_core :
    ∀ ds : List Datum, displayAll (coreAll ds) = displayAll ds
  | [] => rfl
  | d :: rest => by
    rw [coreAll, displayAll, displayAll, display_core d, displayAll_core rest]

end

theorem print_core (d : Datum) : d.core.print = d.print := by
  cases d with
  | tuple id items => exact display_core (.tuple id items)
  | _ => rfl

mutual

/-- Whether a datum can be written does not depend on what host objects
stand for. -/
theorem isWritable_core : ∀ d : Datum, d.core.isWritable = d.isWritable
  | .tuple _ items => by
    rw [core, isWritable, isWritable, allWritable_core items]
  | .atom _ | .list .. | .set .. | .table .. | .frozen .. | .host ..
  | .handle .. | .drop .. | .deferred .. | .quoted .. | .again .. => rfl

theorem allWritable_core :
    ∀ ds : List Datum, allWritable (coreAll ds) = allWritable ds
  | [] => rfl
  | d :: rest => by
    rw [coreAll, allWritable, allWritable, isWritable_core d,
      allWritable_core rest]

end

end Datum

-- ============================================================ unfolding

namespace Store

/-- Places that are all different are no more than there are objects. -/
theorem length_le_size {store : Store} {above : List ObjectId}
    (hnodup : above.Nodup) (habove : ∀ a ∈ above, a < store.size) :
    above.length ≤ store.size := by
  have hsub : above ⊆ List.range store.size :=
    fun a ha => List.mem_range.2 (habove a ha)
  have hle := (hnodup.subperm hsub).length_le
  rwa [List.length_range] at hle

/-- There is room to unfold in, below containers that are all different: the
budget exceeds the number of objects that are not above yet. -/
structure Room (store : Store) (depth : Nat) (above : List ObjectId) :
    Prop where
  nodup : above.Nodup
  there : ∀ a ∈ above, a < store.size
  budget : store.size < depth + above.length

namespace Room

variable {store : Store} {depth : Nat} {above : List ObjectId}

/-- The budget does not run out on the way down. -/
theorem ne_zero (h : store.Room depth above) : depth ≠ 0 := by
  rintro rfl
  have hle := length_le_size h.nodup h.there
  have hbudget := h.budget
  omega

/-- There is room below a container that is not above yet. -/
theorem below (h : store.Room (depth + 1) above) {i : ObjectId}
    (hi : i < store.size) (hnew : ¬above.contains i = true) :
    store.Room depth (i :: above) := by
  refine ⟨List.nodup_cons.2 ⟨fun hmem => hnew (by simpa using hmem), h.nodup⟩,
    List.forall_mem_cons.2 ⟨hi, h.there⟩, ?_⟩
  have hbudget := h.budget
  rw [List.length_cons]
  omega

/-- At first there is room. -/
theorem of_le {n : Nat} (h : store.size ≤ n) :
    store.Room (2 * n + 1) [] := by
  refine ⟨List.nodup_nil, List.forall_mem_nil _, ?_⟩
  rw [List.length_nil]
  omega

end Room

/-- An object unfolds to a datum at its place. -/
theorem id?_unfold (store : Store) (depth : Nat) (above : List ObjectId)
    (i : ObjectId) : (store.unfold depth above (.object i)).id? = some i := by
  have hdatum (u : Value → Datum) (o : Object) :
      (datumOf u i o).id? = some i := by
    cases o <;> rfl
  cases depth with
  | zero => rfl
  | succ depth =>
    rw [unfold]
    split
    · rfl
    · split
      · split
        · rfl
        · exact hdatum _ _
      · exact hdatum _ _

theorem exists_of_shape?_tuple {o : Object} (h : shape? o = some .tuple) :
    ∃ items, o = .tuple items := by
  cases o with
  | tuple items => exact ⟨items, rfl⟩
  | _ => cases h

section

variable {o : Object} {u : Value → Datum} {i : ObjectId}

/-- What is no container can be a key. -/
theorem isHashable_other (hshape : shape? o = none) :
    (datumOf u i o).isHashable = true := by
  cases o with
  | list | table | tuple | frozen | set => cases hshape
  | _ => rfl

/-- Among containers only tuples can be keys. -/
theorem isHashable_container {shape : Shape} (hshape : shape? o = some shape)
    (hno : shape ≠ .tuple) : (datumOf u i o).isHashable = false := by
  cases o with
  | tuple items => exact absurd (Option.some.inj hshape).symm hno
  | list | set | table | frozen => rfl
  | _ => cases hshape

end

section

variable {store : Store} {i : ObjectId} {o : Object}

/-- A container unfolds to its contents, unless it is met inside
itself. -/
theorem unfold_container {shape : Shape} (ho : store.get? i = some o)
    (hshape : shape? o = some shape) (depth : Nat)
    (above : List ObjectId) :
    store.unfold (depth + 1) above (.object i) =
      if above.contains i then .again i shape
      else datumOf (store.unfold depth (i :: above)) i o := by
  simp only [unfold, ho, hshape]

/-- What is no container unfolds to what it is. -/
theorem unfold_other (ho : store.get? i = some o)
    (hshape : shape? o = none) (depth : Nat) (above : List ObjectId) :
    store.unfold (depth + 1) above (.object i) =
      datumOf (store.unfold depth above) i o := by
  simp only [unfold, ho, hshape]

end

namespace Rewritten

variable {store store' : Store}

/-- What an object unfolds to in a store and in a rewritten one: what is no
container to what it is, and a container to its contents, unless it is met
inside itself. Tuples are not written anew. -/
theorem unfold_cases (h : store.Rewritten store') {i : ObjectId}
    (hi : i < store.size) (depth depth' : Nat)
    (above above' : List ObjectId) :
    (∃ o, store.get? i = some o ∧ shape? o = none ∧
        store.unfold (depth + 1) above (.object i) =
          datumOf (store.unfold depth above) i o ∧
        store'.unfold (depth' + 1) above' (.object i) =
          datumOf (store'.unfold depth' above') i o) ∨
      ∃ o o' shape, store.get? i = some o ∧ shape? o = some shape ∧
        shape? o' = some shape ∧ (shape = .tuple → o' = o) ∧
        store.unfold (depth + 1) above (.object i) =
          (if above.contains i then .again i shape
          else datumOf (store.unfold depth (i :: above)) i o) ∧
        store'.unfold (depth' + 1) above' (.object i) =
          (if above'.contains i then .again i shape
          else datumOf (store'.unfold depth' (i :: above')) i o') := by
  obtain ⟨o, ho⟩ := exists_get? hi
  obtain ⟨o', ho', hrewritten⟩ := h i o ho
  cases hshape : shape? o with
  | none =>
    obtain rfl : o' = o := by
      refine hrewritten.other ?_ ?_
      · rintro items rfl
        cases hshape
      · rintro entries rfl
        cases hshape
    exact Or.inl ⟨o', ho, hshape, unfold_other ho hshape depth above,
      unfold_other ho' hshape depth' above'⟩
  | some shape =>
    have hshape' : shape? o' = some shape := hrewritten.shape?.trans hshape
    refine Or.inr ⟨o, o', shape, ho, hshape, hshape', ?_,
      unfold_container ho hshape depth above,
      unfold_container ho' hshape' depth' above'⟩
    rintro rfl
    obtain ⟨items, rfl⟩ := exists_of_shape?_tuple hshape
    exact hrewritten.other (fun _ heq => by cases heq)
      fun _ heq => by cases heq

/-- What can be a key unfolds to the same core in a rewritten store, and
below fewer containers. -/
theorem core_unfold (h : store.Rewritten store') (hclosed : store.Closed [])
    {depth depth' : Nat} {above above' : List ObjectId}
    (hsub : above' ⊆ above) (hroom : store.Room depth above)
    (hroom' : store.Room depth' above) {v : Value} (hv : store.Has [] v)
    (hhash : (store.unfold depth above v).isHashable = true) :
    (store'.unfold depth' above' v).core =
      (store.unfold depth above v).core := by
  induction depth generalizing depth' above above' v with
  | zero => exact absurd rfl hroom.ne_zero
  | succ depth ih =>
    rcases v.scalar_or_object with hscalar | ⟨i, rfl⟩
    · rw [unfold_of_scalar hscalar, unfold_of_scalar hscalar]
    · obtain ⟨depth', rfl⟩ :=
        Nat.exists_eq_succ_of_ne_zero hroom'.ne_zero
      have hi := (hv i rfl).1
      rcases h.unfold_cases hi depth depth' above above' with
        ⟨o, -, hshape, heq, heq'⟩ |
        ⟨o, o', shape, ho, hshape, -, hsame, heq, heq'⟩
      · rw [heq, heq']
        cases o with
        | list | table | tuple | frozen | set => cases hshape
        | _ => rfl
      · rw [heq] at hhash ⊢
        rw [heq']
        split at hhash
        · cases hhash
        · next hnew =>
          have hnew' : ¬above'.contains i = true := fun hmem =>
            hnew (by simpa using hsub (by simpa using hmem))
          rw [if_neg hnew, if_neg hnew']
          -- among containers only tuples can be keys
          rcases eq_or_ne shape .tuple with rfl | hno
          · obtain rfl := hsame rfl
            obtain ⟨items, rfl⟩ := exists_of_shape?_tuple hshape
            have hitems := Datum.allHashable_iff.1 hhash
            refine congrArg (Datum.tuple i) ?_
            rw [Datum.coreAll_eq_map, Datum.coreAll_eq_map, List.map_map,
              List.map_map]
            exact List.map_congr_left fun x hx =>
              ih (List.cons_subset_cons i hsub) (hroom.below hi hnew)
                (hroom'.below hi hnew) (hclosed i _ ho x hx)
                (hitems _ (List.mem_map_of_mem hx))
          · rw [isHashable_container hshape hno] at hhash
            cases hhash

/-- The same values can be keys in a rewritten store, below the same
containers. -/
theorem isHashable_unfold (h : store.Rewritten store')
    (hclosed : store.Closed []) {depth depth' : Nat}
    {above : List ObjectId} (hroom : store.Room depth above)
    (hroom' : store.Room depth' above) {v : Value} (hv : store.Has [] v) :
    (store'.unfold depth' above v).isHashable =
      (store.unfold depth above v).isHashable := by
  induction depth generalizing depth' above v with
  | zero => exact absurd rfl hroom.ne_zero
  | succ depth ih =>
    rcases v.scalar_or_object with hscalar | ⟨i, rfl⟩
    · rw [unfold_of_scalar hscalar, unfold_of_scalar hscalar]
    · obtain ⟨depth', rfl⟩ :=
        Nat.exists_eq_succ_of_ne_zero hroom'.ne_zero
      have hi := (hv i rfl).1
      rcases h.unfold_cases hi depth depth' above above with
        ⟨o, -, hshape, heq, heq'⟩ |
        ⟨o, o', shape, ho, hshape, hshape', hsame, heq, heq'⟩
      · rw [heq, heq', isHashable_other hshape, isHashable_other hshape]
      · rw [heq, heq']
        split
        · rfl
        · next hnew =>
          rcases eq_or_ne shape .tuple with rfl | hno
          · obtain rfl := hsame rfl
            obtain ⟨items, rfl⟩ := exists_of_shape?_tuple hshape
            exact Datum.allHashable_congr fun x hx =>
              ih (hroom.below hi hnew) (hroom'.below hi hnew)
                (hclosed i _ ho x hx)
          · rw [isHashable_container hshape hno,
              isHashable_container hshape' hno]

variable {a b : Value}

/-- The same values can be keys in a rewritten store. -/
theorem isHashable (h : store.Rewritten store') (hclosed : store.Closed [])
    (ha : store.Has [] a) : store'.isHashable a = store.isHashable a :=
  h.isHashable_unfold hclosed (.of_le (Nat.le_refl _)) (.of_le h.size_le) ha

/-- The datum of what can be a key keeps its core. -/
theorem core_datum (h : store.Rewritten store') (hclosed : store.Closed [])
    (ha : store.Has [] a) (hhash : store.isHashable a = true) :
    (store'.datum a).core = (store.datum a).core := by
  exact h.core_unfold hclosed (List.Subset.refl _) (.of_le (Nat.le_refl _))
    (.of_le h.size_le) ha hhash

/-- What can be a key can be written in a rewritten store if it could. -/
theorem isWritable (h : store.Rewritten store') (hclosed : store.Closed [])
    (ha : store.Has [] a) (hhash : store.isHashable a = true) :
    store'.isWritable a = store.isWritable a := by
  rw [Store.isWritable, ← Datum.isWritable_core,
    h.core_datum hclosed ha hhash, Datum.isWritable_core, Store.isWritable]

/-- What can be a key reads the same in a rewritten store. -/
theorem print (h : store.Rewritten store') (hclosed : store.Closed [])
    (ha : store.Has [] a) (hhash : store.isHashable a = true) :
    (store'.datum a).print = (store.datum a).print := by
  rw [← Datum.print_core, h.core_datum hclosed ha hhash, Datum.print_core]

/-- The same keys count as one in a rewritten store. -/
theorem sameKey (h : store.Rewritten store') (hclosed : store.Closed [])
    (ha : store.Has [] a) (hb : store.Has [] b)
    (hhash : store.isHashable a = true)
    (hhash' : store.isHashable b = true) :
    store'.sameKey a b = store.sameKey a b := by
  rw [Store.sameKey, ← Datum.same_core, h.core_datum hclosed ha hhash,
    h.core_datum hclosed hb hhash', Datum.same_core, Store.sameKey]

end Rewritten
end Store

end Stencil
