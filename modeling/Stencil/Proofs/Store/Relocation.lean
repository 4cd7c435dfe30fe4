/-
Stores with the same objects at other places.

One store is another one moved when each object has been put to the place
that a map of places gives for it, and refers to the moved objects there.
The stores need not have the same size. What the evaluator asks of a
store is then answered alike: the same where the answer is a truth value,
a text or a failure, and the moved value where it is a value.

Roots are tables that no object refers to. They may differ in more than
place: a slot of theirs that holds a deferred value in the one store may
hold what it yields in the other. Nobody can tell who asks only for the
values of names, and nothing else is ever asked of a root.

Drops remember the context they were bound to, so contexts are numbered
anew along with the objects.
-/
import Mathlib.Data.List.Forall2
import Mathlib.Data.List.Nodup
import Stencil.Proofs.Datum.Relocation
import Stencil.Proofs.Sequence
import Stencil.Proofs.Store.Comparison
import Stencil.Value.Integer

namespace Stencil

section

variable (f : ObjectId → ObjectId) (g : ContextId → ContextId)

-- ============================================================== moving

/-- A member of a drop after the objects have been moved. -/
def Member.move : Member → Member
  | .method v => .method (v.move f)
  | .property v => .property (v.move f)
  | .reader markup => .reader markup
  | .itself => .itself
  | .data v => .data (v.move f)

/-- A drop after the objects have been moved. -/
def Drop.move (d : Drop) : Drop :=
  ⟨d.label, d.members.map fun m => (m.1, m.2.move f), d.bound.map g⟩

/-- What a deferred value does after the objects have been moved. -/
def Deed.move : Deed → Deed
  | .yield v => .yield (v.move f)
  | .read markup => .read markup
  | .fail message => .fail message

/-- A deferred value after the objects have been moved. -/
def Deferred.move (d : Deferred) : Deferred :=
  ⟨d.label, d.form, d.deed.move f⟩

/-- Entries after the objects have been moved. -/
def Object.moveEntries (entries : List (Value × Value)) :
    List (Value × Value) :=
  entries.map fun e => (e.1.move f, e.2.move f)

/-- An object after all objects have been moved. -/
def Object.move : Object → Object
  | .list items => .list (items.map (Value.move f))
  | .table entries => .table (moveEntries f entries)
  | .frozen entries => .frozen (moveEntries f entries)
  | .tuple items => .tuple (items.map (Value.move f))
  | .set items => .set (items.map (Value.move f))
  | .host v => .host (v.move f)
  | .handle label => .handle label
  | .drop d => .drop (d.move f g)
  | .deferred d => .deferred (d.move f)
  | .quoted e => .quoted e

/-- What is compared of two values after the objects have been moved. -/
def Counterparts.move : Counterparts → Counterparts
  | .lists xs ys => .lists (xs.map (Value.move f)) (ys.map (Value.move f))
  | .tuples xs ys => .tuples (xs.map (Value.move f)) (ys.map (Value.move f))
  | .sets xs ys => .sets (xs.map (Value.move f)) (ys.map (Value.move f))
  | .tables es fs =>
    .tables (Object.moveEntries f es) (Object.moveEntries f fs)
  | .quotes e e' => .quotes e e'

/-- What a slot holds after the objects have been moved: the moved value,
or the moved yield of a value that was deferred. -/
def Store.Filled (store : Store) (v v' : Value) : Prop :=
  v' = v.move f ∨
    ∃ d y, store.deferred? v = some d ∧ d.deed = .yield y ∧ v' = y.move f

/-- An entry of a root after the objects have been moved. -/
def Store.Slot (store : Store) (e e' : Value × Value) : Prop :=
  e'.1 = e.1.move f ∧ store.Filled f e.2 e'.2

/-- A store has the objects of another one, moved. The entries of roots
have kept their order and their keys. -/
structure Store.Embeds (roots : List ObjectId) (store store' : Store) :
    Prop where
  injective : Function.Injective f
  get? : ∀ i o, i ∉ roots → store.get? i = some o →
    store'.get? (f i) = some (o.move f g)
  root : ∀ i ∈ roots, ∃ entries entries',
    store.get? i = some (.table entries) ∧
    store'.get? (f i) = some (.table entries') ∧
    List.Forall₂ (store.Slot f) entries entries'

/-- A value stands in a slot of a root. -/
def Store.InRoot (store : Store) (roots : List ObjectId) (v : Value) :
    Prop :=
  ∃ i ∈ roots, ∃ entries, store.get? i = some (.table entries) ∧
    ∃ e ∈ entries, v = e.2

/-- Deferred values stand in no slots but those of roots. There they read
no markup, and what they yield is not deferred again. -/
structure Store.Steady (store : Store) (roots : List ObjectId) : Prop where
  slots : ∀ i o, i ∉ roots → store.get? i = some o →
    ∀ v ∈ o.slots, store.deferred? v = none
  reads : ∀ v d, store.InRoot roots v → store.deferred? v = some d →
    ∀ markup, d.deed ≠ .read markup
  yields : ∀ v d, store.InRoot roots v → store.deferred? v = some d →
    ∀ y, d.deed = .yield y → store.deferred? y = none

/-- One store is another one with its objects moved, and the places still
free are moved in order. It may be said that both were built from the inside
out. -/
structure Store.Moved (roots : List ObjectId) (built : Prop)
    (store store' : Store) :
    Prop extends Store.Embeds f g roots store store' where
  next : ∀ n, f (store.size + n) = store'.size + n
  closed : store.Closed roots
  steady : store.Steady roots
  grounded : built → store.Grounded roots
  grounded' : built → store'.Grounded []

end

section

variable {f : ObjectId → ObjectId} {g : ContextId → ContextId}
  {roots : List ObjectId} {built : Prop}

theorem Object.entryValues_move (entries : List (Value × Value)) :
    entryValues (moveEntries f entries) =
      (entryValues entries).map (Value.move f) := by
  rw [entryValues, entryValues, moveEntries, List.flatMap_map,
    List.map_flatMap]
  rfl

/-- A moved object refers to the moved values. -/
theorem Object.values_move (o : Object) :
    (o.move f g).values = o.values.map (Value.move f) := by
  cases o with
  | table entries | frozen entries => exact entryValues_move entries
  | drop d =>
    simp only [Object.move, Drop.move, values, List.flatMap_map,
      List.map_flatMap]
    congr 1
    funext m
    obtain ⟨name, member⟩ := m
    cases member <;> rfl
  | deferred d =>
    obtain ⟨label, form, deed⟩ := d
    cases deed <;> rfl
  | _ => rfl

/-- A moved object holds the moved values in its slots. -/
theorem Object.slots_move (o : Object) :
    (o.move f g).slots = o.slots.map (Value.move f) := by
  cases o with
  | table entries | frozen entries => exact entryValues_move entries
  | _ => rfl

/-- What an object unfolds to is relocated with the data of its contents. -/
theorem Object.relocated_datumOf {u u' : Value → Datum} (i : ObjectId)
    {o : Object} (h : ∀ shape, Store.shape? o = some shape →
      ∀ v ∈ o.values, Datum.Relocated f (u v) (u' (v.move f))) :
    Datum.Relocated f (Store.datumOf u i o)
      (Store.datumOf u' (f i) (o.move f g)) := by
  cases o with
  | list items | tuple items | set items =>
    have hitems : Datum.moveAll id ((items.map (Value.move f)).map u') =
        Datum.moveAll f (items.map u) := by
      rw [Datum.moveAll_eq_map, Datum.moveAll_eq_map, List.map_map,
        List.map_map, List.map_map]
      exact List.map_congr_left fun v hv => (h _ rfl v hv).eq
    refine ⟨Datum.allSound_iff.2 fun d hd => ?_, ?_⟩
    · obtain ⟨v, hv, rfl⟩ := List.mem_map.1 hd
      exact (h _ rfl v hv).sound
    · simp only [Object.move, Store.datumOf, Datum.move, hitems, id]
  | table entries | frozen entries =>
    have hentries : Datum.moveEntries id
          ((moveEntries f entries).map fun e => (u' e.1, u' e.2)) =
        Datum.moveEntries f (entries.map fun e => (u e.1, u e.2)) := by
      rw [Datum.moveEntries_eq_map, Datum.moveEntries_eq_map, moveEntries,
        List.map_map, List.map_map, List.map_map]
      refine List.map_congr_left fun e he => ?_
      obtain ⟨hk, hv⟩ := mem_entryValues he
      exact Prod.ext (h _ rfl _ hk).eq (h _ rfl _ hv).eq
    refine ⟨Datum.entriesSound_iff.2 fun d hd => ?_, ?_⟩
    · obtain ⟨e, he, rfl⟩ := List.mem_map.1 hd
      obtain ⟨hk, hv⟩ := mem_entryValues he
      exact ⟨(h _ rfl _ hk).sound, (h _ rfl _ hv).sound⟩
    · simp only [Object.move, Store.datumOf, Datum.move, hentries, id]
  | drop d =>
    refine ⟨trivial, ?_⟩
    simp only [Object.move, Drop.move, Store.datumOf, Datum.move, id,
      Option.isSome_map]
  | _ => exact ⟨trivial, rfl⟩

-- ============================================================= objects

namespace Store.Embeds

variable {store store' : Store} (h : Embeds f g roots store store')
  {v : Value}

include h

theorem lt_size {i : ObjectId} (hi : i < store.size) :
    f i < store'.size := by
  by_cases hroot : i ∈ roots
  · obtain ⟨-, entries', -, hget', -⟩ := h.root i hroot
    exact lt_size_of_get? hget'
  · obtain ⟨o, ho⟩ := exists_get? hi
    exact lt_size_of_get? (h.get? i o hroot ho)

/-- The objects have places enough. -/
theorem size_le : store.size ≤ store'.size := by
  have hle : ((List.range store.size).map f).length ≤ store'.size := by
    refine length_le_size (List.Nodup.map h.injective List.nodup_range) fun j hj => ?_
    obtain ⟨i, hi, rfl⟩ := List.mem_map.1 hj
    exact h.lt_size (List.mem_range.1 hi)
  rwa [List.length_map, List.length_range] at hle

/-- What is there is there after it has been moved. -/
theorem has (hv : store.Has roots v) : store'.Has [] (v.move f) := by
  rcases v.scalar_or_object with hscalar | ⟨i, rfl⟩
  · rw [Value.move_eq_self hscalar]
    exact hscalar.below _ _
  · exact Value.below_object.2 ⟨h.lt_size (hv i rfl).1, List.not_mem_nil⟩

theorem object? (hv : store.Has roots v) :
    store'.object? (v.move f) = (store.object? v).map (Object.move f g) := by
  cases v with
  | object i =>
    obtain ⟨hi, hroot⟩ := hv i rfl
    obtain ⟨o, ho⟩ := exists_get? hi
    show store'.get? (f i) = (store.get? i).map _
    rw [ho, h.get? i o hroot ho]
    rfl
  | _ => rfl

theorem drop? (hv : store.Has roots v) :
    store'.drop? (v.move f) = (store.drop? v).map (Drop.move f g) := by
  rw [Store.drop?, Store.drop?, h.object? hv]
  cases store.object? v with
  | none => rfl
  | some o => cases o <;> rfl

theorem deferred? (hv : store.Has roots v) :
    store'.deferred? (v.move f) =
      (store.deferred? v).map (Deferred.move f) := by
  rw [Store.deferred?, Store.deferred?, h.object? hv]
  cases store.object? v with
  | none => rfl
  | some o => cases o <;> rfl

theorem access (hv : store.Has roots v) :
    store'.access (v.move f) = store.access v := by
  have hobj := h.object? hv
  cases v with
  | object i =>
    simp only [Value.move, Store.access] at hobj ⊢
    rw [hobj]
    cases store.object? (.object i) with
    | none => rfl
    | some o => cases o <;> rfl
  | _ => rfl

theorem entries (hv : store.Has roots v) :
    store'.entries (v.move f) = Object.moveEntries f (store.entries v) := by
  rw [Store.entries, Store.entries, h.object? hv]
  cases store.object? v with
  | none => rfl
  | some o => cases o <;> rfl

theorem items (hv : store.Has roots v) :
    store'.items (v.move f) = (store.items v).map (Value.move f) := by
  rw [Store.items, Store.items, h.object? hv]
  cases store.object? v with
  | none => rfl
  | some o => cases o <;> rfl

/-- The items of a moved sequence are the moved ones. -/
theorem item (hv : store.Has roots v) (index : Int) :
    store'.item (v.move f) index = (store.item v index).move f := by
  by_cases hrange : ∃ first stop, v = .range first stop
  · obtain ⟨first, stop, rfl⟩ := hrange
    simp only [Value.move, Store.item]
    cases position? (stop - first).toNat index <;> rfl
  · have hne : ∀ first stop, v ≠ .range first stop :=
      fun first stop heq => hrange ⟨first, stop, heq⟩
    have hne' : ∀ first stop, v.move f ≠ .range first stop := by
      intro first stop heq
      cases v with
      | range => exact hne _ _ rfl
      | _ => cases heq
    rw [item_eq hne, item_eq hne', h.items hv, List.length_map]
    cases position? (store.items v).length index with
    | none => rfl
    | some i =>
      simp only [Option.bind_some, List.getElem?_map]
      cases (store.items v)[i]? <;> rfl

-- ================================================================ data

/-- A moved value unfolds to the relocated datum, as long as there is room to
unfold in. Containers go round in circles in both stores alike, and what a
host object stands for, for which there may be no room, does not count. -/
theorem relocated_unfold (hclosed : store.Closed roots)
    {depth depth' : Nat} {above : List ObjectId} (hv : store.Has roots v)
    (hroom : store.Room depth above)
    (hroom' : store'.Room depth' (above.map f)) :
    Datum.Relocated f (store.unfold depth above v)
      (store'.unfold depth' (above.map f) (v.move f)) := by
  induction depth generalizing depth' above v with
  | zero => exact absurd rfl hroom.ne_zero
  | succ depth ih =>
    obtain ⟨depth', rfl⟩ := Nat.exists_eq_succ_of_ne_zero hroom'.ne_zero
    rcases v.scalar_or_object with hscalar | ⟨i, rfl⟩
    · rw [Value.move_eq_self hscalar, unfold_of_scalar hscalar,
        unfold_of_scalar hscalar]
      exact .of_scalar hscalar
    · obtain ⟨hi, hroot⟩ := hv i rfl
      obtain ⟨o, ho⟩ := exists_get? hi
      have ho' := h.get? i o hroot ho
      have hshape' : shape? (o.move f g) = shape? o := by
        cases o <;> rfl
      show Datum.Relocated f _ (store'.unfold _ _ (.object (f i)))
      cases hshape : shape? o with
      | none =>
        rw [unfold_other ho hshape, unfold_other ho' (hshape'.trans hshape)]
        exact Object.relocated_datumOf i fun shape heq => by
          cases heq.symm.trans hshape
      | some shape =>
        have hmet : (above.map f).contains (f i) = above.contains i := by
          simp only [List.contains_eq_mem,
            List.mem_map_of_injective h.injective]
        rw [unfold_container ho hshape,
          unfold_container ho' (hshape'.trans hshape), hmet]
        split
        · exact ⟨trivial, rfl⟩
        · next hnew =>
          refine Object.relocated_datumOf i fun _ _ x hx => ?_
          exact ih (hclosed i o ho x hx) (hroom.below hi hnew)
            (hroom'.below (h.lt_size hi) (hmet ▸ hnew))

end Store.Embeds

namespace Store.Moved

variable {store store' : Store} (h : Moved f g roots built store store')
  {v : Value}

include h

/-- The datum of a moved value is the relocated datum. -/
theorem datum (hv : store.Has roots v) :
    Datum.Relocated f (store.datum v) (store'.datum (v.move f)) :=
  h.relocated_unfold h.closed hv (.of_le (Nat.le_refl _))
    (.of_le (Nat.le_refl _))

/-- A moved value can be written when it could before. -/
theorem isWritable (hv : store.Has roots v) :
    store'.isWritable (v.move f) = store.isWritable v :=
  (h.datum hv).isWritable

/-- A moved value shows as before. -/
theorem display (hv : store.Has roots v) :
    store'.display (v.move f) = store.display v := by
  rw [Store.display, Store.display, h.isWritable hv, (h.datum hv).display]

/-- A moved value reads as before. -/
theorem print (hv : store.Has roots v) :
    store'.print (v.move f) = store.print v := by
  rw [Store.print, Store.print, h.isWritable hv, (h.datum hv).print]

theorem isHashable (hv : store.Has roots v) :
    store'.isHashable (v.move f) = store.isHashable v :=
  (h.datum hv).isHashable

theorem sameKey {a b : Value} (ha : store.Has roots a)
    (hb : store.Has roots b) :
    store'.sameKey (a.move f) (b.move f) = store.sameKey a b :=
  (h.datum ha).same (h.datum hb) h.injective

-- =============================================================== parts

/-- What stands under a moved key among entries with moved keys is what
stood under it, moved or not. -/
theorem entry?_rel {R : Value → Value → Prop}
    {es es' : List (Value × Value)} {key : Value}
    (hkeys : ∀ e ∈ es, store.Has roots e.1) (hkey : store.Has roots key)
    (hes : List.Forall₂ (fun e e' => e'.1 = e.1.move f ∧ R e.2 e'.2)
      es es') :
    Option.Rel R (store.entry? es key) (store'.entry? es' (key.move f)) := by
  unfold Store.entry?
  induction hes with
  | nil => exact .none
  | @cons e e' es es' he _ ih =>
    obtain ⟨hfst, hsnd⟩ := he
    obtain ⟨hhead, htail⟩ := List.forall_mem_cons.1 hkeys
    simp only [List.find?_cons, hfst, h.sameKey hhead hkey]
    cases store.sameKey e.1 key with
    | true => exact .some hsnd
    | false => exact ih htail

/-- The value of a moved key among moved entries is the moved one. -/
theorem entry? {es : List (Value × Value)} {key : Value}
    (hkeys : ∀ e ∈ es, store.Has roots e.1) (hkey : store.Has roots key) :
    store'.entry? (Object.moveEntries f es) (key.move f) =
      (store.entry? es key).map (Value.move f) := by
  have hmoved : List.Forall₂
      (fun e e' => e'.1 = e.1.move f ∧ e'.2 = e.2.move f)
      es (Object.moveEntries f es) :=
    List.forall₂_map_right_iff.2
      (List.forall₂_same.2 fun _ _ => ⟨rfl, rfl⟩)
  have hrel := h.entry?_rel (R := fun x x' => x' = x.move f) hkeys hkey
    hmoved
  generalize store.entry? es key = found,
    store'.entry? (Object.moveEntries f es) (key.move f) = found' at hrel ⊢
  cases hrel with
  | some hx => exact congrArg some hx
  | none => rfl

/-- The keys of a value are there. -/
theorem entry_keys (v : Value) :
    ∀ e ∈ store.entries v, store.Has roots e.1 :=
  fun _ he => (h.closed.entries_has he).1

theorem hasKey {key : Value} (hv : store.Has roots v)
    (hkey : store.Has roots key) :
    store'.hasKey (v.move f) (key.move f) = store.hasKey v key := by
  simp only [Store.hasKey, h.access hv, h.isHashable hkey, h.entries hv,
    h.entry? (h.entry_keys v) hkey, Option.isSome_map]

/-- The part of a moved value under a moved key is the moved part. -/
theorem fetch {key : Value} (hv : store.Has roots v)
    (hkey : store.Has roots key) :
    store'.fetch (v.move f) (key.move f) =
      (store.fetch v key).map (Value.move f) := by
  have hindex : index? (key.move f) = index? key := by
    cases key <;> rfl
  simp only [Store.fetch, h.access hv, h.isHashable hkey, h.entries hv,
    h.entry? (h.entry_keys v) hkey, hindex, (h.datum hkey).display,
    h.item hv]
  cases store.access v with
  | table =>
    cases store.isHashable key with
    | false => rfl
    | true =>
      show Except.ok _ = Except.ok _
      cases store.entry? (store.entries v) key <;> rfl
  | sequence => cases index? key <;> rfl
  | _ => rfl

-- ============================================================== output

omit h in
theorem outputTo_of_scalar (hv : v.IsScalar)
    (depth depth' : Nat) :
    store'.outputTo (depth' + 1) v = store.outputTo (depth + 1) v := by
  cases v with
  | object i => exact absurd rfl (hv i)
  | _ => rfl

/-- The output of a moved object is the same, with budgets that reach to
its lowest items. -/
theorem outputTo (hbuilt : built) {i : ObjectId} {depth depth' : Nat}
    (hi : store.Has roots (.object i)) (hd : i < depth)
    (hd' : f i < depth') :
    store'.outputTo (depth' + 1) (.object (f i)) =
      store.outputTo (depth + 1) (.object i) := by
  induction i using Nat.strongRecOn generalizing depth depth' with
  | ind i ih =>
    obtain ⟨depth, rfl⟩ := Nat.exists_eq_add_of_lt (Nat.zero_lt_of_lt hd)
    obtain ⟨depth', rfl⟩ := Nat.exists_eq_add_of_lt (Nat.zero_lt_of_lt hd')
    simp only [Nat.zero_add] at hd hd' ⊢
    obtain ⟨hlt, hroot⟩ := hi i rfl
    obtain ⟨o, ho⟩ := exists_get? hlt
    have ho' := h.get? i o hroot ho
    have hitems {xs : List Value} (hmem : ∀ v ∈ xs, v ∈ o.values) :
        (xs.map (Value.move f)).mapM (store'.outputTo (depth' + 1)) =
          xs.mapM (store.outputTo (depth + 1)) := by
      rw [List.mapM_map]
      refine mapM_congr fun v hv => ?_
      rcases v.scalar_or_object with hscalar | ⟨j, rfl⟩
      · rw [Function.comp, Value.move_eq_self hscalar]
        exact outputTo_of_scalar hscalar _ _
      · have hj : j < i := (h.grounded hbuilt i o ho _ (hmem _ hv) j rfl).1
        have hj' : f j < f i := by
          have hmoved := Object.values_move (f := f) (g := g) o ▸
            List.mem_map_of_mem (f := Value.move f) (hmem _ hv)
          exact (h.grounded' hbuilt (f i) _ ho' _ hmoved (f j) rfl).1
        exact ih j hj (h.closed i o ho _ (hmem _ hv))
          (Nat.lt_of_lt_of_le hj (Nat.le_of_lt_succ hd))
          (Nat.lt_of_lt_of_le hj' (Nat.le_of_lt_succ hd'))
    have hprint : store'.print (.object (f i)) = store.print (.object i) :=
      h.print hi
    have hobj : store.object? (.object i) = some o := ho
    have hobj' : store'.object? (.object (f i)) = some (o.move f g) := ho'
    rw [Store.outputTo, Store.outputTo, hobj, hobj']
    cases o with
    | list xs | tuple xs =>
      simp only [Object.move, @hitems xs fun v hv => hv]
    | _ => exact hprint

/-- A moved value writes the same output, in stores that were built from the
inside out. -/
theorem output (hbuilt : built) (hv : store.Has roots v) :
    store'.output (v.move f) = store.output v := by
  rcases v.scalar_or_object with hscalar | ⟨i, rfl⟩
  · rw [Value.move_eq_self hscalar]
    exact outputTo_of_scalar hscalar _ _
  · have hi : i < store.size := (hv i rfl).1
    exact h.outputTo hbuilt hv hi (h.lt_size hi)

-- ========================================================== comparisons

variable {w : Value} {n : Nat}

omit h in
theorem identical_move (hf : Function.Injective f) (v w : Value) :
    (v.move f).identical (w.move f) = v.identical w := by
  cases v <;> cases w <;> simp [Value.move, Value.identical, hf.eq_iff]

/-- What is compared of moved values is moved. -/
theorem counterparts? (hv : store.Has roots v) (hw : store.Has roots w) :
    store'.counterparts? (v.move f) (w.move f) =
      (store.counterparts? v w).map (Counterparts.move f) := by
  rw [Store.counterparts?, Store.counterparts?, h.object? hv, h.object? hw]
  cases store.object? v with
  | none => rfl
  | some o =>
    cases store.object? w with
    | none => cases o <;> rfl
    | some o' => cases o <;> cases o' <;> rfl

/-- What is compared of values that are there is there. -/
theorem has_compared {c : Counterparts}
    (hc : store.counterparts? v w = some c) :
    ∀ x ∈ comparedValues c, store.Has roots x := by
  intro x hx
  obtain ⟨u, o, -, ho, hmem⟩ := exists_object?_of_mem hc hx
  exact h.closed.has_of_object? ho hmem

theorem inside {equal equal' : Value → Value → Except Failure Bool}
    {b : Bool}
    (himp : equal v w = .ok b → equal' (v.move f) (w.move f) = .ok b)
    (hb : Store.inside equal v w = .ok b) :
    Store.inside equal' (v.move f) (w.move f) = .ok b := by
  unfold Store.inside at hb ⊢
  rw [identical_move h.injective]
  split
  · next hsame => rwa [if_pos hsame] at hb
  · next hother =>
    rw [if_neg hother] at hb
    exact himp hb

/-- What is equal or not within a budget still is so after it has been
moved. -/
theorem equalWithin (hv : store.Has roots v) (hw : store.Has roots w)
    {b : Bool} (hb : store.equalWithin n v w = .ok b) :
    store'.equalWithin n (v.move f) (w.move f) = .ok b := by
  induction n generalizing v w b with
  | zero => cases hb
  | succ n ih =>
    have hinside (x y : Value) (hx : store.Has roots x)
        (hy : store.Has roots y) (b : Bool)
        (hb : Store.inside (store.equalWithin n) x y = .ok b) :
        Store.inside (store'.equalWithin n) (x.move f) (y.move f) = .ok b :=
      h.inside (ih hx hy) hb
    have hitems {xs ys : List Value}
        (hthere : ∀ x ∈ xs ++ ys, store.Has roots x)
        (hb : equalItems (Store.inside (store.equalWithin n)) xs ys =
          .ok b) :
        equalItems (Store.inside (store'.equalWithin n))
          (xs.map (Value.move f)) (ys.map (Value.move f)) = .ok b := by
      obtain ⟨hx, hy⟩ := List.forall_mem_append.1 hthere
      exact equalItems_map (fun x hmem y hmem' =>
        hinside x y (hx x hmem) (hy y hmem')) hb
    unfold Store.equalWithin at hb ⊢
    rw [h.counterparts? hv hw]
    cases hc : store.counterparts? v w with
    | none =>
      rw [hc] at hb
      show Except.ok ((v.move f).equal (w.move f)) = _
      rw [Value.equal_move h.injective]
      exact hb
    | some c =>
      rw [hc] at hb
      have hthere := h.has_compared hc
      cases c with
      | lists xs ys =>
        simp only [Counterparts.move, Option.map_some, List.length_map]
          at hb ⊢
        split
        · next hlength =>
          rw [if_pos hlength] at hb
          exact hitems hthere hb
        · next hlength => rwa [if_neg hlength] at hb
      | tuples xs ys => exact hitems hthere hb
      | sets xs ys =>
        obtain ⟨hx, hy⟩ := List.forall_mem_append.1 hthere
        have hsubset :
            Datum.subset (xs.map (store'.datum ∘ Value.move f))
                (ys.map (store'.datum ∘ Value.move f)) =
              Datum.subset (xs.map store.datum) (ys.map store.datum) :=
          Datum.subset_of_relocated (fun x hmem => h.datum (hx x hmem))
            (fun y hmem => h.datum (hy y hmem)) h.injective
        simp only [Counterparts.move, Option.map_some, List.length_map,
          List.map_map, hsubset] at hb ⊢
        exact hb
      | tables es fs =>
        obtain ⟨hes, hfs⟩ := List.forall_mem_append.1 hthere
        have hentries := equalEntries_map (b := b) (m := Value.move f)
          (fun e he f' hf => h.sameKey
            (hes _ (Object.mem_entryValues he).1)
            (hfs _ (Object.mem_entryValues hf).1))
          fun e he f' hf => hinside f'.2 e.2
            (hfs _ (Object.mem_entryValues hf).2)
            (hes _ (Object.mem_entryValues he).2)
        simp only [Counterparts.move, Option.map_some, equalTables,
          Object.moveEntries, List.length_map] at hb ⊢
        split
        · next hlength =>
          rw [if_pos hlength] at hb
          exact hentries hb
        · next hlength => rwa [if_neg hlength] at hb
      | quotes => exact hb

theorem comparisonDepth_le :
    store.comparisonDepth ≤ store'.comparisonDepth :=
  Nat.succ_le_succ (Nat.mul_le_mul h.size_le h.size_le)

/-- What is equal or not still is so after it has been moved. -/
theorem equal (hv : store.Has roots v) (hw : store.Has roots w) {b : Bool}
    (hb : store.equal v w = .ok b) :
    store'.equal (v.move f) (w.move f) = .ok b :=
  equalWithin_mono (h.equalWithin hv hw hb) h.comparisonDepth_le

theorem same (hv : store.Has roots v) (hw : store.Has roots w) {b : Bool}
    (hb : store.same v w = .ok b) :
    store'.same (v.move f) (w.move f) = .ok b :=
  h.inside (h.equal hv hw) hb

/-- What has an order or none within a budget still has it, or none, after
it has been moved. -/
theorem orderWithin (d : Direction) (hv : store.Has roots v)
    (hw : store.Has roots w) {o : Option Bool}
    (ho : store.orderWithin d n v w = .ok o) :
    store'.orderWithin d n (v.move f) (w.move f) = .ok o := by
  induction n generalizing v w o with
  | zero => cases ho
  | succ n ih =>
    unfold Store.orderWithin at ho ⊢
    rw [h.counterparts? hv hw]
    have hscalars : (v.move f).order? d (w.move f) = v.order? d w :=
      Value.order?_move d v w
    cases hc : store.counterparts? v w with
    | none =>
      rw [hc] at ho
      show Except.ok ((v.move f).order? d (w.move f)) = _
      rw [hscalars]
      exact ho
    | some c =>
      rw [hc] at ho
      have hthere := h.has_compared hc
      cases c with
      | lists xs ys | tuples xs ys =>
        obtain ⟨hx, hy⟩ := List.forall_mem_append.1 hthere
        exact orderItems_map
          (fun x hmem y hmem' _ => h.same (hx x hmem) (hy y hmem'))
          (fun x hmem y hmem' _ => ih (hx x hmem) (hy y hmem')) ho
      | sets xs ys =>
        obtain ⟨hx, hy⟩ := List.forall_mem_append.1 hthere
        have horder :
            Datum.orderSets d (xs.map (store'.datum ∘ Value.move f))
                (ys.map (store'.datum ∘ Value.move f)) =
              Datum.orderSets d (xs.map store.datum) (ys.map store.datum) :=
          Datum.orderSets_of_relocated (fun x hmem => h.datum (hx x hmem))
            (fun y hmem => h.datum (hy y hmem)) h.injective d
        simp only [Counterparts.move, Option.map_some, List.map_map,
          horder] at ho ⊢
        exact ho
      | tables | quotes =>
        show Except.ok ((v.move f).order? d (w.move f)) = _
        rw [hscalars]
        exact ho

/-- What has an order or none still has it, or none, after it has been
moved. -/
theorem order? (d : Direction) (hv : store.Has roots v)
    (hw : store.Has roots w) {o : Option Bool}
    (ho : store.order? d v w = .ok o) :
    store'.order? d (v.move f) (w.move f) = .ok o :=
  orderWithin_mono (h.orderWithin d hv hw ho) h.comparisonDepth_le

-- =========================================================== operators

/-- In a store that was built from the inside out no value contains
itself. -/
theorem acyclic (hbuilt : built) (hv : store.Has roots v) :
    store.Acyclic v :=
  ((h.grounded hbuilt).endsWithin hv).acyclic

/-- Equality as conditions ask for it says the same of moved values. -/
theorem isEqual? (hbuilt : built) (hv : store.Has roots v)
    (hw : store.Has roots w) :
    store'.isEqual? (v.move f) (w.move f) = store.isEqual? v w := by
  have hequal : store'.equal (v.move f) (w.move f) = store.equal v w := by
    obtain ⟨b, hb⟩ := equal_succeeds (Or.inl (h.acyclic hbuilt hv)) (w := w)
    rw [hb, h.equal hv hw hb]
  have htest {u : Value} (hu : store.Has roots u) (p : Probe) :
      p.test (store'.datum (u.move f)) = p.test (store.datum u) :=
    (h.datum hu).test p
  cases v <;> cases w <;> first
    | rfl
    | exact htest hv _
    | exact htest hw _
    | exact congrArg (Except.map some) hequal

/-- Order as conditions ask for it says the same of moved values. -/
theorem isOrdered (hbuilt : built) (d : Direction)
    (hv : store.Has roots v) (hw : store.Has roots w) :
    store'.isOrdered d (v.move f) (w.move f) = store.isOrdered d v w := by
  obtain ⟨o, ho⟩ :=
    order?_succeeds (d := d) (Or.inl (h.acyclic hbuilt hv)) (w := w)
  simp only [Store.isOrdered, (h.datum hv).isOrderable,
    (h.datum hw).isOrderable, (h.datum hv).typeName, (h.datum hw).typeName,
    ho, h.order? d hv hw ho]

/-- The same values are among moved keys. -/
theorem isAmong {keys : List Value} (hv : store.Has roots v)
    (hkeys : ∀ k ∈ keys, store.Has roots k) :
    store'.isAmong (v.move f) (keys.map (Value.move f)) =
      store.isAmong v keys := by
  have hany : (keys.map (Value.move f)).any (store'.sameKey (v.move f)) =
      keys.any (store.sameKey v) := by
    rw [List.any_map, Bool.eq_iff_iff, List.any_eq_true, List.any_eq_true]
    exact exists_congr fun k => and_congr_right fun hk => by
      rw [Function.comp, h.sameKey hv (hkeys k hk)]
  rw [Store.isAmong, Store.isAmong, h.isHashable hv, hany]

/-- A moved container holds the same. -/
theorem holds (hbuilt : built) (hv : store.Has roots v)
    (hw : store.Has roots w) :
    store'.holds (v.move f) (w.move f) = store.holds v w := by
  have hitems {xs : List Value} (hxs : ∀ x ∈ xs, store.Has roots x) :
      (xs.map (Value.move f)).anyM (fun x => store'.same x (w.move f)) =
        xs.anyM fun x => store.same x w := by
    obtain ⟨b, hb⟩ : Succeeds (xs.anyM fun x => store.same x w) :=
      anyM_succeeds fun x hx =>
        same_succeeds (Or.inl (h.acyclic hbuilt (hxs x hx)))
    rw [hb]
    exact anyM_map (fun x hx _ => h.same (hxs x hx) hw) hb
  cases v with
  | text s =>
    show (store'.output (w.move f) >>= _) = _
    rw [h.output hbuilt hw]
    rfl
  | bytes | range => cases w <;> rfl
  | object i =>
    have hobject : store'.object? (.object (f i)) = _ := h.object? hv
    have hvalues {o : Object} (ho : store.object? (.object i) = some o) :
        ∀ x ∈ o.values, store.Has roots x :=
      fun x hx => h.closed.has_of_object? ho hx
    show store'.holds (.object (f i)) (w.move f) = _
    simp only [Store.holds, hobject]
    cases ho : store.object? (.object i) with
    | none => rfl
    | some o =>
      cases o with
      | list xs | tuple xs => exact hitems (hvalues ho)
      | set xs => exact congrArg Except.ok (h.isAmong hw (hvalues ho))
      | table es | frozen es =>
        have hkeys : ∀ k ∈ es.map Prod.fst, store.Has roots k := by
          refine List.forall_mem_map.2 fun e he => ?_
          exact hvalues ho _ (Object.mem_entryValues he).1
        have hfst : (Object.moveEntries f es).map Prod.fst =
            (es.map Prod.fst).map (Value.move f) := by
          rw [Object.moveEntries, List.map_map, List.map_map]
          rfl
        show Except.ok (store'.isAmong (w.move f)
          ((Object.moveEntries f es).map Prod.fst)) = _
        rw [hfst, h.isAmong hw hkeys]
      | _ => rfl
  | _ => rfl

/-- An operator says the same of moved values, in stores that were built from
the inside out. -/
theorem apply (hbuilt : built) (op : Operator) {a b : Value}
    (ha : store.Has roots a) (hb : store.Has roots b) :
    op.apply store' (a.move f) (b.move f) = op.apply store a b := by
  cases op with
  | equal | unequal | lessOrGreater =>
    simp only [Operator.apply, h.isEqual? hbuilt ha hb]
  | order d => simp only [Operator.apply, h.isOrdered hbuilt d ha hb]
  | contains =>
    simp only [Operator.apply, Value.isTruthy_move, h.holds hbuilt ha hb]

/-- A moved value counts as the same integer. -/
theorem toInteger (hv : store.Has roots v) :
    (v.move f).toInteger store'.display = v.toInteger store.display := by
  have hshown := congrArg
    (fun s => s >>= fun s => Except.error (α := Int) (.notAnInteger s))
    (h.display hv)
  cases v with
  | nil | int | float | text => rfl
  | _ => exact hshown

end Store.Moved

end
end Stencil
