/-
Data whose objects stand at other places.

A store numbers its objects, and the numbers have no meaning of their
own: they tell objects apart, and nothing else is ever done with them. So
whatever is said about data (whether they are equal, how they compare,
what they hold, how they show) stays the same when every object is moved
to another place, as long as no two are moved to the same one.

The one exception is a value that refers to an object its store does not
have. It shows by its number. Data in which that does not happen are
`Sound`, and only what is shown of data asks for it.

Nothing is ever said of the value that a host object stands for, so this is
left behind when the host object is moved. That way data that differ in
nothing else are the same once they have been moved (`Relocated`).
-/
import Mathlib.Logic.Function.Basic
import Stencil.Operator

namespace Stencil

-- ============================================================== moving

/-- A value after its object has been moved. -/
def Value.move (f : ObjectId → ObjectId) : Value → Value
  | .object id => .object (f id)
  | v => v

/-- A value is no object. -/
def Value.IsScalar (v : Value) : Prop := ∀ id, v ≠ .object id

theorem Value.isScalar_nil : Value.nil.IsScalar :=
  fun id h => by cases h

theorem Value.isScalar_text (s : String) : (Value.text s).IsScalar :=
  fun id h => by cases h

/-- A value is a scalar or refers to an object. -/
theorem Value.scalar_or_object (v : Value) :
    v.IsScalar ∨ ∃ i, v = .object i := by
  cases v with
  | object i => exact Or.inr ⟨i, rfl⟩
  | _ => exact Or.inl fun i h => by cases h

namespace Datum

mutual

/-- A datum after its objects have been moved. What host objects stand for
is left behind. -/
def move (f : ObjectId → ObjectId) : Datum → Datum
  | .atom v => .atom (v.move f)
  | .list id items => .list (f id) (moveAll f items)
  | .tuple id items => .tuple (f id) (moveAll f items)
  | .set id items => .set (f id) (moveAll f items)
  | .table id entries => .table (f id) (moveEntries f entries)
  | .frozen id entries => .frozen (f id) (moveEntries f entries)
  | .host id _ => .host (f id) (.atom .nil)
  | .handle id label => .handle (f id) label
  | .drop id label bound => .drop (f id) label bound
  | .deferred id label form => .deferred (f id) label form
  | .quoted id expr => .quoted (f id) expr
  | .again id shape => .again (f id) shape

/-- Data after their objects have been moved. -/
def moveAll (f : ObjectId → ObjectId) : List Datum → List Datum
  | [] => []
  | d :: rest => move f d :: moveAll f rest

/-- Entries after their objects have been moved. -/
def moveEntries (f : ObjectId → ObjectId) :
    List (Datum × Datum) → List (Datum × Datum)
  | [] => []
  | (k, v) :: rest => (move f k, move f v) :: moveEntries f rest

end

mutual

/-- No value refers to an object that is not there. -/
def Sound : Datum → Prop
  | .atom v => v.IsScalar
  | .list _ items | .tuple _ items | .set _ items => AllSound items
  | .table _ entries | .frozen _ entries => EntriesSound entries
  | _ => True

/-- None of the data has such a value. -/
def AllSound : List Datum → Prop
  | [] => True
  | d :: rest => Sound d ∧ AllSound rest

/-- None of the entries has such a value. -/
def EntriesSound : List (Datum × Datum) → Prop
  | [] => True
  | (k, v) :: rest => Sound k ∧ Sound v ∧ EntriesSound rest

end

section

variable {f : ObjectId → ObjectId}

theorem moveAll_eq_map (xs : List Datum) : moveAll f xs = xs.map (move f) := by
  induction xs with
  | nil => rfl
  | cons x xs ih => rw [moveAll, ih, List.map_cons]

theorem moveEntries_eq_map (xs : List (Datum × Datum)) :
    moveEntries f xs = xs.map fun e => (move f e.1, move f e.2) := by
  induction xs with
  | nil => rfl
  | cons x xs ih => rw [moveEntries, ih, List.map_cons]

theorem allSound_iff {xs : List Datum} : AllSound xs ↔ ∀ d ∈ xs, Sound d := by
  induction xs with
  | nil => simp [AllSound]
  | cons x xs ih => rw [AllSound, ih, List.forall_mem_cons]

theorem entriesSound_iff {xs : List (Datum × Datum)} :
    EntriesSound xs ↔ ∀ e ∈ xs, Sound e.1 ∧ Sound e.2 := by
  induction xs with
  | nil => simp [EntriesSound]
  | cons x xs ih => rw [EntriesSound, ih, List.forall_mem_cons, and_assoc]

@[simp] theorem length_moveAll (xs : List Datum) :
    (moveAll f xs).length = xs.length := by
  rw [moveAll_eq_map, List.length_map]

@[simp] theorem length_moveEntries (xs : List (Datum × Datum)) :
    (moveEntries f xs).length = xs.length := by
  rw [moveEntries_eq_map, List.length_map]

-- ============================================================ identity

theorem id?_move (d : Datum) : (d.move f).id? = d.id?.map f := by
  cases d with
  | atom v => cases v <;> rfl
  | _ => rfl

/-- Moved data are one object when they were one before. -/
theorem identical_move (hf : Function.Injective f) (a b : Datum) :
    identical (a.move f) (b.move f) = identical a b := by
  unfold identical
  rw [id?_move, id?_move]
  cases a.id? with
  | none => rfl
  | some i =>
    cases b.id? with
    | none => rfl
    | some j => simp [hf.eq_iff]

end

end Datum

/-- Scalars do not move. -/
theorem Value.move_eq_self {f : ObjectId → ObjectId} {v : Value}
    (h : v.IsScalar) : v.move f = v := by
  cases v with
  | object id => exact absurd rfl (h id)
  | _ => rfl

/-- Objects hold as conditions wherever they are. -/
theorem Value.isTruthy_move {f : ObjectId → ObjectId} (v : Value) :
    (v.move f).isTruthy = v.isTruthy := by
  cases v <;> rfl

/-- Moved objects are equal when they were the same object before. -/
theorem Value.equal_move {f : ObjectId → ObjectId}
    (hf : Function.Injective f) (v w : Value) :
    (v.move f).equal (w.move f) = v.equal w := by
  cases v <;> cases w <;> simp [Value.move, Value.equal, Value.quantity?,
    Value.equalPlain, hf.eq_iff]

/-- Objects have no order among the scalars. -/
theorem Value.order?_move {f : ObjectId → ObjectId} (d : Direction)
    (v w : Value) : (v.move f).order? d (w.move f) = v.order? d w := by
  cases v <;> cases w <;> rfl

namespace Datum

section

variable {f : ObjectId → ObjectId}

/-- A value is a scalar wherever objects are. -/
theorem isScalar_move {v : Value} : (v.move f).IsScalar ↔ v.IsScalar := by
  rcases v.scalar_or_object with h | ⟨i, rfl⟩
  · rw [Value.move_eq_self h]
  · exact ⟨fun h => absurd rfl (h (f i)), fun h => absurd rfl (h i)⟩

mutual

/-- Data stay sound when they are moved, and were so before. -/
theorem sound_move : ∀ d : Datum, (d.move f).Sound ↔ d.Sound
  | .atom _ => isScalar_move
  | .list _ items | .tuple _ items | .set _ items => allSound_move items
  | .table _ entries | .frozen _ entries => entriesSound_move entries
  | .host .. | .handle .. | .drop .. | .deferred .. | .quoted ..
  | .again .. => Iff.rfl

theorem allSound_move :
    ∀ xs : List Datum, AllSound (moveAll f xs) ↔ AllSound xs
  | [] => Iff.rfl
  | d :: rest => and_congr (sound_move d) (allSound_move rest)

theorem entriesSound_move :
    ∀ xs : List (Datum × Datum),
      EntriesSound (moveEntries f xs) ↔ EntriesSound xs
  | [] => Iff.rfl
  | (k, v) :: rest =>
    and_congr (sound_move k)
      (and_congr (sound_move v) (entriesSound_move rest))

end

mutual

/-- Whether a datum can be a key does not depend on places. -/
theorem isHashable_move : ∀ d : Datum, (d.move f).isHashable = d.isHashable
  | .tuple _ items => by
    simp only [move, isHashable, allHashable_move items]
  | .atom _ | .list .. | .set .. | .table .. | .frozen .. | .host ..
  | .handle .. | .drop .. | .deferred .. | .quoted .. | .again .. => rfl

theorem allHashable_move :
    ∀ xs : List Datum, allHashable (moveAll f xs) = allHashable xs
  | [] => rfl
  | d :: rest => by
    simp only [moveAll, allHashable, isHashable_move d,
      allHashable_move rest]

end

-- ============================================================ equality

mutual

/-- Equality of data does not depend on places. -/
theorem equal_move (hf : Function.Injective f) :
    ∀ a b : Datum, (a.move f).equal (b.move f) = a.equal b
  | .atom v, b => by
    cases b <;> simp [move, equal, Value.equal_move hf]
  | .tuple _ xs, b => by
    cases b <;> simp [move, equal, equalItems_move hf xs]
  | .host .., b | .handle .., b | .drop .., b | .deferred .., b => by
    cases b <;> simp [move, equal, hf.eq_iff]
  | .list .., b | .set .., b | .table .., b | .frozen .., b | .quoted .., b
  | .again .., b => by
    cases b <;> simp [move, equal]

theorem equalItems_move (hf : Function.Injective f) :
    ∀ xs ys : List Datum,
      equalItems (moveAll f xs) (moveAll f ys) = equalItems xs ys
  | [], ys => by
    cases ys <;> simp [moveAll, equalItems]
  | x :: xs, [] => by
    simp [moveAll, equalItems]
  | x :: xs, y :: ys => by
    simp only [moveAll, equalItems, identical_move hf, equal_move hf x y,
      equalItems_move hf xs ys]

end

/-- Moved data count as one when they did before. -/
theorem same_move (hf : Function.Injective f) (a b : Datum) :
    same (a.move f) (b.move f) = same a b := by
  unfold same
  rw [identical_move hf, equal_move hf]

/-- Inclusion of sets does not depend on places. -/
theorem subset_move (hf : Function.Injective f) (xs ys : List Datum) :
    subset (moveAll f xs) (moveAll f ys) = subset xs ys := by
  have hany : ∀ x, (moveAll f ys).any (same (x.move f)) =
      ys.any (same x) := by
    intro x
    rw [moveAll_eq_map, List.any_map]
    congr 1
    funext y
    exact same_move hf x y
  rw [moveAll_eq_map, subset, subset, List.all_map]
  congr 1
  funext x
  exact hany x

-- =============================================================== order

theorem orderSets_move (hf : Function.Injective f) (d : Direction)
    (xs ys : List Datum) :
    orderSets d (moveAll f xs) (moveAll f ys) = orderSets d xs ys := by
  cases d <;> simp only [orderSets, length_moveAll, subset_move hf]

-- ================================================================ text

theorem sortKey?_move (d : Datum) : (d.move f).sortKey? = d.sortKey? := by
  cases d with
  | atom v => cases v <;> rfl
  | _ => rfl

/-- The members of a set are written in the same order. -/
theorem arrange_move (xs : List Datum) (texts : List String) :
    arrange ((moveAll f xs).zip texts) = arrange (xs.zip texts) := by
  have hzip : (moveAll f xs).zip texts =
      (xs.zip texts).map fun e => (e.1.move f, e.2) := by
    rw [moveAll_eq_map, List.zip_map_left]
    rfl
  rw [hzip, arrange, arrange, ← List.map_mergeSort, List.map_map]
  · rfl
  · intro a _ b _
    simp only [sortKey?_move]

mutual

/-- How a datum shows does not depend on places, if it is sound. -/
theorem display_move :
    ∀ d : Datum, d.Sound → (d.move f).display = d.display
  | .atom v, h => by
    rw [move, display, display, Value.move_eq_self h]
  | .list _ items, h | .tuple _ items, h => by
    simp only [move, display, displayAll_move items h]
  | .set _ items, h => by
    simp only [move, display, displayAll_move items h, arrange_move]
  | .table _ entries, h | .frozen _ entries, h => by
    simp only [move, display, displayEntries_move entries h]
  | .host .., _ | .handle .., _ | .drop .., _ | .deferred .., _
  | .quoted .., _ | .again .., _ => by
    simp only [move, display]

theorem displayAll_move :
    ∀ xs : List Datum, AllSound xs →
      displayAll (moveAll f xs) = displayAll xs
  | [], _ => rfl
  | d :: rest, h => by
    simp only [moveAll, displayAll, display_move d h.1,
      displayAll_move rest h.2]

theorem displayEntries_move :
    ∀ xs : List (Datum × Datum), EntriesSound xs →
      displayEntries (moveEntries f xs) = displayEntries xs
  | [], _ => rfl
  | (k, v) :: rest, h => by
    simp only [moveEntries, displayEntries, display_move k h.1,
      display_move v h.2.1, displayEntries_move rest h.2.2]

end

/-- How a datum reads does not depend on places, if it is sound. -/
theorem print_move (d : Datum) (h : d.Sound) :
    (d.move f).print = d.print := by
  cases d with
  | atom v => rw [move, print, print, Value.move_eq_self h]
  | frozen id entries =>
    simp only [move, print, displayEntries_move entries h]
  | quoted => rfl
  | _ => exact display_move _ h

mutual

/-- Whether a datum can be written does not depend on places. -/
theorem isWritable_move :
    ∀ d : Datum, (d.move f).isWritable = d.isWritable
  | .atom v => by
    cases v <;> rfl
  | .list _ items | .tuple _ items | .set _ items => by
    simp only [move, isWritable, allWritable_move items]
  | .table _ entries | .frozen _ entries => by
    simp only [move, isWritable, entriesWritable_move entries]
  | .host .. | .handle .. | .drop .. | .deferred .. | .quoted ..
  | .again .. => by
    simp only [move, isWritable]

theorem allWritable_move :
    ∀ xs : List Datum, allWritable (moveAll f xs) = allWritable xs
  | [] => rfl
  | d :: rest => by
    simp only [moveAll, allWritable, isWritable_move d,
      allWritable_move rest]

theorem entriesWritable_move :
    ∀ xs : List (Datum × Datum),
      entriesWritable (moveEntries f xs) = entriesWritable xs
  | [] => rfl
  | (k, v) :: rest => by
    simp only [moveEntries, entriesWritable, isWritable_move k,
      isWritable_move v, entriesWritable_move rest]

end

-- =========================================================== operators

theorem length?_move (d : Datum) : (d.move f).length? = d.length? := by
  cases d with
  | atom v => cases v <;> rfl
  | _ => simp only [move, length?, length_moveAll, length_moveEntries]

/-- A probe says the same of a datum wherever its objects are. -/
theorem test_move (p : Probe) (d : Datum) :
    p.test (d.move f) = p.test d := by
  cases p with
  | empty => simp only [Probe.test, length?_move]
  | blank =>
    cases d with
    | atom v => cases v <;> rfl
    | _ => simp only [move, Probe.test, length?, length_moveAll,
        length_moveEntries]

theorem isOrderable_move (d : Datum) :
    (d.move f).isOrderable = d.isOrderable := by
  cases d with
  | atom v => cases v <;> rfl
  | again id shape => cases shape <;> rfl
  | _ => rfl

theorem typeName_move (d : Datum) : (d.move f).typeName = d.typeName := by
  cases d with
  | atom v => cases v <;> rfl
  | again id shape => cases shape <;> rfl
  | deferred id label form => cases form <;> rfl
  | quoted id e => cases e <;> rfl
  | _ => rfl

-- =========================================================== relocated

/-- A sound datum is another one with its objects moved, whatever its host
objects stand for. -/
structure Relocated (f : ObjectId → ObjectId) (d d' : Datum) : Prop where
  sound : d.Sound
  eq : d'.move id = d.move f

theorem Relocated.of_scalar {v : Value} (h : v.IsScalar) :
    Relocated f (.atom v) (.atom v) := by
  refine ⟨h, ?_⟩
  rw [move, move, Value.move_eq_self h, Value.move_eq_self h]

namespace Relocated

variable {a a' b b' : Datum} (h : Relocated f a a') (h' : Relocated f b b')

include h

theorem isHashable : a'.isHashable = a.isHashable := by
  rw [← isHashable_move (f := id), h.eq, isHashable_move]

theorem length? : a'.length? = a.length? := by
  rw [← length?_move (f := id), h.eq, length?_move]

theorem sound' : a'.Sound := by
  rw [← sound_move (f := id), h.eq, sound_move]
  exact h.sound

theorem display : a'.display = a.display := by
  rw [← display_move (f := id) _ h.sound', h.eq, display_move _ h.sound]

theorem print : a'.print = a.print := by
  rw [← print_move (f := id) _ h.sound', h.eq, print_move _ h.sound]

theorem isWritable : a'.isWritable = a.isWritable := by
  rw [← isWritable_move (f := id), h.eq, isWritable_move]

theorem test (p : Probe) : p.test a' = p.test a := by
  rw [← test_move (f := id), h.eq, test_move]

theorem isOrderable : a'.isOrderable = a.isOrderable := by
  rw [← isOrderable_move (f := id), h.eq, isOrderable_move]

theorem typeName : a'.typeName = a.typeName := by
  rw [← typeName_move (f := id), h.eq, typeName_move]

include h'

variable (hf : Function.Injective f)

include hf

theorem same : Datum.same a' b' = Datum.same a b := by
  rw [← same_move Function.injective_id, h.eq, h'.eq, same_move hf]

end Relocated

section

variable {α : Type} {u u' : α → Datum} {xs ys : List α}
  (hxs : ∀ x ∈ xs, Relocated f (u x) (u' x))
  (hys : ∀ y ∈ ys, Relocated f (u y) (u' y))

include hxs

/-- What is moved one by one is moved as a list. -/
theorem moveAll_map_of_relocated :
    moveAll id (xs.map u') = moveAll f (xs.map u) := by
  rw [moveAll_eq_map, moveAll_eq_map, List.map_map, List.map_map]
  exact List.map_congr_left fun x hx => (hxs x hx).eq

include hys

/-- Inclusion of sets does not depend on places. -/
theorem subset_of_relocated (hf : Function.Injective f) :
    subset (xs.map u') (ys.map u') = subset (xs.map u) (ys.map u) := by
  rw [← subset_move Function.injective_id, moveAll_map_of_relocated hxs,
    moveAll_map_of_relocated hys, subset_move hf]

/-- The order of sets does not depend on places. -/
theorem orderSets_of_relocated (hf : Function.Injective f) (d : Direction) :
    orderSets d (xs.map u') (ys.map u') =
      orderSets d (xs.map u) (ys.map u) := by
  rw [← orderSets_move Function.injective_id, moveAll_map_of_relocated hxs,
    moveAll_map_of_relocated hys, orderSets_move hf]

end

end

end Datum
end Stencil
