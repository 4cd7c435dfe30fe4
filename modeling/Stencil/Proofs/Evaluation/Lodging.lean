/-
A deferred value that stands in one slot, and nowhere else.

Calls are counted by label, so nothing else may have the label of the
value. While the value stands in its slot a call of it is due. Where it is
called for its slot the slot is filled, and the call that was due has been
counted. So what was counted and what is due are together always as many,
and this is what is kept while evaluation makes objects and fills slots
(`Lodges`).

The one way out of the slot is a command. `first` and `last` do not force
what they find: the end of a list is answered as it is, and the first entry
of a table goes into a new list as it is (`Object.Hands`). The new list is a
second place for the value to be called from.
-/
import Stencil.Proofs.Evaluation.Memory

namespace Stencil

-- =============================================================== calls

namespace World

/-- How often deferred values of a label were called. -/
def callsOf (w : World) (label : String) : Nat :=
  (w.calls.lookup label).getD 0

theorem lookup_countCall (label other : String)
    (calls : List (String × Nat)) :
    ((countCall other calls).lookup label).getD 0 =
      (calls.lookup label).getD 0 + if label = other then 1 else 0 := by
  induction calls with
  | nil =>
    rw [countCall, List.lookup_cons, List.lookup_nil]
    by_cases h : label = other
    · simp [h]
    · simp [h, beq_eq_false_iff_ne.2 h]
  | cons call rest ih =>
    obtain ⟨l, n⟩ := call
    rw [countCall]
    by_cases hl : l = other
    · subst hl
      rw [if_pos (beq_self_eq_true l), List.lookup_cons, List.lookup_cons]
      by_cases h : label = l
      · simp [h]
      · simp [h, beq_eq_false_iff_ne.2 h]
    · rw [if_neg (by simpa using hl), List.lookup_cons, List.lookup_cons]
      by_cases h : label = l
      · have hne : label ≠ other := fun heq => hl (h.symm.trans heq)
        simp [h, hl]
      · simp only [beq_eq_false_iff_ne.2 h]
        exact ih

/-- One more call of a label is counted. -/
theorem callsOf_count (w : World) (label other : String) :
    callsOf { w with calls := countCall other w.calls } label =
      w.callsOf label + if label = other then 1 else 0 :=
  lookup_countCall label other w.calls

end World

/-- Calls are never forgotten. -/
theorem Evolves.callsOf_le {w u : World} {forced : Forcings}
    (h : Evolves w forced u) (label : String) :
    w.callsOf label ≤ u.callsOf label := by
  induction h with
  | start w => exact Nat.le_refl _
  | tell _ _ ih | make _ _ ih | add _ _ ih => exact ih
  | count other _ ih =>
    rw [World.callsOf_count]
    exact Nat.le_add_right_of_le ih
  | memo _ _ _ _ _ _ ih ihDuring => exact Nat.le_trans ih ihDuring

-- ============================================================ commands

mutual

/-- All commands in an expression meet a condition. -/
def Expr.Commands (P : Command → Prop) : Expr → Prop
  | .const _ => True
  | .path p => p.Commands P
  | .range first last => first.Commands P ∧ last.Commands P

/-- All commands in a path meet a condition. -/
def Path.Commands (P : Command → Prop) : Path → Prop
  | .root name => name.Commands P
  | .step path key command =>
    path.Commands P ∧ key.Commands P ∧ ∀ c ∈ command, P c

end

mutual

theorem Expr.commands_of_forall {P : Command → Prop} (h : ∀ c, P c) :
    ∀ e : Expr, e.Commands P
  | .const _ => trivial
  | .path p => p.commands_of_forall h
  | .range first last => ⟨first.commands_of_forall h,
      last.commands_of_forall h⟩

theorem Path.commands_of_forall {P : Command → Prop} (h : ∀ c, P c) :
    ∀ p : Path, p.Commands P
  | .root name => name.commands_of_forall h
  | .step path key _ => ⟨path.commands_of_forall h,
      key.commands_of_forall h, fun c _ => h c⟩

end

/-- The markup that a member of a drop evaluates. -/
def Member.markups : Member → List String
  | .reader markup => [markup]
  | _ => []

/-- The markup that a deferred value evaluates. -/
def Deed.markups : Deed → List String
  | .read markup => [markup]
  | _ => []

/-- A member that is found brings its markup with it. -/
theorem Drop.markups_of_lookup {d : Drop} {name : String} {m : Member}
    (h : d.members.lookup name = some m) :
    ∀ s ∈ m.markups, s ∈ d.members.flatMap fun m => m.2.markups := by
  intro s hs
  obtain ⟨before, after, hsplit, -⟩ := List.lookup_eq_some_iff.1 h
  refine List.mem_flatMap.2 ⟨(name, m), ?_, hs⟩
  rw [hsplit]
  exact List.mem_append_right _ (List.mem_cons_self ..)

namespace Object

/-- All markup that an object evaluates. -/
def markups : Object → List String
  | .drop d => d.members.flatMap fun m => m.2.markups
  | .deferred d => d.deed.markups
  | _ => []

/-- A command hands out what a slot of an object holds, unforced: the ends
of a list, or the first value of a table. -/
def Hands : Object → Nat → Command → Prop
  | .list _, k, .first => k = 0
  | .list items, k, .last => k + 1 = items.length
  | .table _, k, .first => k = 0
  | _, _, _ => False

/-- A command hands out what a slot of an object holds in a list of its
own. -/
def Wraps : Object → Nat → Command → Prop
  | .table _, k, .first => k = 0
  | _, _, _ => False

variable {o o' : Object} {k : Nat} {v y : Value}

theorem markups_refill : (o.refill k y).markups = o.markups := by
  cases o with
  | _ => rfl

/-- What a command hands out depends on the hull. -/
theorem Hands.of_hull {c : Command} (hull : o'.hull = o.hull)
    (h : o.Hands k c) : o'.Hands k c := by
  rcases hull_eq hull with ⟨xs, ys, rfl, rfl, hlength⟩ |
    ⟨es, es', rfl, rfl, -⟩ | rfl
  · cases c with
    | first => exact h
    | last => exact Eq.trans h hlength.symm
    | size => exact h
  · cases c with
    | _ => exact h
  · exact h

theorem Wraps.of_hull {c : Command} (hull : o'.hull = o.hull)
    (h : o.Wraps k c) : o'.Wraps k c := by
  rcases hull_eq hull with ⟨xs, ys, rfl, rfl, -⟩ | ⟨es, es', rfl, rfl, -⟩ |
    rfl
  · exact h
  · cases c with
    | _ => exact h
  · exact h

/-- What is handed out in a list is handed out. -/
theorem Wraps.hands {c : Command} (h : o.Wraps k c) : o.Hands k c := by
  cases o with
  | table es =>
    cases c with
    | _ => exact h
  | _ => exact h.elim

end Object

namespace Store

variable {store : Store} {v z : Value}

/-- A position is counted from the start, or from the end. -/
theorem position?_eq_some {length k : Nat} {index : Int}
    (h : position? length index = some k) :
    (k : Int) = if index < 0 then index + length else index := by
  unfold position? at h
  dsimp only at h
  generalize (if index < 0 then index + (length : Int) else index) = i at h ⊢
  split at h
  · next hbounds =>
    rw [Bool.and_eq_true, decide_eq_true_eq] at hbounds
    rw [← Option.some.inj h]
    exact Int.toNat_of_nonneg hbounds.1
  · cases h

/-- An item of a value is one of the values of its object. -/
theorem values_of_mem_items (h : z ∈ store.items v) :
    ∃ i o, v = .object i ∧ store.get? i = some o ∧ z ∈ o.values := by
  unfold items at h
  split at h
  · next ho =>
    obtain ⟨i, hi, ho⟩ := object?_eq_some.1 ho
    exact ⟨i, _, hi, ho, h⟩
  · next ho =>
    obtain ⟨i, hi, ho⟩ := object?_eq_some.1 ho
    exact ⟨i, _, hi, ho, h⟩
  · cases h

/-- A part of a value is one of the values of its object, or a scalar. -/
theorem values_of_fetch {key : Value} (h : store.fetch v key = .ok z) :
    (∃ i o, v = .object i ∧ store.get? i = some o ∧ z ∈ o.values) ∨
      z.IsScalar := by
  rcases fetch_cases h with ⟨e, he, rfl⟩ | hitem | hscalar
  · obtain ⟨i, o, hi, ho, -, hz⟩ := slots_of_mem_entries he
    exact Or.inl ⟨i, o, hi, ho, Object.mem_values_of_mem_slots hz⟩
  · exact Or.inl (values_of_mem_items hitem)
  · exact Or.inr hscalar

end Store

-- ============================================================= lodging

/-- A deferred value, and the slot of a list or table that it stands in:
the places of both, and what they are there. -/
structure Lodger where
  place : ObjectId
  deferred : Deferred
  home : ObjectId
  container : Object
  slot : Nat

namespace Lodger

/-- The deferred value. -/
def value (x : Lodger) : Value := .object x.place

/-- The label by which its calls are counted. -/
def label (x : Lodger) : String := x.deferred.label

/-- Markup in which no command may hand out what the slot holds. -/
def Guarded (x : Lodger) (markup : String) : Prop :=
  ∀ e, Expr.parse markup = .ok e →
    e.Commands fun c => ¬x.container.Hands x.slot c

/-- In an object, at its place, the lodger may only stand in its own slot;
its label and its place belong together, and no markup hands it out. -/
structure Clear (x : Lodger) (i : ObjectId) (o : Object) : Prop where
  hull : x.value ∉ o.hull.values
  slots : ∀ k, o.slot? k = some x.value → i = x.home ∧ k = x.slot
  labels : ∀ d, o = .deferred d → d.label = x.label → i = x.place
  markups : ∀ m ∈ o.markups, x.Guarded m

/-- A deferred value stands in its slot, and nowhere else in a world. -/
structure Stands (x : Lodger) (w : World) : Prop where
  deferred : w.store.get? x.place = some (.deferred x.deferred)
  home : w.store.get? x.home = some x.container
  slot : x.container.slot? x.slot = some x.value
  clear : ∀ i o, w.store.get? i = some o → x.Clear i o

/-- The calls that are due, as far as what holds the slot tells. -/
def due (x : Lodger) (o : Object) : Nat :=
  if o.slot? x.slot = some x.value then 1 else 0

/-- A deferred value stands in its slot or nowhere, and the calls that were
counted and the one that may be due are so many. -/
structure Lodges (x : Lodger) (calls : Nat) (w : World) : Prop where
  deferred : w.store.get? x.place = some (.deferred x.deferred)
  home : ∃ o, w.store.get? x.home = some o ∧ o.hull = x.container.hull ∧
    w.callsOf x.label + x.due o = calls
  clear : ∀ i o, w.store.get? i = some o → x.Clear i o

variable {x : Lodger} {calls : Nat} {w w' : World} {i : ObjectId}
  {o : Object} {v y : Value}

theorem Stands.lodges (h : x.Stands w) :
    x.Lodges (w.callsOf x.label + 1) w := by
  refine ⟨h.deferred, ⟨x.container, h.home, rfl, ?_⟩, h.clear⟩
  rw [due, if_pos h.slot]

namespace Clear

/-- Where the lodger is among the values of an object, it stands in a
slot. -/
theorem exists_slot (h : x.Clear i o) (hmem : x.value ∈ o.values) :
    ∃ k, o.slot? k = some x.value := by
  rcases Object.mem_values hmem with hhull | hslot
  · exact absurd hhull h.hull
  · exact hslot

/-- What has no slots does not refer to the lodger. -/
theorem ne_value (h : x.Clear i o) (hslots : ∀ k, o.slot? k = none)
    (hv : v ∈ o.values) : v ≠ x.value := by
  rintro rfl
  obtain ⟨k, hk⟩ := h.exists_slot hv
  rw [hslots k] at hk
  cases hk

/-- An object that does not refer to the lodger, and is not deferred. -/
theorem of_values (hvalues : x.value ∉ o.values)
    (hdeferred : ∀ d, o ≠ .deferred d)
    (hmarkups : ∀ m ∈ o.markups, x.Guarded m) : x.Clear i o where
  hull h := by
    rcases Object.mem_values_of_hull h with hmem | hnil
    · exact hvalues hmem
    · cases hnil
  slots k hk := absurd (Object.mem_values_of_slot? hk) hvalues
  labels d hd := absurd hd (hdeferred d)
  markups := hmarkups

/-- Another value in a slot. -/
theorem refill (h : x.Clear i o) (hy : y ≠ x.value) (k : Nat) :
    x.Clear i (o.refill k y) where
  hull := by
    rw [Object.hull_refill]
    exact h.hull
  slots j hj := by
    rw [Object.slot?_refill] at hj
    split at hj
    · obtain ⟨-, -, heq⟩ := Option.map_eq_some_iff.1 hj
      exact absurd heq hy
    · exact h.slots j hj
  labels d hd := h.labels d (Object.deferred_of_refill hd)
  markups := by
    rw [Object.markups_refill]
    exact h.markups

end Clear

namespace Lodges

-- ------------------------------------------------------------- changes

/-- Neither journal nor contexts matter. -/
theorem congr (h : x.Lodges calls w) (hstore : w'.store = w.store)
    (hcalls : w'.calls = w.calls) : x.Lodges calls w' := by
  obtain ⟨hdeferred, ⟨o, ho, hhull, hsum⟩, hclear⟩ := h
  rw [← hstore] at hdeferred ho hclear
  rw [World.callsOf, ← hcalls] at hsum
  exact ⟨hdeferred, ⟨o, ho, hhull, hsum⟩, hclear⟩

/-- A call of something else is counted. -/
theorem count_other (h : x.Lodges calls w) {other : String}
    (hother : other ≠ x.label) :
    x.Lodges calls { w with calls := World.countCall other w.calls } := by
  obtain ⟨o, ho, hhull, hsum⟩ := h.home
  refine ⟨h.deferred, ⟨o, ho, hhull, ?_⟩, h.clear⟩
  rw [World.callsOf_count, if_neg (Ne.symm hother)]
  exact hsum

/-- A call of the lodger is counted. -/
theorem count_own (h : x.Lodges calls w) :
    x.Lodges (calls + 1)
      { w with calls := World.countCall x.label w.calls } := by
  obtain ⟨o, ho, hhull, hsum⟩ := h.home
  refine ⟨h.deferred, ⟨o, ho, hhull, ?_⟩, h.clear⟩
  rw [World.callsOf_count, if_pos rfl]
  omega

/-- An object is made that does not refer to the lodger. -/
theorem alloc (h : x.Lodges calls w) (ho : x.Clear w.store.size o) :
    x.Lodges calls { w with store := (w.store.alloc o).2 } := by
  obtain ⟨p, hp, hhull, hsum⟩ := h.home
  refine ⟨?_, ⟨p, ?_, hhull, hsum⟩, fun i q hq => ?_⟩
  · rw [Store.get?_alloc_old o (Store.lt_size_of_get? h.deferred)]
    exact h.deferred
  · rw [Store.get?_alloc_old o (Store.lt_size_of_get? hp)]
    exact hp
  · rw [Store.get?_alloc] at hq
    split at hq
    · next hi =>
      obtain rfl := Option.some.inj hq
      exact hi ▸ ho
    · exact h.clear i q hq

/-- A slot is filled that the lodger does not stand in. -/
theorem refill (h : x.Lodges calls w) (hi : w.store.get? i = some o)
    (hy : y ≠ x.value) {k : Nat} (hk : o.slot? k ≠ some x.value) :
    x.Lodges calls { w with store := w.store.put i (o.refill k y) } := by
  obtain ⟨p, hp, hhull, hsum⟩ := h.home
  have hget := Store.get?_put (o.refill k y) (Store.lt_size_of_get? hi)
  refine ⟨?_, ?_, fun j q hq => ?_⟩
  · rw [hget]
    split
    · next hplace =>
      cases (hplace ▸ h.deferred).symm.trans hi
      rfl
    · exact h.deferred
  · by_cases hhome : x.home = i
    · obtain rfl := hhome
      obtain rfl := Option.some.inj (hi.symm.trans hp)
      refine ⟨_, by rw [hget, if_pos rfl], Object.hull_refill.trans hhull, ?_⟩
      have hdue : x.due (o.refill k y) = x.due o := by
        rw [due, due, Object.slot?_refill]
        split
        · next hslot =>
          subst hslot
          rw [if_neg hk, if_neg]
          intro heq
          obtain ⟨-, -, heq⟩ := Option.map_eq_some_iff.1 heq
          exact hy heq
        · rfl
      rw [hdue]
      exact hsum
    · exact ⟨p, by rw [hget, if_neg hhome, hp], hhull, hsum⟩
  · rw [hget] at hq
    split at hq
    · next hj =>
      subst hj
      obtain rfl := Option.some.inj hq
      exact (h.clear _ _ hi).refill hy k
    · exact h.clear j q hq

/-- The slot is filled that the lodger stands in: the call that was due has
been counted. -/
theorem refill_own (h : x.Lodges (calls + 1) w)
    (hi : w.store.get? i = some o) (hy : y ≠ x.value) {k : Nat}
    (hk : o.slot? k = some x.value) :
    x.Lodges calls { w with store := w.store.put i (o.refill k y) } := by
  obtain ⟨p, hp, hhull, hsum⟩ := h.home
  obtain ⟨rfl, rfl⟩ := (h.clear i o hi).slots k hk
  obtain rfl := Option.some.inj (hi.symm.trans hp)
  have hget := Store.get?_put (o.refill x.slot y)
    (Store.lt_size_of_get? hi)
  refine ⟨?_, ⟨_, by rw [hget, if_pos rfl],
    Object.hull_refill.trans hhull, ?_⟩, fun j q hq => ?_⟩
  · rw [hget]
    split
    · next hplace =>
      cases (hplace ▸ h.deferred).symm.trans hi
      cases hk
    · exact h.deferred
  · have hdue : x.due (o.refill x.slot y) = 0 := by
      rw [due, Object.slot?_refill, if_pos rfl, hk, if_neg]
      exact fun heq => hy (Option.some.inj heq)
    rw [due, if_pos hk] at hsum
    rw [hdue]
    exact Nat.succ.inj hsum
  · rw [hget] at hq
    split at hq
    · next hj =>
      subst hj
      obtain rfl := Option.some.inj hq
      exact (h.clear _ _ hi).refill hy _
    · exact h.clear j q hq

/-- Where the lodger stands it is due, and stands in its home. -/
theorem sum_of_slot (h : x.Lodges calls w) (ho : w.store.get? i = some o)
    {k : Nat} (hk : o.slot? k = some x.value) :
    i = x.home ∧ k = x.slot ∧ w.callsOf x.label + 1 = calls := by
  obtain ⟨p, hp, -, hsum⟩ := h.home
  obtain ⟨rfl, rfl⟩ := (h.clear i o ho).slots k hk
  obtain rfl := Option.some.inj (ho.symm.trans hp)
  rw [due, if_pos hk] at hsum
  exact ⟨rfl, rfl, hsum⟩

/-- Where something else stands in the slot, no call is due. -/
theorem sum_of_other (h : x.Lodges calls w)
    (ho : w.store.get? x.home = some o)
    (hk : o.slot? x.slot ≠ some x.value) : w.callsOf x.label = calls := by
  obtain ⟨p, hp, -, hsum⟩ := h.home
  obtain rfl := Option.some.inj (ho.symm.trans hp)
  rw [due, if_neg hk] at hsum
  exact hsum

/-- Where a call is due, the lodger stands in its slot. -/
theorem slot_of_lt (h : x.Lodges calls w) (hlt : w.callsOf x.label < calls) :
    ∃ o, w.store.get? x.home = some o ∧ o.slot? x.slot = some x.value := by
  obtain ⟨p, hp, -, hsum⟩ := h.home
  refine ⟨p, hp, ?_⟩
  unfold due at hsum
  split at hsum
  · next hslot => exact hslot
  · omega

-- --------------------------------------------------------- handing out

/-- What is fetched is the lodger only from where it stands in a slot. -/
theorem slot_of_fetch (h : x.Lodges calls w) {key : Value}
    (hfetch : w.store.fetch v key = .ok x.value) :
    ∃ i o k, v = .object i ∧ w.store.get? i = some o ∧
      o.slot? k = some x.value := by
  rcases Store.values_of_fetch hfetch with ⟨i, o, rfl, ho, hmem⟩ | hscalar
  · obtain ⟨k, hk⟩ := (h.clear i o ho).exists_slot hmem
    exact ⟨i, o, k, rfl, ho, hk⟩
  · exact absurd rfl (hscalar x.place)

/-- The home is the container with other values in its slots, so that
commands hand out what they would have handed out of the container. -/
theorem hull_home (h : x.Lodges calls w)
    (ho : w.store.get? x.home = some o) : x.container.hull = o.hull := by
  obtain ⟨p, hp, hhull, -⟩ := h.home
  obtain rfl := Option.some.inj (ho.symm.trans hp)
  exact hhull.symm

/-- An item is the lodger only at its position in its home. -/
theorem position_of_item (h : x.Lodges calls w) {index : Int}
    (hitem : w.store.item v index = x.value) :
    ∃ xs, w.store.get? x.home = some (.list xs) ∧
      Store.position? xs.length index = some x.slot := by
  have hrange : ∀ first stop, v ≠ .range first stop := by
    rintro first stop rfl
    simp only [Store.item] at hitem
    split at hitem
    · cases hitem
    · cases hitem
  rw [Store.item_eq hrange] at hitem
  cases hp : Store.position? (w.store.items v).length index with
  | none =>
    rw [hp] at hitem
    cases hitem
  | some k =>
    rw [hp, Option.bind_some] at hitem
    cases hk : (w.store.items v)[k]? with
    | none =>
      rw [hk] at hitem
      cases hitem
    | some z =>
      rw [hk] at hitem
      obtain rfl : z = x.value := hitem
      obtain ⟨i, o, rfl, ho, hmem⟩ :=
        Store.values_of_mem_items (List.mem_of_getElem? hk)
      obtain ⟨j, hj⟩ := (h.clear i o ho).exists_slot hmem
      have hobj : w.store.object? (.object i) = some o := ho
      simp only [Store.items, hobj] at hp hk
      cases o with
      | list xs =>
        obtain ⟨rfl, rfl⟩ := (h.clear i _ ho).slots k hk
        exact ⟨xs, ho, hp⟩
      | table es => cases hk
      | _ => cases hj

theorem hands_first (h : x.Lodges calls w)
    (hitem : w.store.item v 0 = x.value) :
    x.container.Hands x.slot .first := by
  obtain ⟨xs, hhome, hposition⟩ := h.position_of_item hitem
  refine Object.Hands.of_hull (h.hull_home hhome) ?_
  show x.slot = 0
  exact Int.ofNat_inj.1 (Store.position?_eq_some hposition)

theorem hands_last (h : x.Lodges calls w)
    (hitem : w.store.item v (-1) = x.value) :
    x.container.Hands x.slot .last := by
  obtain ⟨xs, hhome, hposition⟩ := h.position_of_item hitem
  refine Object.Hands.of_hull (h.hull_home hhome) ?_
  show x.slot + 1 = xs.length
  have hslot := Store.position?_eq_some hposition
  rw [if_pos (by decide)] at hslot
  omega

/-- The value of the first entry of a table is the lodger only where
`first` hands it out in a list. -/
theorem wraps_first (h : x.Lodges calls w) {k : Value}
    {rest : List (Value × Value)}
    (hentries : w.store.entries v = (k, x.value) :: rest) :
    x.container.Wraps x.slot .first := by
  have hmem : (k, x.value) ∈ w.store.entries v := by
    rw [hentries]
    exact List.mem_cons_self ..
  obtain ⟨i, o, rfl, ho, -, hvalue⟩ := Store.slots_of_mem_entries hmem
  obtain ⟨j, hj⟩ :=
    (h.clear i o ho).exists_slot (Object.mem_values_of_mem_slots hvalue)
  have hobj : w.store.object? (.object i) = some o := ho
  simp only [Store.entries, hobj] at hentries
  cases o with
  | table es =>
    obtain rfl : es = (k, x.value) :: rest := hentries
    obtain ⟨rfl, hslot⟩ := (h.clear i _ ho).slots 0 rfl
    exact Object.Wraps.of_hull (h.hull_home ho) hslot.symm
  | list xs => cases hentries
  | _ => cases hj

/-- A drop does not refer to the lodger, and none of its markup hands it
out. -/
theorem drop (h : x.Lodges calls w) {d : Drop}
    (ho : w.store.object? v = some (.drop d)) :
    v ≠ x.value ∧ (∀ y ∈ (Object.drop d).values, y ≠ x.value) ∧
      ∀ m ∈ (Object.drop d).markups, x.Guarded m := by
  obtain ⟨i, rfl, hi⟩ := Store.object?_eq_some.1 ho
  have hclear := h.clear i _ hi
  refine ⟨?_, fun y hy => hclear.ne_value (fun _ => rfl) hy,
    hclear.markups⟩
  rintro ⟨⟩
  cases hi.symm.trans h.deferred

/-- No key is the lodger. -/
theorem key_ne_value (h : x.Lodges calls w) {e : Value × Value}
    (he : e ∈ w.store.entries v) : e.1 ≠ x.value := by
  intro heq
  unfold Store.entries at he
  split at he
  · next es ho =>
    obtain ⟨i, -, ho⟩ := Store.object?_eq_some.1 ho
    have hkey : (e.1, Value.nil) ∈ es.map fun e => (e.1, .nil) :=
      List.mem_map_of_mem he
    exact (h.clear i _ ho).hull (heq ▸ (Object.mem_entryValues hkey).1)
  · next ho =>
    obtain ⟨i, -, ho⟩ := Store.object?_eq_some.1 ho
    exact (h.clear i _ ho).hull (heq ▸ (Object.mem_entryValues he).1)
  · cases he

/-- No new object is the lodger. -/
theorem new_ne_value (h : x.Lodges calls w) :
    Value.object w.store.size ≠ x.value := by
  intro heq
  have hlt := Store.lt_size_of_get? h.deferred
  rw [← Value.object.inj heq] at hlt
  exact Nat.lt_irrefl _ hlt

/-- A command that may not hand the lodger out in a list leaves it where it
is, and answers with it only where it hands it out. -/
theorem command (h : x.Lodges calls w) {c : Command}
    {answer : Except Failure Value} {store : Store}
    (hc : ¬x.container.Wraps x.slot c)
    (hcommand : w.store.command? v c = some (answer, store)) :
    x.Lodges calls { w with store := store } ∧
      (answer = .ok x.value → x.container.Hands x.slot c) := by
  unfold Store.command? at hcommand
  split at hcommand
  · cases c with
    | size =>
      cases hcommand
      refine ⟨h, fun hx => ?_⟩
      obtain ⟨length, -, hx⟩ := outcome_bind_eq_ok.1 hx
      cases hx
    | last =>
      cases hcommand
      exact ⟨h, fun hx => h.hands_last (Except.ok.inj hx)⟩
    | first =>
      simp only [Store.firstOf] at hcommand
      split at hcommand
      · split at hcommand
        · next k y rest hentries =>
          cases hcommand
          have hmem : (k, y) ∈ w.store.entries v := by
            rw [hentries]
            exact List.mem_cons_self ..
          have hy : y ≠ x.value := by
            rintro rfl
            exact hc (h.wraps_first hentries)
          have hk : k ≠ x.value := h.key_ne_value hmem
          refine ⟨h.alloc (.of_values ?_ (fun _ heq => by cases heq)
            fun _ hm => by cases hm), fun hx => ?_⟩
          · intro hvalue
            rcases List.mem_cons.1 hvalue with heq | hvalue
            · exact hk heq.symm
            · exact hy (List.mem_singleton.1 hvalue).symm
          · exact absurd (Except.ok.inj hx) h.new_ne_value
        · cases hcommand
          exact ⟨h, fun hx => by cases hx⟩
      · cases hcommand
        exact ⟨h, fun hx => h.hands_first (Except.ok.inj hx)⟩
  · cases hcommand

end Lodges
end Lodger

end Stencil
