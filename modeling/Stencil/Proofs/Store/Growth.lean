/-
Stores that grow.

Evaluation does two things to a store: it makes new objects, and it puts
what a deferred value yielded in the slot of a root. A later store holds
all objects of an earlier one at their places, with some slots of roots
filled (`Later`). A store that is steady stays so, since what a slot is
filled with is not deferred.

Two stores with the same objects at other places stay so when both get a
new object.
-/
import Stencil.Proofs.Store.Relocation

namespace Stencil

section

variable {f : ObjectId → ObjectId} {g : ContextId → ContextId}
  {roots : List ObjectId} {built : Prop}

-- ============================================================ in place

@[simp] theorem Value.move_id (v : Value) : v.move id = v := by
  cases v <;> rfl

theorem Value.move_eq_of_below {n : Nat} {v : Value}
    (hf : ∀ i < n, f i = i) (hv : v.Below roots n) : v.move f = v := by
  cases v with
  | object i => exact congrArg Value.object (hf i (hv i rfl).1)
  | _ => rfl

/-- An object whose values and whose context stay where they are. -/
theorem Object.move_eq_self {o : Object}
    (hv : ∀ v ∈ o.values, v.move f = v)
    (hd : ∀ d, o = .drop d → d.bound.map g = d.bound) :
    o.move f g = o := by
  have hitems {items : List Value} (h : ∀ v ∈ items, v.move f = v) :
      items.map (Value.move f) = items :=
    (List.map_congr_left h).trans (List.map_id items)
  have hentries {entries : List (Value × Value)}
      (h : ∀ v ∈ entryValues entries, v.move f = v) :
      moveEntries f entries = entries := by
    refine (List.map_congr_left fun e he => ?_).trans (List.map_id entries)
    obtain ⟨hk, hx⟩ := mem_entryValues he
    exact Prod.ext (h _ hk) (h _ hx)
  cases o with
  | list items => exact congrArg Object.list (hitems hv)
  | tuple items => exact congrArg Object.tuple (hitems hv)
  | set items => exact congrArg Object.set (hitems hv)
  | table entries => exact congrArg Object.table (hentries hv)
  | frozen entries => exact congrArg Object.frozen (hentries hv)
  | host v => exact congrArg Object.host (hv v (List.mem_singleton.2 rfl))
  | handle label => rfl
  | quoted e => rfl
  | deferred d =>
    obtain ⟨label, form, deed⟩ := d
    cases deed with
    | yield v =>
      have hyield := hv v (List.mem_singleton.2 rfl)
      simp only [Object.move, Deferred.move, Deed.move, hyield]
    | _ => rfl
  | drop d =>
    obtain ⟨label, members, bound⟩ := d
    have hmembers : members.map (fun m => (m.1, m.2.move f)) = members := by
      refine (List.map_congr_left fun m hm => ?_).trans
        (List.map_id members)
      have hm' : ∀ v ∈ m.2.values, v.move f = v :=
        fun v hmem => hv v (List.mem_flatMap.2 ⟨m, hm, hmem⟩)
      obtain ⟨name, member⟩ := m
      cases member with
      | method v | property v | data v =>
        have hself := hm' v (List.mem_singleton.2 rfl)
        simp only [Member.move, hself, id]
      | _ => rfl
    have hbound : bound.map g = bound := hd _ rfl
    simp only [Object.move, Drop.move, hmembers, hbound]

theorem Object.move_id (o : Object) : o.move id id = o :=
  Object.move_eq_self (fun v _ => v.move_id) fun _ _ => Option.map_id_apply

-- =============================================================== twice

theorem Value.move_move (f f' : ObjectId → ObjectId) (v : Value) :
    (v.move f).move f' = v.move (f' ∘ f) := by
  cases v <;> rfl

/-- To move an object twice is to move it once, all the way. -/
theorem Object.move_move (f f' : ObjectId → ObjectId)
    (g g' : ContextId → ContextId) (o : Object) :
    (o.move f g).move f' g' = o.move (f' ∘ f) (g' ∘ g) := by
  have hitems (items : List Value) :
      (items.map (Value.move f)).map (Value.move f') =
        items.map (Value.move (f' ∘ f)) := by
    rw [List.map_map]
    exact List.map_congr_left fun v _ => v.move_move f f'
  have hentries (entries : List (Value × Value)) :
      moveEntries f' (moveEntries f entries) =
        moveEntries (f' ∘ f) entries := by
    rw [moveEntries, moveEntries, List.map_map]
    exact List.map_congr_left fun e _ =>
      Prod.ext (e.1.move_move f f') (e.2.move_move f f')
  cases o with
  | list items => exact congrArg Object.list (hitems items)
  | tuple items => exact congrArg Object.tuple (hitems items)
  | set items => exact congrArg Object.set (hitems items)
  | table entries => exact congrArg Object.table (hentries entries)
  | frozen entries => exact congrArg Object.frozen (hentries entries)
  | host v => exact congrArg Object.host (v.move_move f f')
  | handle label => rfl
  | quoted e => rfl
  | deferred d =>
    obtain ⟨label, form, deed⟩ := d
    cases deed with
    | yield v => simp only [move, Deferred.move, Deed.move, v.move_move]
    | _ => rfl
  | drop d =>
    have hmember (m : Member) :
        (m.move f).move f' = m.move (f' ∘ f) := by
      cases m with
      | method v | property v | data v =>
        simp only [Member.move, v.move_move]
      | _ => rfl
    simp only [move, Drop.move, List.map_map, Function.comp_def, hmember,
      Option.map_map]

namespace Store

variable {store store' : Store}

-- ============================================================= filling

theorem Slot.refl (store : Store) (e : Value × Value) :
    store.Slot id e e :=
  ⟨e.1.move_id.symm, Or.inl e.2.move_id.symm⟩

/-- What a slot is filled with does not reach higher than what stood in
it. -/
theorem Grounded.below_filled (hs : store.Grounded roots) {n : Nat}
    {v v' : Value} (hv : v.Below roots n) (h : store.Filled id v v') :
    v'.Below roots n := by
  unfold Filled at h
  simp only [Value.move_id] at h
  rcases h with rfl | ⟨d, y, hd, hy, rfl⟩
  · exact hv
  · obtain ⟨i, rfl, ho⟩ := deferred?_eq_some.1 hd
    have hmem : v' ∈ (Object.deferred d).values := by
      simp [Object.values, hy, Deed.values]
    exact (hs i _ ho _ hmem).mono (Nat.le_of_lt (hv i rfl).1)

/-- Putting what fills the slot of a key into entries fills them. -/
theorem forall₂_setEntry {entries : List (Value × Value)} {key x y : Value}
    (hx : store.entry? entries key = some x) (hy : store.Filled id x y) :
    List.Forall₂ (store.Slot id) entries
      (store.setEntry key y entries) := by
  unfold entry? at hx
  induction entries with
  | nil => cases hx
  | cons e entries ih =>
    rw [List.find?_cons] at hx
    rw [setEntry]
    cases hkey : store.sameKey e.1 key with
    | true =>
      rw [hkey] at hx
      cases hx
      exact .cons ⟨e.1.move_id.symm, hy⟩
        (List.forall₂_same.2 fun e _ => .refl store e)
    | false =>
      rw [hkey] at hx
      exact .cons (.refl store e) (ih hx)

/-- Entries stay the same when a key is given the value that it has. -/
theorem setEntry_eq_self {entries : List (Value × Value)} {key x : Value}
    (hx : store.entry? entries key = some x) :
    store.setEntry key x entries = entries := by
  unfold entry? at hx
  induction entries with
  | nil => cases hx
  | cons e entries ih =>
    rw [List.find?_cons] at hx
    rw [setEntry]
    cases hkey : store.sameKey e.1 key with
    | true =>
      rw [hkey] at hx
      cases hx
      rfl
    | false =>
      rw [hkey] at hx
      exact congrArg (e :: ·) (ih hx)

/-- A filled slot of an entry, for a value of it. -/
theorem mem_of_forall₂_slot {entries entries' : List (Value × Value)}
    (h : List.Forall₂ (store.Slot f) entries entries')
    {e' : Value × Value} (he' : e' ∈ entries') :
    ∃ e ∈ entries, store.Slot f e e' := by
  induction h with
  | nil => cases he'
  | @cons e a es as hea _ ih =>
    rcases List.mem_cons.1 he' with rfl | he'
    · exact ⟨e, List.mem_cons_self .., hea⟩
    · obtain ⟨x, hx, hslot⟩ := ih he'
      exact ⟨x, List.mem_cons_of_mem _ hx, hslot⟩

-- ======================================================== later stores

/-- A later store: all objects are where they were, and some slots of
roots have been filled. -/
abbrev Later (roots : List ObjectId) (store later : Store) : Prop :=
  Embeds id id roots store later

/-- A store whose roots are tables is the same store later. -/
theorem Later.refl
    (h : ∀ i ∈ roots, ∃ entries, store.get? i = some (.table entries)) :
    Later roots store store := by
  refine ⟨Function.injective_id, fun i o _ ho => ?_, fun i hi => ?_⟩
  · rw [o.move_id]
    exact ho
  · obtain ⟨entries, hget⟩ := h i hi
    exact ⟨entries, entries, hget, hget,
      List.forall₂_same.2 fun e _ => .refl store e⟩

theorem Embeds.later_refl (h : Embeds f g roots store store') :
    Later roots store store := by
  refine .refl fun i hi => ?_
  obtain ⟨entries, -, hget, -⟩ := h.root i hi
  exact ⟨entries, hget⟩

namespace Later

variable {later : Store} (h : Later roots store later) {v : Value}

include h

theorem has (hv : store.Has roots v) : later.Has roots v :=
  fun i hi => ⟨h.lt_size (hv i hi).1, (hv i hi).2⟩

/-- A later store is no smaller. -/
theorem size_le : store.size ≤ later.size := by
  refine Nat.le_of_not_lt fun hlt => ?_
  exact Nat.lt_irrefl _ (h.lt_size hlt)

theorem object? (hv : store.Has roots v) :
    later.object? v = store.object? v := by
  have hobj := Embeds.object? h hv
  rw [v.move_id] at hobj
  rw [hobj]
  cases store.object? v with
  | none => rfl
  | some o => exact congrArg some o.move_id

theorem deferred? (hv : store.Has roots v) :
    later.deferred? v = store.deferred? v := by
  rw [Store.deferred?, Store.deferred?, h.object? hv]

/-- A slot is filled in the same way, seen from a later store. -/
theorem slots {entries entries' : List (Value × Value)}
    (hv : ∀ v ∈ Object.entryValues entries, store.Has roots v)
    (hes : List.Forall₂ (store.Slot f) entries entries') :
    List.Forall₂ (later.Slot f) entries entries' := by
  have hboth := (List.forall₂_and_left entries entries').2
    ⟨fun e he => hv e.2 (Object.mem_entryValues he).2, hes⟩
  refine hboth.imp ?_
  rintro e e' ⟨he, hkey, hfilled⟩
  refine ⟨hkey, ?_⟩
  unfold Filled
  rwa [h.deferred? he]

end Later

/-- What a deferred value yields is there with it. -/
theorem Closed.has_yield (hs : store.Closed roots) {v y : Value}
    {d : Deferred} (hd : store.deferred? v = some d)
    (hy : d.deed = .yield y) : store.Has roots y := by
  obtain ⟨i, -, ho⟩ := deferred?_eq_some.1 hd
  exact hs i _ ho y (by simp [Object.values, hy, Deed.values])

/-- The key and the value of an entry are there. -/
theorem Closed.values_of_mem (hs : store.Closed roots) {i : ObjectId}
    {entries : List (Value × Value)}
    (hget : store.get? i = some (.table entries)) {e : Value × Value}
    (he : e ∈ entries) : store.Has roots e.1 ∧ store.Has roots e.2 := by
  obtain ⟨hk, hx⟩ := Object.mem_entryValues he
  exact ⟨hs i _ hget _ hk, hs i _ hget _ hx⟩

theorem Closed.has_inRoot (hs : store.Closed roots) {v : Value}
    (hv : store.InRoot roots v) : store.Has roots v := by
  obtain ⟨i, -, entries, hget, e, he, rfl⟩ := hv
  exact (hs.values_of_mem hget he).2

/-- What a slot is filled with is there with what stood in it. -/
theorem Closed.has_filled (hs : store.Closed roots) {v v' : Value}
    (hv : store.Has roots v) (h : store.Filled id v v') :
    store.Has roots v' := by
  unfold Filled at h
  simp only [Value.move_id] at h
  rcases h with rfl | ⟨d, y, hd, hy, rfl⟩
  · exact hv
  · exact hs.has_yield hd hy

namespace Later

variable {a b c : Store}

/-- What a slot was filled with is not deferred, so it is not filled
again. -/
theorem filled_trans (h : Later roots a b) (ha : a.Closed roots)
    (hs : a.Steady roots) {v v₁ v₂ : Value} (hv : a.InRoot roots v)
    (h₁ : a.Filled id v v₁) (h₂ : b.Filled id v₁ v₂) :
    a.Filled id v v₂ := by
  unfold Filled at h₁ h₂ ⊢
  simp only [Value.move_id] at h₁ h₂ ⊢
  rcases h₁ with rfl | ⟨d, y, hd, hy, rfl⟩
  · rwa [h.deferred? (ha.has_inRoot hv)] at h₂
  · have hnone : b.deferred? v₁ = none := by
      rw [h.deferred? (ha.has_yield hd hy)]
      exact hs.yields v d hv hd v₁ hy
    rcases h₂ with rfl | ⟨d', y', hd', -, -⟩
    · exact Or.inr ⟨d, v₂, hd, hy, rfl⟩
    · cases hnone.symm.trans hd'

/-- A later store of a later one is a later one. -/
protected theorem trans (h : Later roots a b) (h' : Later roots b c)
    (ha : a.Closed roots) (hs : a.Steady roots) : Later roots a c := by
  refine ⟨Function.injective_id, fun i o hi ho => ?_, fun i hi => ?_⟩
  · have hb := h.get? i o hi ho
    rw [o.move_id] at hb
    exact h'.get? i o hi hb
  · obtain ⟨es, es₁, hes, hes₁, hslots⟩ := h.root i hi
    obtain ⟨es₁', es₂, hes₁', hes₂, hslots'⟩ := h'.root i hi
    obtain rfl : es₁ = es₁' :=
      Object.table.inj (Option.some.inj (hes₁.symm.trans hes₁'))
    refine ⟨es, es₂, hes, hes₂, ?_⟩
    have hin : ∀ e ∈ es, a.InRoot roots e.2 :=
      fun e he => ⟨i, hi, es, hes, e, he, rfl⟩
    clear hes hes₁ hes₁' hes₂
    induction hslots generalizing es₂ with
    | nil =>
      cases hslots'
      exact .nil
    | cons he _ ih =>
      cases hslots' with
      | cons he' hrest' =>
        obtain ⟨hhead, htail⟩ := List.forall_mem_cons.1 hin
        refine .cons ⟨?_, ?_⟩ (ih _ hrest' htail)
        · rw [he'.1, he.1, Value.move_id, Value.move_id]
        · exact h.filled_trans ha hs hhead he.2 he'.2

end Later

/-- A later store is steady if its new objects hold nothing that is
deferred. -/
theorem Steady.later {later : Store} (hs : store.Steady roots)
    (hg : store.Closed roots) (h : Later roots store later)
    (hnew : ∀ i o, store.size ≤ i → later.get? i = some o →
      ∀ v ∈ o.slots, later.deferred? v = none) : later.Steady roots := by
  -- a deferred value in a root stood there before, as it is
  have hroot (v : Value) (d : Deferred) (hv : later.InRoot roots v)
      (hd : later.deferred? v = some d) :
      store.InRoot roots v ∧ store.deferred? v = some d := by
    obtain ⟨i, hi, entries, hentries, e', he', rfl⟩ := hv
    obtain ⟨es, es', hes, hes', hslots⟩ := h.root i hi
    obtain rfl : es' = entries :=
      Object.table.inj (Option.some.inj (hes'.symm.trans hentries))
    obtain ⟨e, he, -, hfilled⟩ := mem_of_forall₂_slot hslots he'
    have hin : store.InRoot roots e.2 := ⟨i, hi, es, hes, e, he, rfl⟩
    rcases hfilled with hsame | ⟨d', y, hd', hy, hyield⟩
    · rw [Value.move_id] at hsame
      rw [hsame, h.deferred? (hg.has_inRoot hin)] at hd
      exact ⟨hsame ▸ hin, hsame ▸ hd⟩
    · rw [hyield, Value.move_id, h.deferred? (hg.has_yield hd' hy),
        hs.yields _ _ hin hd' y hy] at hd
      cases hd
  refine ⟨fun i o hi ho v hv => ?_, fun v d hv hd => ?_,
    fun v d hv hd y hy => ?_⟩
  · by_cases hlt : i < store.size
    · obtain ⟨o', ho'⟩ := exists_get? hlt
      have hget := h.get? i o' hi ho'
      rw [o'.move_id] at hget
      obtain rfl : o' = o := Option.some.inj (hget.symm.trans ho)
      rw [h.deferred? (hg i o' ho' v (Object.mem_values_of_mem_slots hv))]
      exact hs.slots i o' hi ho' v hv
    · exact hnew i o (Nat.le_of_not_lt hlt) ho v hv
  · obtain ⟨hin, hd⟩ := hroot v d hv hd
    exact hs.reads v d hin hd
  · obtain ⟨hin, hd⟩ := hroot v d hv hd
    rw [h.deferred? (hg.has_yield hd hy)]
    exact hs.yields v d hin hd y hy

/-- Nothing in a table is deferred, unless it is a root. -/
theorem Steady.entries (hs : store.Steady roots) {v : Value}
    {e : Value × Value} (hv : store.Has roots v)
    (he : e ∈ store.entries v) :
    store.deferred? e.1 = none ∧ store.deferred? e.2 = none := by
  obtain ⟨i, o, rfl, ho, hk, hx⟩ := slots_of_mem_entries he
  have hroot := (hv i rfl).2
  exact ⟨hs.slots i o hroot ho _ hk, hs.slots i o hroot ho _ hx⟩

/-- Nothing can be remembered in a value: it is no table and no list. -/
def Forgets (store : Store) (v : Value) : Prop :=
  ∀ o, store.object? v = some o →
    (∀ entries, o ≠ .table entries) ∧ ∀ items, o ≠ .list items

theorem Forgets.later {later : Store} (h : Later roots store later)
    {v : Value} (hv : store.Has roots v) (hf : store.Forgets v) :
    later.Forgets v := by
  intro o ho
  rw [h.object? hv] at ho
  exact hf o ho

/-- A deferred part is found only in what forgets. -/
theorem Steady.forgets_of_fetch (hs : store.Steady roots)
    {v key x : Value} {d : Deferred} (hv : store.Has roots v)
    (hx : store.fetch v key = .ok x) (hd : store.deferred? x = some d) :
    store.Forgets v := by
  have hitems : x ∈ store.items v := by
    rcases fetch_cases hx with ⟨e, he, rfl⟩ | hitem | hscalar
    · rw [(hs.entries hv he).2] at hd
      cases hd
    · exact hitem
    · obtain ⟨j, rfl, -⟩ := deferred?_eq_some.1 hd
      exact absurd rfl (hscalar j)
  intro o ho
  rw [items, ho] at hitems
  refine ⟨fun entries heq => ?_, fun xs heq => ?_⟩
  · subst heq
    cases hitems
  · subst heq
    obtain ⟨i, rfl, hget⟩ := object?_eq_some.1 ho
    rw [hs.slots i _ (hv i rfl).2 hget x hitems] at hd
    cases hd

-- ========================================================= new objects

theorem Later.alloc (h : Later roots store store) (o : Object) :
    Later roots store (store.alloc o).2 := by
  have hold {i : ObjectId} {o' : Object} (ho' : store.get? i = some o') :
      (store.alloc o).2.get? i = some o' := by
    rw [get?_alloc_old o (lt_size_of_get? ho')]
    exact ho'
  refine ⟨h.injective, fun i o' hi ho' => hold (h.get? i o' hi ho'),
    fun i hi => ?_⟩
  obtain ⟨es, es', hes, hes', hslots⟩ := h.root i hi
  exact ⟨es, es', hes, hold hes', hslots⟩

namespace Moved

variable (h : Moved f g roots built store store')

include h

/-- A new object is moved to the place of the other new object. -/
theorem alloc {o : Object} (ho : ∀ v ∈ o.values, store.Has roots v)
    (hslots : ∀ v ∈ o.slots, store.deferred? v = none) :
    Moved f g roots built (store.alloc o).2 (store'.alloc (o.move f g)).2 := by
  have hlater : Later roots store (store.alloc o).2 :=
    h.later_refl.alloc o
  have hnew : f store.size = store'.size := h.next 0
  have hold' {i : ObjectId} {o' : Object} (ho' : store'.get? i = some o') :
      (store'.alloc (o.move f g)).2.get? i = some o' := by
    rw [get?_alloc_old _ (lt_size_of_get? ho')]
    exact ho'
  refine ⟨⟨h.injective, fun i o' hi ho' => ?_, fun i hi => ?_⟩, fun n => ?_,
    h.closed.alloc ho, h.steady.later h.closed hlater fun i o' hi ho' => ?_,
    fun hbuilt => (h.grounded hbuilt).alloc ho,
    fun hbuilt => (h.grounded' hbuilt).alloc fun v hv => ?_⟩
  · rw [get?_alloc] at ho'
    split at ho'
    · next hi =>
      cases ho'
      rw [get?_alloc, if_pos (hi ▸ hnew)]
    · exact hold' (h.get? i o' hi ho')
  · obtain ⟨es, es', hes, hes', hfilled⟩ := h.root i hi
    refine ⟨es, es', ?_, hold' hes', ?_⟩
    · rw [get?_alloc_old o (lt_size_of_get? hes)]
      exact hes
    · exact hlater.slots (fun v hv => h.closed i _ hes v hv) hfilled
  · rw [size_alloc, size_alloc, Nat.add_assoc, Nat.add_assoc]
    exact h.next (1 + n)
  · intro v hv
    rw [get?_alloc] at ho'
    split at ho'
    · cases ho'
      rw [hlater.deferred? (ho v (Object.mem_values_of_mem_slots hv))]
      exact hslots v hv
    · exact absurd (lt_size_of_get? ho') (Nat.not_lt_of_le hi)
  · rw [Object.values_move] at hv
    obtain ⟨x, hx, rfl⟩ := List.mem_map.1 hv
    exact h.has (ho x hx)

theorem alloc_fst (o : Object) :
    (store'.alloc (o.move f g)).1 = (store.alloc o).1.move f :=
  congrArg Value.object (h.next 0).symm

/-- A new object is there, and no root. -/
theorem has_alloc (o : Object) :
    (store.alloc o).2.Has roots (store.alloc o).1 := by
  refine Value.below_object.2 ⟨?_, fun hroot => ?_⟩
  · rw [size_alloc]
    exact Nat.lt_succ_self _
  · obtain ⟨entries, -, hget, -⟩ := h.root _ hroot
    exact Nat.lt_irrefl _ (lt_size_of_get? hget)

/-- The first part of a moved value is the moved one; where that is a new
object, it is new in both stores. -/
theorem firstOf {v : Value} (hv : store.Has roots v) :
    (store'.firstOf (v.move f)).1 = (store.firstOf v).1.move f ∧
      Moved f g roots built (store.firstOf v).2
        (store'.firstOf (v.move f)).2 ∧
      Later roots store (store.firstOf v).2 ∧
      (store.firstOf v).2.Has roots (store.firstOf v).1 := by
  unfold Store.firstOf
  rw [h.access hv, h.entries hv, h.item hv]
  have hitem : (store.item v 0).move f = (store.item v 0).move f ∧
      Moved f g roots built store store' ∧ Later roots store store ∧
      store.Has roots (store.item v 0) :=
    ⟨rfl, h, h.later_refl, h.closed.item_has v 0⟩
  cases store.access v with
  | table =>
    cases hentries : store.entries v with
    | nil => exact ⟨rfl, h, h.later_refl, fun i hi => by cases hi⟩
    | cons e rest =>
      obtain ⟨k, x⟩ := e
      have hmem : (k, x) ∈ store.entries v :=
        hentries ▸ List.mem_cons_self ..
      obtain ⟨hk, hx⟩ := h.closed.entries_has hmem
      obtain ⟨hk', hx'⟩ := h.steady.entries hv hmem
      have hpair : ∀ y ∈ (Object.list [k, x]).values,
          store.Has roots y ∧ store.deferred? y = none := by
        rintro y (_ | ⟨_, _ | ⟨_, hy⟩⟩)
        · exact ⟨hk, hk'⟩
        · exact ⟨hx, hx'⟩
        · cases hy
      exact ⟨h.alloc_fst (.list [k, x]),
        h.alloc (fun y hy => (hpair y hy).1) fun y hy => (hpair y hy).2,
        h.later_refl.alloc _, h.has_alloc _⟩
  | _ => exact hitem

/-- What a moved value answers to a command is the moved answer. -/
theorem command? {v : Value} {c : Command}
    {answer : Except Failure Value} {later : Store}
    (hv : store.Has roots v)
    (hc : store.command? v c = some (answer, later)) :
    ∃ later', store'.command? (v.move f) c =
        some (answer.map (Value.move f), later') ∧
      Moved f g roots built later later' ∧ Later roots store later ∧
      ∀ x, answer = .ok x → later.Has roots x := by
  unfold Store.command? at hc
  split at hc
  · next hanswers =>
    have hpos : (store'.access (v.move f)).answers c = true := by
      rw [h.access hv]
      exact hanswers
    unfold Store.command?
    rw [if_pos hpos]
    cases c with
    | size =>
      cases hc
      have hsize : store'.sizeOf (v.move f) =
          (store.sizeOf v).map (Value.move f) := by
        unfold Store.sizeOf
        rw [(h.datum hv).length?]
        cases (store.datum v).length? <;> rfl
      refine ⟨store', ?_, h, h.later_refl, ?_⟩
      · rw [← hsize]
      · intro x hx
        obtain ⟨n, -, hx⟩ := outcome_bind_eq_ok.1 hx
        cases hx
        exact Value.IsScalar.below (fun i hi => by cases hi) _ _
    | last =>
      cases hc
      refine ⟨store', ?_, h, h.later_refl, ?_⟩
      · show some (Except.ok (store'.item (v.move f) (-1)), store') = _
        rw [h.item hv]
        rfl
      · intro x hx
        cases hx
        exact h.closed.item_has v _
    | first =>
      cases hc
      obtain ⟨hfirst, hmoved, hlater, hhas⟩ := h.firstOf hv
      refine ⟨(store'.firstOf (v.move f)).2, ?_, hmoved, hlater, ?_⟩
      · show some (Except.ok (store'.firstOf (v.move f)).1, _) = _
        rw [hfirst]
        rfl
      · intro x hx
        cases hx
        exact hhas
  · cases hc

theorem command?_none {v : Value} {c : Command} (hv : store.Has roots v)
    (hc : store.command? v c = none) :
    store'.command? (v.move f) c = none := by
  unfold Store.command? at hc ⊢
  rw [h.access hv]
  split at hc
  · cases hc
  · next hanswers => exact if_neg hanswers

end Moved

end Store
end
end Stencil
