/-
What evaluation can get hold of, and what it puts back.

A world is well formed if nothing in it refers to what is not there, and
the keys of its tables can be keys. Making objects and filling slots with
values that are there keeps a world well formed.

A forced value is put where the deferred one was found, although between
finding and putting any number of slots may have been filled: the keys of
the table have stayed and count as one with the same keys, the list has
stayed as long as it was. So the slot is the same one.
-/
import Stencil.Evaluation
import Stencil.Proofs.Sequence
import Stencil.Proofs.Store.Keys

namespace Stencil

-- ================================================================ drops

namespace Eval

theorem store_bind_apply {α : Type} (x : Store → Eval α) (w : World) :
    (store >>= x) w = x w.store w :=
  rfl

/-- The values of a member that is found are values of the drop. -/
theorem values_of_lookup {d : Drop} {name : String} {m : Member}
    (h : d.members.lookup name = some m) :
    ∀ v ∈ m.values, v ∈ (Object.drop d).values := by
  intro v hv
  obtain ⟨before, after, hsplit, -⟩ := List.lookup_eq_some_iff.1 h
  refine List.mem_flatMap.2 ⟨(name, m), ?_, hv⟩
  rw [hsplit]
  exact List.mem_append_right _ (List.mem_cons_self ..)

theorem lookup_of_member? {d : Drop} {key : Value} {m : Member}
    (h : member? d key = some m) :
    ∃ name, d.members.lookup name = some m := by
  unfold member? at h
  split at h
  · next name =>
    split at h
    · split at h
      · cases h
      · exact ⟨name, h⟩
    · cases h
  · cases h

theorem values_of_member? {d : Drop} {key : Value} {m : Member}
    (h : member? d key = some m) :
    ∀ v ∈ m.values, v ∈ (Object.drop d).values := by
  obtain ⟨name, hlookup⟩ := lookup_of_member? h
  exact values_of_lookup hlookup

end Eval

-- ========================================================== well formed

/-- Objects and layers refer to what is there, and the keys of tables can
be keys. -/
structure World.WellFormed (w : World) : Prop where
  closed : w.store.Closed []
  keys : ∀ i es, w.store.get? i = some (.table es) →
    ∀ e ∈ es, w.store.isHashable e.1 = true
  layers : ∀ ctx, ∀ v ∈ (w.context ctx).layers, w.store.Has [] v

/-- Refilled in any way. -/
abbrev Store.Reshaped (store store' : Store) : Prop :=
  store.Refilled (fun _ _ => True) store'

namespace World.WellFormed

variable {w : World}

/-- The keys of an object's tables can be keys, in a world to come as
well. -/
theorem of_rewritten (hw : w.WellFormed) {store : Store}
    (h : w.store.Rewritten store) (hclosed : store.Closed [])
    (hkeys : ∀ i es, store.get? i = some (.table es) → ∀ e ∈ es,
      w.store.Has [] e.1 ∧ w.store.isHashable e.1 = true) :
    World.WellFormed { w with store := store } := by
  refine ⟨hclosed, fun i es hes e he => ?_, fun ctx v hv => ?_⟩
  · obtain ⟨hhas, hhash⟩ := hkeys i es hes e he
    exact (h.isHashable hw.closed hhas).trans hhash
  · exact h.has (hw.layers ctx v hv)

theorem keys_has (hw : w.WellFormed) {i : ObjectId}
    {es : List (Value × Value)} (hes : w.store.get? i = some (.table es))
    {e : Value × Value} (he : e ∈ es) :
    w.store.Has [] e.1 ∧ w.store.isHashable e.1 = true :=
  ⟨hw.closed i _ hes _ (Object.mem_entryValues he).1, hw.keys i es hes e he⟩

/-- An object is made of values that are there. -/
theorem alloc (hw : w.WellFormed) {o : Object}
    (ho : ∀ v ∈ o.values, w.store.Has [] v)
    (hkeys : ∀ es, o = .table es → ∀ e ∈ es, w.store.isHashable e.1 = true) :
    World.WellFormed { w with store := (w.store.alloc o).2 } := by
  have hgrown := (Store.Grown.refl w.store).alloc o
  refine hw.of_rewritten hgrown.rewritten (hw.closed.alloc ho)
    fun i es hes e he => ?_
  rw [Store.get?_alloc] at hes
  split at hes
  · cases hes
    exact ⟨ho _ (Object.mem_entryValues he).1, hkeys es rfl e he⟩
  · exact hw.keys_has hes he

/-- An object is rewritten with values that are there. -/
theorem rewrite (hw : w.WellFormed) {id : ObjectId} {o o' : Object}
    (hid : w.store.get? id = some o) (ho : o.Rewritten o')
    (hvalues : ∀ v ∈ o'.values, w.store.Has [] v)
    (hkeys : ∀ es, o' = .table es → ∀ e ∈ es,
      w.store.isHashable e.1 = true) :
    World.WellFormed { w with store := w.store.put id o' } := by
  have hrewritten := Store.Rewritten.put hid ho
  have hlt := Store.lt_size_of_get? hid
  refine hw.of_rewritten hrewritten (fun i p hp v hv => hrewritten.has ?_)
    fun i es hes e he => ?_
  · rw [Store.get?_put _ hlt] at hp
    split at hp
    · cases hp
      exact hvalues v hv
    · exact hw.closed i p hp v hv
  · rw [Store.get?_put _ hlt] at hes
    split at hes
    · cases hes
      exact ⟨hvalues _ (Object.mem_entryValues he).1, hkeys es rfl e he⟩
    · exact hw.keys_has hes he

/-- A slot is filled with a value that is there. -/
theorem refill (hw : w.WellFormed) {id : ObjectId} {o : Object}
    (hid : w.store.get? id = some o) {y : Value} (hy : w.store.Has [] y)
    (k : Nat) :
    World.WellFormed { w with store := w.store.put id (o.refill k y) } := by
  have hrefilled : o.Refilled (fun _ _ => True) (o.refill k y) :=
    (Object.Refilled.refl fun _ => trivial).refill fun _ _ => trivial
  refine hw.rewrite hid hrefilled.rewritten (fun v hv => ?_)
    fun es hes e he => ?_
  · rcases Object.mem_values_refill hv with hv | rfl
    · exact hw.closed id o hid v hv
    · exact hy
  · cases o with
    | table es' =>
      cases hes
      obtain ⟨e', he', hkey, -⟩ := Object.mem_refill_entries he
      rw [hkey]
      exact hw.keys id es' hid e' he'
    | _ => cases hes

/-- A context is added whose layers are there. -/
theorem push (hw : w.WellFormed) {c : Context}
    (hc : ∀ v ∈ c.layers, w.store.Has [] v) :
    World.WellFormed { w with contexts := w.contexts.push c } := by
  refine ⟨hw.closed, hw.keys, fun ctx v hv => ?_⟩
  unfold World.context at hv
  simp only [Array.getElem?_push] at hv
  split at hv
  · exact hc v hv
  · exact hw.layers ctx v hv

end World.WellFormed

/-- The entries of a table that can be changed. -/
def Object.tableEntries : Object → List (Value × Value)
  | .table es => es
  | _ => []

/-- Whether a world is well formed is found out object by object and
context by context. -/
theorem World.wellFormed_iff {w : World} :
    w.WellFormed ↔
      (∀ o ∈ w.store.objects.toList,
        (∀ v ∈ o.values, v.Below [] w.store.size) ∧
          ∀ e ∈ o.tableEntries, w.store.isHashable e.1 = true) ∧
      ∀ c ∈ w.contexts.toList, ∀ v ∈ c.layers,
        v.Below [] w.store.size := by
  constructor
  · intro hw
    refine ⟨fun o ho => ?_, fun c hc v hv => ?_⟩
    · obtain ⟨i, hi⟩ := List.mem_iff_getElem?.1 ho
      have hget : w.store.get? i = some o := by
        rw [Store.get?, ← Array.getElem?_toList]
        exact hi
      refine ⟨hw.closed i o hget, fun e he => ?_⟩
      cases o with
      | table es => exact hw.keys i es hget e he
      | _ => cases he
    · obtain ⟨ctx, hctx⟩ := List.mem_iff_getElem?.1 hc
      rw [Array.getElem?_toList] at hctx
      refine hw.layers ctx v ?_
      rw [World.context, hctx]
      exact hv
  · rintro ⟨hobjects, hcontexts⟩
    have hmem {i : ObjectId} {o : Object} (ho : w.store.get? i = some o) :
        o ∈ w.store.objects.toList :=
      Array.mem_toList_iff.2 (Array.mem_of_getElem? ho)
    refine ⟨fun i o ho v hv => (hobjects o (hmem ho)).1 v hv,
      fun i es hes e he => (hobjects _ (hmem hes)).2 e he,
      fun ctx v hv => ?_⟩
    rw [World.context] at hv
    cases hctx : w.contexts[ctx]? with
    | none =>
      rw [hctx] at hv
      cases hv
    | some c =>
      rw [hctx] at hv
      have hc := Array.mem_toList_iff.2 (Array.mem_of_getElem? hctx)
      exact hcontexts c hc v hv

instance (w : World) : Decidable w.WellFormed :=
  decidable_of_iff _ World.wellFormed_iff.symm

-- ============================================================== finding

namespace Store

variable {store store' : Store} {v key x : Value}

/-- What a list has under a key stands in the slot at the position that the
key is, or is nil. -/
theorem slot_of_fetch_list {xs : List Value}
    (ho : store.object? v = some (.list xs))
    (h : store.fetch v key = .ok x) (hx : x ≠ .nil) :
    ∃ k, (index? key).bind (position? xs.length) = some k ∧
      (Object.list xs).slot? k = some x := by
  obtain ⟨i, rfl, -⟩ := object?_eq_some.1 ho
  have hitems : store.items (.object i) = xs := by
    simp only [items, ho]
  simp only [fetch, access, ho] at h
  cases hindex : index? key with
  | none =>
    rw [hindex] at h
    cases h
  | some n =>
    rw [hindex] at h
    dsimp only at h
    rw [item_eq (fun _ _ heq => by cases heq), hitems] at h
    cases hk : position? xs.length n with
    | none =>
      rw [hk] at h
      cases h
      exact absurd rfl hx
    | some k =>
      rw [hk] at h
      refine ⟨k, hk, ?_⟩
      cases hitem : xs[k]? with
      | none =>
        rw [Option.bind_some, hitem] at h
        cases h
        exact absurd rfl hx
      | some z =>
        rw [Option.bind_some, hitem] at h
        cases h
        exact hitem

/-- What a table has under a key is the value of an entry, or nil. -/
theorem entry_of_fetch_table {es : List (Value × Value)}
    (ho : store.object? v = some (.table es))
    (h : store.fetch v key = .ok x) (hx : x ≠ .nil) :
    store.isHashable key = true ∧ store.entry? es key = some x := by
  obtain ⟨haccess, hentries⟩ := access_table ho
  simp only [fetch, haccess, hentries] at h
  split at h
  · next hhash =>
    refine ⟨hhash, ?_⟩
    cases hentry : store.entry? es key with
    | none =>
      rw [hentry] at h
      cases h
      exact absurd rfl hx
    | some z =>
      rw [hentry] at h
      cases h
      rfl
  · cases h

/-- A value that is put under a key goes into the slot at which the key was
found before, if the keys and which of them count as one have stayed. -/
theorem slot_of_entry {es es' : List (Value × Value)}
    (hkeys : es'.map Prod.fst = es.map Prod.fst)
    (hsame : ∀ e ∈ es, store'.sameKey e.1 key = store.sameKey e.1 key)
    (hx : store.entry? es key = some x) :
    ∃ k, (Object.table es).slot? k = some x ∧
      ∀ y, Object.table (store'.setEntry key y es') =
        (Object.table es').refill k y := by
  unfold entry? at hx
  induction es generalizing es' with
  | nil => cases hx
  | cons e es ih =>
    obtain ⟨e', es', rfl⟩ : ∃ e' rest, es' = e' :: rest := by
      cases es' with
      | nil => cases hkeys
      | cons e' rest => exact ⟨e', rest, rfl⟩
    obtain ⟨hkey, hkeys⟩ := List.cons_eq_cons.1 hkeys
    obtain ⟨hfirst, hsame⟩ := List.forall_mem_cons.1 hsame
    have hfirst' : store'.sameKey e'.1 key = store.sameKey e.1 key := by
      rw [← hfirst]
      exact congrArg (store'.sameKey · key) hkey
    rw [List.find?_cons] at hx
    cases hfound : store.sameKey e.1 key with
    | true =>
      rw [hfound] at hx
      cases hx
      refine ⟨0, rfl, fun y => ?_⟩
      rw [setEntry, if_pos (hfirst'.trans hfound)]
      rfl
    | false =>
      rw [hfound] at hx
      obtain ⟨k, hk, hput⟩ := ih hkeys hsame hx
      refine ⟨k + 1, hk, fun y => ?_⟩
      have hnot : ¬store'.sameKey e'.1 key = true := by
        rw [hfirst', hfound]
        exact Bool.false_ne_true
      rw [setEntry, if_neg hnot]
      exact congrArg (fun rest => Object.table (e' :: rest))
        (Object.table.inj (hput y))

end Store

-- ============================================================== putting

namespace Eval

variable {w u : World} {v key x y : Value}

theorem remember_table {i : ObjectId} {es : List (Value × Value)}
    (hes : w.store.get? i = some (.table es)) :
    remember (.object i) key y w =
      (.ok (), { w with
        store := w.store.put i (.table (w.store.setEntry key y es)) }) := by
  have ho : w.store.object? (.object i) = some (.table es) := hes
  rw [remember, store_bind_apply, ho]
  rfl

theorem remember_list {i : ObjectId} {xs : List Value} {k : Nat}
    (hxs : w.store.get? i = some (.list xs))
    (hk : (Store.index? key).bind (Store.position? xs.length) = some k) :
    remember (.object i) key y w =
      (.ok (), { w with store := w.store.put i (.list (xs.set k y)) }) := by
  have ho : w.store.object? (.object i) = some (.list xs) := hxs
  rw [remember, store_bind_apply, ho]
  dsimp only
  rw [hk]
  rfl

/-- Nothing but a list or a table remembers anything. -/
theorem remember_other {o : Object} (ho : w.store.object? v = some o)
    (hlist : ∀ xs, o ≠ .list xs) (htable : ∀ es, o ≠ .table es) :
    remember v key y w = (.ok (), w) := by
  obtain ⟨i, rfl, -⟩ := Store.object?_eq_some.1 ho
  rw [remember, store_bind_apply, ho]
  cases o with
  | list xs => exact absurd rfl (hlist xs)
  | table es => exact absurd rfl (htable es)
  | _ => rfl

/-- A scalar remembers nothing. -/
theorem remember_of_scalar (hv : v.IsScalar) :
    remember v key y w = (.ok (), w) := by
  cases v with
  | object i => exact absurd rfl (hv i)
  | _ => rfl

/-- The part of anything but a drop is fetched. -/
theorem part_of_fetch {reenter : Reenter} (hdrop : w.store.drop? v = none) :
    part reenter v key w = (w.store.fetch v key, w) := by
  rw [part, store_bind_apply, hdrop]
  cases w.store.fetch v key with
  | ok x => rfl
  | error f => rfl

/-- Forcing a part that yields a value gives that value, which is then
remembered. -/
theorem forcedPart_remembers {reenter : Reenter} (ctx : ContextId)
    {d : Deferred} (hpart : part reenter v key w = (.ok x, w))
    (hd : w.store.deferred? x = some d) (hdeed : d.deed = .yield y) :
    ∃ calls journal, forcedPart reenter ctx v key w =
      (do remember v key y; return y : Eval Value)
        { w with calls := calls, journal := journal } := by
  have hforce : force reenter ctx d w =
      (.ok y, { w with calls := World.countCall d.label w.calls }) := by
    rw [force, hdeed]
    rfl
  rw [forcedPart, bind_apply, hpart]
  dsimp only
  rw [store_bind_apply, hd]
  dsimp only
  rw [bind_apply, hforce]
  exact ⟨_, _, rfl⟩

/-- What was found deferred in a value is put, once it is forced, into the
slot that it was found in. Only what is no list and no table has none. -/
theorem remember_cases (hw : w.WellFormed)
    (h : w.store.Reshaped u.store) (hv : w.store.Has [] v)
    (hkey : w.store.Has [] key) (hfetch : w.store.fetch v key = .ok x)
    (hx : x ≠ .nil) (y : Value) :
    (remember v key y u = (.ok (), u) ∧
      ∀ o, w.store.object? v = some o →
        (∀ xs, o ≠ .list xs) ∧ ∀ es, o ≠ .table es) ∨
      ∃ id k o o', w.store.get? id = some o ∧ o.slot? k = some x ∧
        u.store.get? id = some o' ∧
        remember v key y u =
          (.ok (), { u with store := u.store.put id (o'.refill k y) }) := by
  rcases v.scalar_or_object with hscalar | ⟨i, rfl⟩
  · refine Or.inl ⟨remember_of_scalar hscalar, fun o ho => ?_⟩
    obtain ⟨i, rfl, -⟩ := Store.object?_eq_some.1 ho
    exact absurd rfl (hscalar i)
  · obtain ⟨o, ho⟩ := Store.exists_get? (hv i rfl).1
    have hobj : w.store.object? (.object i) = some o := ho
    cases o with
    | list xs =>
      obtain ⟨ys, hys, hlength⟩ := h.object?_list hobj
      obtain ⟨k, hk, hslot⟩ := Store.slot_of_fetch_list hobj hfetch hx
      rw [← hlength] at hk
      exact Or.inr ⟨i, k, _, _, ho, hslot, hys, remember_list hys hk⟩
    | table es =>
      obtain ⟨es', hes', hkeys⟩ := h.object?_table hobj
      obtain ⟨hhash, hentry⟩ := Store.entry_of_fetch_table hobj hfetch hx
      have hsame : ∀ e ∈ es,
          u.store.sameKey e.1 key = w.store.sameKey e.1 key := by
        intro e he
        obtain ⟨hhas, hehash⟩ := hw.keys_has ho he
        exact h.rewritten.sameKey hw.closed hhas hkey hehash hhash
      obtain ⟨k, hslot, hput⟩ := Store.slot_of_entry hkeys hsame hentry
      refine Or.inr ⟨i, k, _, _, ho, hslot, hes', ?_⟩
      rw [remember_table hes', hput y]
    | _ =>
      have hsame := h.object?_other hobj (fun _ heq => by cases heq)
        fun _ heq => by cases heq
      have hforgets : remember (.object i) key y u = (.ok (), u) :=
        remember_other hsame (fun _ heq => by cases heq)
          fun _ heq => by cases heq
      refine Or.inl ⟨hforgets, fun o' ho' => ?_⟩
      cases hobj.symm.trans ho'
      exact ⟨(fun _ heq => by cases heq), fun _ heq => by cases heq⟩

end Eval

end Stencil
