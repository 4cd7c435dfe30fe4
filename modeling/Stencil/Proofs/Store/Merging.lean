/-
Layers merged into one table.

The entries of a merged table have the keys of all the layers, each with
the value that the first layer holding it has (`Merges`). Keys that count
as one are one key, and it does not matter which of them the merged table
has, nor in which order. To look a name up in it is then to look it up in
the layers (`Merges.lookUp?_eq`), in the store as it is and in whatever
becomes of it while the layers stay what they are (`Merges.rewritten`).

Such a table always exists: it is what one gets from setting the entries of
the layers in an empty one, those of the last layer first
(`merges_merged`).
-/
import Stencil.Proofs.Store.Entries
import Stencil.Proofs.Store.Layers

namespace Stencil.Store

variable {store store' : Store} {layers : List Value}
  {es : List (Value × Value)} {a b name : Value}

-- ============================================================ looking up

/-- The keys of layers can be keys, and the layers are tables. -/
def Mappings (store : Store) (layers : List Value) : Prop :=
  ∀ layer ∈ layers, store.access layer = .table ∧
    ∀ e ∈ store.entries layer, store.Keyable e.1

instance (store : Store) (layers : List Value) :
    Decidable (store.Mappings layers) :=
  inferInstanceAs (Decidable (∀ layer ∈ layers, _ ∧ ∀ e ∈ _, _))

theorem hasKey_mapping {layer : Value} (hlayer : store.access layer = .table)
    (hname : store.isHashable name = true) :
    store.hasKey layer name =
      (store.entry? (store.entries layer) name).isSome := by
  rw [hasKey, hlayer, hname]
  exact Bool.true_and _

/-- What cannot be a key is in no table. -/
theorem lookUp?_unhashable (hlayers : store.Mappings layers)
    (hname : store.isHashable name = false) :
    store.lookUp? layers name = none := by
  refine Option.bind_eq_none_iff.2 fun layer hfind => ?_
  have hkey := List.find?_some hfind
  obtain ⟨haccess, -⟩ := hlayers layer (List.mem_of_find?_eq_some hfind)
  rw [hasKey, haccess, hname] at hkey
  cases hkey

/-- The first layer is asked first. -/
theorem lookUp?_cons {layer : Value} (hlayer : store.access layer = .table)
    (hname : store.isHashable name = true) :
    store.lookUp? (layer :: layers) name =
      (store.entry? (store.entries layer) name).or
        (store.lookUp? layers name) := by
  rw [lookUp?, List.find?_cons, hasKey_mapping hlayer hname]
  cases hentry : store.entry? (store.entries layer) name with
  | some x => exact hentry
  | none => rfl

/-- Layers that have the same entries in two stores have the same value for
two names, if the same keys of theirs count as one with them. -/
theorem lookUp?_congr (hlayers : store.Mappings layers)
    (hlayers' : store'.Mappings layers)
    (ha : store.isHashable a = true) (hb : store'.isHashable b = true)
    (h : ∀ layer ∈ layers, store'.entries layer = store.entries layer ∧
      ∀ e ∈ store.entries layer,
        store'.sameKey e.1 b = store.sameKey e.1 a) :
    store'.lookUp? layers b = store.lookUp? layers a := by
  induction layers with
  | nil => rfl
  | cons layer rest ih =>
    obtain ⟨hlayer, hrest⟩ := List.forall_mem_cons.1 hlayers
    obtain ⟨hlayer', hrest'⟩ := List.forall_mem_cons.1 hlayers'
    obtain ⟨⟨hentries, hsame⟩, h⟩ := List.forall_mem_cons.1 h
    rw [lookUp?_cons hlayer.1 ha, lookUp?_cons hlayer'.1 hb, hentries,
      entry?_congr hsame, ih hrest hrest' h]

/-- The value found stands in an entry of one of the layers. -/
theorem entry_of_lookUp? {x : Value}
    (h : store.lookUp? layers name = some x) :
    ∃ layer ∈ layers, ∃ e ∈ store.entries layer,
      store.sameKey e.1 name = true := by
  obtain ⟨layer, hfind, hentry⟩ := Option.bind_eq_some_iff.1 h
  obtain ⟨e, he, -⟩ := Option.map_eq_some_iff.1 hentry
  have hsame := List.find?_some he
  exact ⟨layer, List.mem_of_find?_eq_some hfind, e,
    List.mem_of_find?_eq_some he, hsame⟩

/-- Layers that stay what they are stay mappings. -/
theorem Mappings.rewritten (h : store.Mappings layers)
    (hrewritten : store.Rewritten store') (hclosed : store.Closed [])
    (hkept : ∀ layer ∈ layers, store'.object? layer = store.object? layer) :
    store'.Mappings layers := by
  intro layer hlayer
  obtain ⟨haccess, hkeys⟩ := h layer hlayer
  refine ⟨?_, fun e he => ?_⟩
  · exact (access_congr (hkept layer hlayer)).trans haccess
  · rw [entries_congr (hkept layer hlayer)] at he
    exact (hkeys e he).rewritten hrewritten hclosed

-- =============================================================== merging

/-- Entries are those of layers merged: they have a key for each key of the
layers, with the value that the first layer holding the key has. A key that
does not even count as one with itself is no number, and never found. -/
structure Merges (store : Store) (layers : List Value)
    (es : List (Value × Value)) : Prop where
  wins : ∀ e ∈ es, store.sameKey e.1 e.1 = true →
    store.lookUp? layers e.1 = some e.2
  keeps : ∀ layer ∈ layers, ∀ e ∈ store.entries layer,
    store.sameKey e.1 e.1 = true → ∃ e' ∈ es, store.sameKey e'.1 e.1 = true

namespace Merges

/-- A name has the same value among merged entries as in the layers. -/
theorem entry?_eq (h : store.Merges layers es) (hclosed : store.Closed [])
    (hlayers : store.Mappings layers) (hes : ∀ e ∈ es, store.Keyable e.1)
    (hname : store.Keyable name) :
    store.entry? es name = store.lookUp? layers name := by
  have hself {k : Value} (hk : store.Keyable k)
      (hsame : store.sameKey k name = true) : store.sameKey k k = true :=
    sameKey_trans hclosed hk hname hk hsame (sameKey_symm hsame)
  cases hfind : es.find? fun e => store.sameKey e.1 name with
  | some e =>
    have he := List.mem_of_find?_eq_some hfind
    have hsame := List.find?_some hfind
    have hwins := h.wins e he (hself (hes e he) hsame)
    rw [Store.entry?, hfind, Option.map_some, ← hwins]
    refine lookUp?_congr hlayers hlayers hname.2 (hes e he).2
      fun layer hlayer => ⟨rfl, fun e' he' => ?_⟩
    exact sameKey_congr hclosed (hes e he) hname
      ((hlayers layer hlayer).2 e' he') hsame
  | none =>
    rw [Store.entry?, hfind, Option.map_none]
    cases hlookup : store.lookUp? layers name with
    | none => rfl
    | some x =>
      -- the key that the layers have for the name is merged
      obtain ⟨layer, hlayer, e, he, hsame⟩ :=
        entry_of_lookUp? hlookup
      have hkey := (hlayers layer hlayer).2 e he
      obtain ⟨e', he', hsame'⟩ := h.keeps layer hlayer e he (hself hkey hsame)
      have hfound :=
        sameKey_trans hclosed (hes e' he') hkey hname hsame' hsame
      exact absurd hfound (List.find?_eq_none.1 hfind e' he')

/-- A table of merged entries has the values that the layers have. -/
theorem lookUp?_eq (h : store.Merges layers es) (hclosed : store.Closed [])
    (hlayers : store.Mappings layers) {m : Value}
    (hm : store.object? m = some (.table es)) (hmkeys : store.Mappings [m])
    (hname : store.Has [] name) :
    store.lookUp? [m] name = store.lookUp? layers name := by
  cases hhash : store.isHashable name with
  | false =>
    rw [lookUp?_unhashable hlayers hhash, lookUp?_unhashable hmkeys hhash]
  | true =>
    obtain ⟨haccess, hkeys⟩ := hmkeys m (List.mem_singleton.2 rfl)
    have hentries := (access_table hm).2
    rw [hentries] at hkeys
    rw [lookUp?_cons haccess hhash, hentries,
      h.entry?_eq hclosed hlayers hkeys ⟨hname, hhash⟩]
    exact Option.or_none

/-- What merged entries are is a matter of the layers, whatever else has
become of the store. -/
theorem rewritten (h : store.Merges layers es)
    (hrewritten : store.Rewritten store') (hclosed : store.Closed [])
    (hlayers : store.Mappings layers) (hes : ∀ e ∈ es, store.Keyable e.1)
    (hkept : ∀ layer ∈ layers, store'.object? layer = store.object? layer) :
    store'.Merges layers es := by
  have hsame {a b : Value} (ha : store.Keyable a) (hb : store.Keyable b) :
      store'.sameKey a b = store.sameKey a b :=
    hrewritten.sameKey hclosed ha.1 hb.1 ha.2 hb.2
  have hentries : ∀ layer ∈ layers,
      store'.entries layer = store.entries layer :=
    fun layer hlayer => entries_congr (hkept layer hlayer)
  refine ⟨fun e he hself => ?_, fun layer hlayer e he hself => ?_⟩
  · have hkey := hes e he
    rw [hsame hkey hkey] at hself
    rw [← h.wins e he hself]
    refine lookUp?_congr hlayers (hlayers.rewritten hrewritten hclosed hkept)
      hkey.2 (hkey.rewritten hrewritten hclosed).2 fun layer hlayer =>
        ⟨hentries layer hlayer, fun e' he' => ?_⟩
    exact hsame ((hlayers layer hlayer).2 e' he') hkey
  · rw [hentries layer hlayer] at he
    have hkey := (hlayers layer hlayer).2 e he
    rw [hsame hkey hkey] at hself
    obtain ⟨e', he', hfound⟩ := h.keeps layer hlayer e he hself
    exact ⟨e', he', (hsame (hes e' he') hkey).trans hfound⟩

end Merges

/-- The entries of layers, set in an empty table from the last one to the
first. -/
def merged (store : Store) (layers : List Value) : List (Value × Value) :=
  (layers.flatMap store.entries).foldr
    (fun e es => store.setEntry e.1 e.2 es) []

/-- The first layer that holds a name has the first of all entries for
it. -/
theorem lookUp?_eq_find (hlayers : store.Mappings layers)
    (hname : store.isHashable name = true) :
    store.lookUp? layers name =
      store.entry? (layers.flatMap store.entries) name := by
  induction layers with
  | nil => rfl
  | cons layer rest ih =>
    obtain ⟨hlayer, hrest⟩ := List.forall_mem_cons.1 hlayers
    rw [lookUp?_cons hlayer.1 hname, ih hrest, List.flatMap_cons, entry?,
      entry?, entry?, List.find?_append]
    exact Option.map_or.symm

/-- Setting entries one after the other merges them: the keys are all
different, a name has the value of the first entry for it, and no entry is
left out. -/
theorem merged_spec (hclosed : store.Closed [])
    (hes : ∀ e ∈ es, store.Keyable e.1) {all : List (Value × Value)}
    (hall : all = es.foldr (fun e es => store.setEntry e.1 e.2 es) []) :
    (∀ e ∈ all, store.Keyable e.1) ∧
      (all.Pairwise fun e e' => store.sameKey e.1 e'.1 = false) ∧
      ∀ name, store.Keyable name →
        store.entry? all name = store.entry? es name := by
  induction es generalizing all with
  | nil =>
    subst hall
    exact ⟨hes, .nil, fun _ _ => rfl⟩
  | cons e es ih =>
    obtain ⟨he, hes⟩ := List.forall_mem_cons.1 hes
    obtain ⟨hkeys, hdifferent, hentry⟩ := ih hes rfl
    rw [List.foldr_cons] at hall
    subst hall
    refine ⟨fun e' he' => ?_, pairwise_setEntry hdifferent,
      fun name hname => ?_⟩
    · rcases mem_setEntry he' with ⟨e'', he'', hkey, -⟩ | rfl
      · exact hkey ▸ hkeys e'' he''
      · exact he
    · rw [Store.entry?_setEntry hclosed hkeys he hname, hentry name hname]
      simp only [Store.entry?, List.find?_cons]
      cases store.sameKey e.1 name with
      | true => rfl
      | false => rfl

/-- The keys of all layers can be keys. -/
theorem Mappings.keyable (hlayers : store.Mappings layers)
    {e : Value × Value} (he : e ∈ layers.flatMap store.entries) :
    store.Keyable e.1 := by
  obtain ⟨layer, hlayer, he⟩ := List.mem_flatMap.1 he
  exact (hlayers layer hlayer).2 e he

/-- A value that is among entries set one after the other stands in one of
them. -/
theorem mem_foldr_setEntry {e : Value × Value}
    (he : e ∈ es.foldr (fun e es => store.setEntry e.1 e.2 es) []) :
    ∃ e' ∈ es, e.2 = e'.2 := by
  induction es generalizing e with
  | nil => cases he
  | cons first es ih =>
    rw [List.foldr_cons] at he
    rcases mem_setEntry he with ⟨e', he', -, hold | hnew⟩ | rfl
    · obtain ⟨e'', he'', hvalue⟩ := ih he'
      exact ⟨e'', List.mem_cons_of_mem _ he'', hold.trans hvalue⟩
    · exact ⟨first, List.mem_cons_self .., hnew⟩
    · exact ⟨first, List.mem_cons_self .., rfl⟩

/-- The keys of merged entries can be keys, and their values stand in
entries of the layers. -/
theorem mem_merged (hclosed : store.Closed [])
    (hlayers : store.Mappings layers) {e : Value × Value}
    (he : e ∈ store.merged layers) :
    store.Keyable e.1 ∧
      ∃ layer ∈ layers, ∃ e' ∈ store.entries layer, e.2 = e'.2 := by
  obtain ⟨e', he', hvalue⟩ := mem_foldr_setEntry he
  obtain ⟨layer, hlayer, he'⟩ := List.mem_flatMap.1 he'
  exact ⟨(merged_spec hclosed (fun _ => hlayers.keyable) rfl).1 e he,
    layer, hlayer, e', he', hvalue⟩

/-- Layers have a merged table. -/
theorem merges_merged (hclosed : store.Closed [])
    (hlayers : store.Mappings layers) :
    store.Merges layers (store.merged layers) := by
  obtain ⟨hkeys, hdifferent, hentry⟩ :=
    merged_spec hclosed (fun _ => hlayers.keyable) rfl
  refine ⟨fun e he hself => ?_, fun layer hlayer e he hself => ?_⟩
  · have hkey := hkeys e he
    rw [lookUp?_eq_find hlayers hkey.2, ← hentry _ hkey]
    exact entry?_of_mem hdifferent he hself
  · have hkey := (hlayers layer hlayer).2 e he
    -- the layer has an entry for the key, so there is a first one
    have hsome : (store.lookUp? layers e.1).isSome = true := by
      rw [lookUp?_eq_find hlayers hkey.2, entry?, Option.isSome_map,
        List.find?_isSome]
      exact ⟨e, List.mem_flatMap.2 ⟨layer, hlayer, he⟩, hself⟩
    rw [lookUp?_eq_find hlayers hkey.2, ← hentry _ hkey, entry?,
      Option.isSome_map, List.find?_isSome] at hsome
    exact hsome

end Stencil.Store
