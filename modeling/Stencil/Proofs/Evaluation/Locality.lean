/-
Evaluation sees what a context can reach.

Some objects and some contexts of a world are an enclosure when all that
they refer to is among them. What happens to the rest of the world cannot be
told from inside: where the enclosure has been kept, names that are looked
up in one of its contexts stand for the same things
(`findVariable_alike`).

The two worlds need not have objects at the same places beyond the enclosure,
nor equally many, so neither is the other one moved. But the enclosure can be
taken out, numbered anew, as a world of its own. Both worlds are this one
moved, with all that is still to come behind what they have
(`Keeps.moved_excerpt`), and a run on the excerpt is mirrored by one on
each.

No slot in an enclosure holds a deferred value. So nothing that stands there
is ever written to.
-/
import Mathlib.Data.List.Nodup
import Stencil.Proofs.Evaluation.Relocation

namespace Stencil

-- ============================================================== places

namespace Excerpt

variable {kept : List Nat} {bound i j : Nat}

/-- Where stands what comes at a place of an excerpt: what is kept stands
where it stood, and the rest behind a bound, in order. -/
def place (kept : List Nat) (bound j : Nat) : Nat :=
  kept[j]?.getD (bound + (j - kept.length))

theorem place_of_lt (h : j < kept.length) : place kept bound j = kept[j] := by
  rw [place, List.getElem?_eq_getElem h, Option.getD_some]

theorem place_add (kept : List Nat) (bound n : Nat) :
    place kept bound (kept.length + n) = bound + n := by
  rw [place, List.getElem?_eq_none (Nat.le_add_right _ _), Option.getD_none,
    Nat.add_sub_cancel_left]

theorem place_idxOf (h : i ∈ kept) :
    place kept bound (kept.idxOf i) = i := by
  rw [place_of_lt (List.idxOf_lt_length_of_mem h), List.getElem_idxOf]

/-- A place of an excerpt is one of what is kept, or behind all that. -/
theorem place_cases (kept : List Nat) (j : Nat) :
    (∃ h : j < kept.length, ∀ bound, place kept bound j = kept[j]) ∨
      ∃ n, j = kept.length + n ∧ ∀ bound, place kept bound j = bound + n := by
  rcases Nat.lt_or_ge j kept.length with h | h
  · exact Or.inl ⟨h, fun bound => place_of_lt h⟩
  · obtain ⟨n, rfl⟩ := Nat.exists_eq_add_of_le h
    exact Or.inr ⟨n, rfl, fun bound => place_add kept bound n⟩

theorem place_injective (hdistinct : kept.Nodup)
    (hbound : ∀ i ∈ kept, i < bound) :
    Function.Injective (place kept bound) := by
  intro j k hjk
  rcases place_cases kept j with ⟨hj, hplace⟩ | ⟨m, rfl, hplace⟩ <;>
    rcases place_cases kept k with ⟨hk, hplace'⟩ | ⟨n, rfl, hplace'⟩ <;>
    rw [hplace, hplace'] at hjk
  · exact (List.Nodup.getElem_inj_iff hdistinct).1 hjk
  · have hlt := hbound _ (List.getElem_mem hj)
    omega
  · have hlt := hbound _ (List.getElem_mem hk)
    omega
  · omega

/-- To move on what comes behind a bound is to put the bound further
behind. -/
theorem shift_comp_place (hbound : ∀ i ∈ kept, i < bound) (n : Nat) :
    Store.shift bound n ∘ place kept bound = place kept (bound + n) := by
  funext j
  rw [Function.comp]
  rcases place_cases kept j with ⟨hj, hplace⟩ | ⟨m, rfl, hplace⟩
  · rw [hplace, hplace,
      Store.shift_of_lt (hbound _ (List.getElem_mem hj))]
  · rw [hplace, hplace, Store.shift_add, Nat.add_right_comm]

/-- The places of an excerpt are those of what is kept and those behind. -/
theorem exists_place_iff :
    (∃ j, place kept bound j = i) ↔ i ∈ kept ∨ bound ≤ i := by
  constructor
  · rintro ⟨j, rfl⟩
    rcases place_cases kept j with ⟨hj, hplace⟩ | ⟨n, rfl, hplace⟩
    · exact Or.inl (hplace bound ▸ List.getElem_mem hj)
    · exact Or.inr (hplace bound ▸ Nat.le_add_right bound n)
  · rintro (h | h)
    · exact ⟨_, place_idxOf h⟩
    · obtain ⟨n, rfl⟩ := Nat.exists_eq_add_of_le h
      exact ⟨_, place_add kept bound n⟩

end Excerpt

-- ========================================================== enclosures

/-- If a value is an object, it is one of those listed. -/
def Value.Within (objects : List ObjectId) (v : Value) : Prop :=
  ∀ i, v = .object i → i ∈ objects

instance (objects : List ObjectId) (v : Value) :
    Decidable (v.Within objects) :=
  match v with
  | .object i =>
    decidable_of_iff (i ∈ objects)
      ⟨fun h j hj => by cases hj; exact h, fun h => h i rfl⟩
  | .nil | .bool _ | .int _ | .float _ | .text _ | .bytes _ | .range _ _
  | .probe _ => .isTrue fun _ h => by cases h

/-- A listed value is numbered anew and put back in its place. -/
theorem Value.Within.move_place {objects : List ObjectId} {v : Value}
    (hv : v.Within objects) (n : Nat) :
    (v.move (objects.idxOf ·)).move (Excerpt.place objects n) = v := by
  cases v with
  | object i =>
    exact congrArg Value.object (Excerpt.place_idxOf (hv i rfl))
  | _ => rfl

/-- The context that an object is bound to. -/
def Object.bound? : Object → Option ContextId
  | .drop d => d.bound
  | _ => none

/-- A context with the objects moved. -/
def Context.move (f : ObjectId → ObjectId) (c : Context) : Context :=
  ⟨c.scopes.map (Value.move f), c.environments.map (Value.move f), c.strict⟩

theorem Context.layers_move (f : ObjectId → ObjectId) (c : Context) :
    (c.move f).layers = c.layers.map (Value.move f) :=
  List.map_append.symm

namespace World

variable {objects : List ObjectId} {contexts : List ContextId}
  {w u t t' : World}

/-- Objects and contexts that are there, each listed once, and refer to each
other only. No slot among them holds a deferred value. -/
structure Enclosure (w : World) (objects : List ObjectId)
    (contexts : List ContextId) : Prop where
  distinct : objects.Nodup ∧ contexts.Nodup
  there : ∀ i ∈ objects, i < w.store.size
  contextsThere : ∀ c ∈ contexts, c < w.contexts.size
  values : ∀ i ∈ objects, ∀ o ∈ w.store.get? i, ∀ v ∈ o.values,
    v.Within objects
  bound : ∀ i ∈ objects, ∀ o ∈ w.store.get? i, ∀ c ∈ o.bound?, c ∈ contexts
  slots : ∀ i ∈ objects, ∀ o ∈ w.store.get? i, ∀ v ∈ o.slots,
    w.store.deferred? v = none
  layers : ∀ c ∈ contexts, ∀ v ∈ (w.context c).layers, v.Within objects

/-- Some objects and contexts of a world are as they are in another one,
which has no fewer. -/
structure Keeps (w : World) (objects : List ObjectId)
    (contexts : List ContextId) (u : World) : Prop where
  get? : ∀ i ∈ objects, u.store.get? i = w.store.get? i
  context : ∀ c ∈ contexts, u.contexts[c]? = w.contexts[c]?
  size_le : w.store.size ≤ u.store.size
  contexts_le : w.contexts.size ≤ u.contexts.size

theorem Keeps.refl (w : World) : w.Keeps objects contexts w :=
  ⟨fun _ _ => rfl, fun _ _ => rfl, Nat.le_refl _, Nat.le_refl _⟩

/-- Some objects and contexts of a world, numbered in the order of their
lists, as a world. -/
def excerpt (w : World) (objects : List ObjectId)
    (contexts : List ContextId) : World :=
  { w with
    store := ⟨(objects.map fun i => ((w.store.get? i).getD (.list [])).move
      (objects.idxOf ·) (contexts.idxOf ·)).toArray⟩
    contexts := (contexts.map fun c =>
      (w.context c).move (objects.idxOf ·)).toArray }

theorem size_excerpt :
    (w.excerpt objects contexts).store.size = objects.length := by
  rw [Store.size, excerpt, List.size_toArray, List.length_map]

theorem size_contexts_excerpt :
    (w.excerpt objects contexts).contexts.size = contexts.length := by
  rw [excerpt, List.size_toArray, List.length_map]

theorem get?_excerpt {i : ObjectId} (hi : i < objects.length) :
    (w.excerpt objects contexts).store.get? i =
      some (((w.store.get? objects[i]).getD (.list [])).move
        (objects.idxOf ·) (contexts.idxOf ·)) := by
  rw [Store.get?, excerpt, List.getElem?_toArray, List.getElem?_map,
    List.getElem?_eq_getElem hi, Option.map_some]

theorem context_excerpt {c : ContextId} (hc : c < contexts.length) :
    (w.excerpt objects contexts).context c =
      (w.context contexts[c]).move (objects.idxOf ·) := by
  rw [context, excerpt, List.getElem?_toArray, List.getElem?_map,
    List.getElem?_eq_getElem hc, Option.map_some, Option.getD_some]

/-- A listed value is there in the excerpt. -/
theorem has_excerpt {v : Value} (hv : v.Within objects) :
    (w.excerpt objects contexts).store.Has [] (v.move (objects.idxOf ·)) := by
  cases v with
  | object i =>
    refine Value.below_object.2 ⟨?_, List.not_mem_nil⟩
    rw [size_excerpt]
    exact List.idxOf_lt_length_of_mem (hv i rfl)
  | _ => exact fun _ heq => by cases heq

namespace Enclosure

variable (h : w.Enclosure objects contexts)

include h

/-- An object of the excerpt is one of those kept, numbered anew. -/
theorem exists_of_excerpt {i : ObjectId} {o : Object}
    (ho : (w.excerpt objects contexts).store.get? i = some o) :
    ∃ hi : i < objects.length, ∃ o', w.store.get? objects[i] = some o' ∧
      o = o'.move (objects.idxOf ·) (contexts.idxOf ·) := by
  have hi : i < objects.length := size_excerpt ▸ Store.lt_size_of_get? ho
  obtain ⟨o', ho'⟩ :=
    Store.exists_get? (h.there _ (List.getElem_mem hi))
  rw [get?_excerpt hi, ho', Option.getD_some] at ho
  exact ⟨hi, o', ho', (Option.some.inj ho).symm⟩

/-- An object of the enclosure is numbered anew and put back in its
place. -/
theorem object_move_place {i : ObjectId} (hi : i ∈ objects) {o : Object}
    (ho : w.store.get? i = some o) (m n : Nat) :
    (o.move (objects.idxOf ·) (contexts.idxOf ·)).move
      (Excerpt.place objects m) (Excerpt.place contexts n) = o := by
  rw [Object.move_move]
  refine Object.move_eq_self (fun v hv => ?_) fun d hd => ?_
  · rw [← Value.move_move]
    exact (h.values i hi o ho v hv).move_place m
  · subst hd
    cases hbound : d.bound with
    | none => rfl
    | some c =>
      exact congrArg some
        (Excerpt.place_idxOf (h.bound i hi _ ho c hbound))

/-- A context of the enclosure is numbered anew and put back in its
place. -/
theorem context_move_place {c : ContextId} (hc : c ∈ contexts) (n : Nat) :
    ((w.context c).move (objects.idxOf ·)).move (Excerpt.place objects n) =
      w.context c := by
  have hvalues {vs : List Value} (hvs : ∀ v ∈ vs, v.Within objects) :
      (vs.map (Value.move (objects.idxOf ·))).map
        (Value.move (Excerpt.place objects n)) = vs := by
    rw [List.map_map]
    exact (List.map_congr_left fun v hv => (hvs v hv).move_place n).trans
      (List.map_id vs)
  have hlayers := h.layers c hc
  rw [Context.move, Context.move,
    hvalues fun v hv => hlayers v (List.mem_append_left _ hv),
    hvalues fun v hv => hlayers v (List.mem_append_right _ hv)]

end Enclosure

namespace Keeps

variable (hu : w.Keeps objects contexts u) (h : w.Enclosure objects contexts)

include hu h

/-- The store of a world that keeps an enclosure has the objects of the
excerpt, moved. -/
theorem embeds_excerpt :
    Store.Embeds (Excerpt.place objects u.store.size)
      (Excerpt.place contexts u.contexts.size) []
      (w.excerpt objects contexts).store u.store := by
  refine ⟨Excerpt.place_injective h.distinct.1
      fun i hi => Nat.lt_of_lt_of_le (h.there i hi) hu.size_le,
    fun i o _ ho => ?_, fun i hi => absurd hi List.not_mem_nil⟩
  obtain ⟨hi, o', ho', rfl⟩ := h.exists_of_excerpt ho
  have hmem := List.getElem_mem hi
  rw [h.object_move_place hmem ho', Excerpt.place_of_lt hi, hu.get? _ hmem,
    ho']

/-- The contexts are those of the excerpt, moved. -/
theorem context_place (c : ContextId) :
    u.context (Excerpt.place contexts u.contexts.size c) =
      ((w.excerpt objects contexts).context c).move
        (Excerpt.place objects u.store.size) := by
  rcases Excerpt.place_cases contexts c with ⟨hc, hplace⟩ |
    ⟨n, rfl, hplace⟩
  · have hmem := List.getElem_mem hc
    rw [hplace, context_excerpt hc, h.context_move_place hmem]
    exact congrArg (·.getD ⟨[], [], false⟩) (hu.context _ hmem)
  · rw [hplace, context_of_ge (Nat.le_add_right _ _), context_of_ge]
    · rfl
    · rw [size_contexts_excerpt]
      exact Nat.le_add_right _ _

/-- A world that keeps an enclosure is the excerpt moved. -/
theorem moved_excerpt :
    (w.excerpt objects contexts).Moved
      (Excerpt.place objects u.store.size)
      (Excerpt.place contexts u.contexts.size) [] False u := by
  have hclosed : (w.excerpt objects contexts).store.Closed [] := by
    intro i o ho v hv
    obtain ⟨hi, o', ho', rfl⟩ := h.exists_of_excerpt ho
    rw [Object.values_move] at hv
    obtain ⟨x, hx, rfl⟩ := List.mem_map.1 hv
    exact has_excerpt
      (h.values _ (List.getElem_mem hi) o' ho' x hx)
  have hslots : ∀ i o, (w.excerpt objects contexts).store.get? i = some o →
      ∀ v ∈ o.slots,
        (w.excerpt objects contexts).store.deferred? v = none := by
    intro i o ho v hv
    obtain ⟨hi, o', ho', rfl⟩ := h.exists_of_excerpt ho
    rw [Object.slots_move] at hv
    obtain ⟨x, hx, rfl⟩ := List.mem_map.1 hv
    have hmem := List.getElem_mem hi
    have hwithin := h.values _ hmem o' ho' x
      (Object.mem_values_of_mem_slots hx)
    have hsame := ((Keeps.refl w).embeds_excerpt h).deferred?
      (has_excerpt hwithin)
    rw [hwithin.move_place, h.slots _ hmem o' ho' x hx] at hsame
    exact Option.map_eq_none_iff.1 hsame.symm
  have hnone {v : Value}
      (hv : (w.excerpt objects contexts).store.InRoot [] v) : False := by
    obtain ⟨i, hi, -⟩ := hv
    cases hi
  refine ⟨⟨hu.embeds_excerpt h, fun n => ?_, hclosed,
      ⟨fun i o _ => hslots i o, fun v d hv => (hnone hv).elim,
        fun v d hv => (hnone hv).elim⟩,
      False.elim, False.elim⟩,
    Excerpt.place_injective h.distinct.2
      fun c hc => Nat.lt_of_lt_of_le (h.contextsThere c hc) hu.contexts_le,
    fun c => ?_, fun c => ?_, fun c v hv => Or.inl ?_⟩
  · rw [size_excerpt]
    exact Excerpt.place_add objects u.store.size n
  · rw [hu.context_place h, Context.layers_move]
  · rw [hu.context_place h]
    rfl
  · rcases Excerpt.place_cases contexts c with ⟨hc, -⟩ | ⟨n, rfl, -⟩
    · rw [context_excerpt hc, Context.layers_move] at hv
      obtain ⟨x, hx, rfl⟩ := List.mem_map.1 hv
      exact has_excerpt (h.layers _ (List.getElem_mem hc) x hx)
    · rw [context_of_ge] at hv
      · cases hv
      · rw [size_contexts_excerpt]
        exact Nat.le_add_right _ _

end Keeps

-- ========================================================= counterparts

/-- An object that is listed, or has been made since. -/
def Near (w : World) (objects : List ObjectId) (i : ObjectId) : Prop :=
  i ∈ objects ∨ w.store.size ≤ i

/-- Two worlds have gone on from one and the same, or from two in which the
listed objects are the same, and have matching objects now: what was there
stands where it stood, and what has been made since may stand elsewhere. -/
structure Matches (w : World) (objects : List ObjectId)
    (f : ObjectId → ObjectId) (g : ContextId → ContextId) (t t' : World) :
    Prop where
  injective : Function.Injective f
  fixed : ∀ i < w.store.size, f i = i
  fixedContexts : ∀ c < w.contexts.size, g c = c
  get? : ∀ i o, w.Near objects i → t.store.get? i = some o →
    t'.store.get? (f i) = some (o.move f g)
  near : ∀ i o, w.Near objects i → t.store.get? i = some o →
    ∀ j, .object j ∈ o.values → w.Near objects j

/-- Two values are the same but for the places of what has been made since,
and so is all that they refer to. -/
def Counterparts (w : World) (objects : List ObjectId) (t t' : World)
    (a b : Value) : Prop :=
  ∃ f g, w.Matches objects f g t t' ∧ b = a.move f ∧
    ∀ i, a = .object i → w.Near objects i

/-- What stands at a place of the excerpt is listed, or has been made
since. -/
theorem near_of_move {v : Value} {i : ObjectId}
    (hv : v.move (Excerpt.place objects w.store.size) = .object i) :
    w.Near objects i := by
  cases v with
  | object j => exact Excerpt.exists_place_iff.1 ⟨j, Value.object.inj hv⟩
  | _ => cases hv

/-- A near object of a world that is the excerpt moved was one of the
excerpt, or has been made as one was there. -/
theorem exists_of_near {e : World}
    (ht : e.Moved (Excerpt.place objects w.store.size)
      (Excerpt.place contexts w.contexts.size) [] False t)
    {i : ObjectId} {o : Object} (hi : w.Near objects i)
    (ho : t.store.get? i = some o) :
    ∃ j o', e.store.get? j = some o' ∧
      i = Excerpt.place objects w.store.size j ∧
      o = o'.move (Excerpt.place objects w.store.size)
        (Excerpt.place contexts w.contexts.size) := by
  obtain ⟨j, rfl⟩ := Excerpt.exists_place_iff.2 hi
  have hj : j < e.store.size := by
    refine Nat.lt_of_not_le fun hle => ?_
    obtain ⟨k, rfl⟩ := Nat.exists_eq_add_of_le hle
    have hlt := Store.lt_size_of_get? ho
    rw [ht.store.next k] at hlt
    exact absurd hlt (Nat.not_lt_of_le (Nat.le_add_right _ _))
  obtain ⟨o', ho'⟩ := Store.exists_get? hj
  have hsame := ht.store.get? j o' List.not_mem_nil ho'
  exact ⟨j, o', ho', rfl, Option.some.inj (ho.symm.trans hsame)⟩

namespace Enclosure

variable {e : World} {m n : Nat} (h : w.Enclosure objects contexts)
  (ht : e.Moved (Excerpt.place objects w.store.size)
    (Excerpt.place contexts w.contexts.size) [] False t)
  (ht' : e.Moved (Excerpt.place objects (w.store.size + m))
    (Excerpt.place contexts (w.contexts.size + n)) [] False t')

include h ht ht'

/-- Two worlds that the excerpt has been moved to match. -/
theorem matches_of_moved :
    w.Matches objects (Store.shift w.store.size m)
      (Store.shift w.contexts.size n) t t' := by
  have hf := Excerpt.shift_comp_place h.there m
  have hg := Excerpt.shift_comp_place h.contextsThere n
  refine ⟨Store.shift_injective _ _, fun i hi => Store.shift_of_lt hi,
    fun c hc => Store.shift_of_lt hc, fun i o hi ho => ?_,
    fun i o hi ho k hk => ?_⟩
  · obtain ⟨j, o', ho', rfl, rfl⟩ := exists_of_near ht hi ho
    rw [Object.move_move, hf, hg]
    exact (congrArg _ (congrFun hf j)).trans
      (ht'.store.get? j o' List.not_mem_nil ho')
  · obtain ⟨j, o', ho', rfl, rfl⟩ := exists_of_near ht hi ho
    rw [Object.values_move] at hk
    obtain ⟨v, -, hv⟩ := List.mem_map.1 hk
    exact near_of_move hv

/-- A value of the excerpt has been moved to counterparts. -/
theorem counterparts (v : Value) :
    w.Counterparts objects t t'
      (v.move (Excerpt.place objects w.store.size))
      (v.move (Excerpt.place objects (w.store.size + m))) := by
  refine ⟨_, _, h.matches_of_moved ht ht', ?_, fun i => near_of_move⟩
  rw [Value.move_move, Excerpt.shift_comp_place h.there]

end Enclosure

end World

namespace Eval

variable {objects : List ObjectId} {contexts : List ContextId}
  {w u : World}

/-- A run on the excerpt is mirrored by one on each of two worlds that keep
the enclosure. So these end alike. -/
theorem alike_of_excerpt {x₀ x y : Eval Value}
    (h : w.Enclosure objects contexts) (hu : w.Keeps objects contexts u)
    (hx : Carries (Excerpt.place objects w.store.size)
      (Excerpt.place contexts w.contexts.size) [] False x₀ x
      (w.excerpt objects contexts) w)
    (hy : Carries (Excerpt.place objects u.store.size)
      (Excerpt.place contexts u.contexts.size) [] False x₀ y
      (w.excerpt objects contexts) u) :
    Alike (w.Counterparts objects (x w).2 (y u).2) (x w).1 (y u).1 := by
  obtain ⟨-, ht, houtcome⟩ := hx ((World.Keeps.refl w).moved_excerpt h)
  obtain ⟨-, ht', houtcome'⟩ := hy (hu.moved_excerpt h)
  obtain ⟨m, hm⟩ := Nat.exists_eq_add_of_le hu.size_le
  obtain ⟨n, hn⟩ := Nat.exists_eq_add_of_le hu.contexts_le
  rw [hm] at houtcome'
  rw [hm, hn] at ht'
  refine houtcome.of_both houtcome' ?_
  rintro v _ _ ⟨-, rfl⟩ ⟨-, rfl⟩
  exact h.counterparts ht ht' v

/-- Where an enclosure has been kept, a name stands for the same in its
contexts. -/
theorem findVariable_alike (h : w.Enclosure objects contexts)
    (hu : w.Keeps objects contexts u) {ctx : ContextId}
    (hctx : ctx ∈ contexts) {name : Value} (hname : name.Within objects) :
    Alike
      (w.Counterparts objects (findVariable markup ctx name w).2
        (findVariable markup ctx name u).2)
      (findVariable markup ctx name w).1
      (findVariable markup ctx name u).1 := by
  have hcarries (t : World) :
      Carries (Excerpt.place objects t.store.size)
        (Excerpt.place contexts t.contexts.size) [] False
        (findVariable markup (contexts.idxOf ctx)
          (name.move (objects.idxOf ·)))
        (findVariable markup ctx name) (w.excerpt objects contexts) t := by
    have hrun : Carries (Excerpt.place objects t.store.size)
        (Excerpt.place contexts t.contexts.size) [] False
        (findVariable markup (contexts.idxOf ctx)
          (name.move (objects.idxOf ·))) _ (w.excerpt objects contexts) t :=
      mirrors_findVariable (mirrors_markupWithin maxDepth) _
        (World.has_excerpt hname)
    rwa [Excerpt.place_idxOf hctx, hname.move_place] at hrun
  exact alike_of_excerpt h hu (hcarries w) (hcarries u)

end Eval

end Stencil
