/-
Paths do not show which data are deferred.

A path can be evaluated in two worlds: one in which data are deferred, and
one in which they have been settled beforehand. In the first world values
are forced on the way, each time or only the first time, depending on
whether the object they stand in remembers; the second world never changes.
Both evaluations come to the same end all the same.

The invariant is that the store of the first world, settled, is the store
of the second one. A step finds in the second world what it finds in the
first, settled (`Store.fetch_settled`), and that is what forcing gives; and
where the forced value is remembered, the settled store stays the same
(`Store.IsData.refill`). So the invariant holds from one path to the next,
in any sequence of them.

The roots and keys of the paths may be paths themselves, at any depth. They
have to be scalars where they have a value. It is enough to know this of
the data as they are at first: by the same invariant they have that value
whenever they are evaluated.
-/
import Stencil.Proofs.Evaluation.Lookalike
import Stencil.Proofs.Store.Settled

namespace Stencil

-- ================================================================ paths

mutual

/-- An expression is a constant or a path all of whose roots and keys meet
a condition, and which asks for no commands. -/
def Expr.Keyed (S : Expr → Prop) : Expr → Prop
  | .const _ => True
  | .path p => p.Keyed S
  | .range _ _ => False

/-- All roots and keys of a path meet a condition, and so do those in them;
no step asks for a command. -/
def Path.Keyed (S : Expr → Prop) : Path → Prop
  | .root name => S name ∧ name.Keyed S
  | .step path key command =>
    path.Keyed S ∧ command = none ∧ S key ∧ key.Keyed S

end

-- =============================================================== worlds

/-- A world of data that are settled in another one, with the same
contexts. -/
structure World.Settling (settled : Store) (contexts : Array Context)
    (w w' : World) : Prop where
  data : w.store.IsData
  settled_eq : w.store.settled = settled
  store_eq : w'.store = settled
  contexts_eq : w.contexts = contexts
  contexts_eq' : w'.contexts = contexts

/-- A run on data beside a run on the settled data. -/
def Course.settling (settled : Store) (contexts : Array Context) :
    Course World where
  related := World.Settling settled contexts
  later _ _ := True
  refl _ := trivial
  trans _ _ _ := trivial

namespace World.Settling

variable {settled : Store} {contexts : Array Context} {w w' : World}

theorem store' (h : w.Settling settled contexts w') :
    w'.store = w.store.settled :=
  h.store_eq.trans h.settled_eq.symm

theorem context' (h : w.Settling settled contexts w') (ctx : ContextId) :
    w'.context ctx = w.context ctx := by
  rw [World.context, World.context, h.contexts_eq, h.contexts_eq']

/-- Where two worlds are settled in the same way, one of them is settled in
every world in which the other one is. -/
theorem meets {u u' : World} (h : w.Settling settled contexts w')
    (hu : u.Settling settled contexts u') :
    w.Settling settled contexts u' :=
  ⟨h.data, h.settled_eq, hu.store_eq, h.contexts_eq, hu.contexts_eq'⟩

end World.Settling

namespace Eval

variable {settled : Store} {contexts : Array Context} {w w' : World}
  {reenter : Reenter} {ctx : ContextId} {v key x y : Value}

/-- The same value is given, and it is not deferred. -/
abbrev Settledly (settled : Store) : World → Value → Value → Prop :=
  fun _ a b => b = a ∧ settled.deferred? a = none

/-- The same value is given or none, and it is not deferred. -/
abbrev Settledly? (settled : Store) :
    World → Option Value → Option Value → Prop :=
  fun _ a b => b = a ∧ ∀ v ∈ a, settled.deferred? v = none

/-- The second action does on the settled data as the first one on the
data. -/
abbrev SettlingDoes {α : Type} (settled : Store) (contexts : Array Context)
    (Q : World → α → α → Prop) (x y : Eval α) (w w' : World) : Prop :=
  Mirrors (Course.settling settled contexts) Q x y w w'

theorem settling_note (message message' : Store → Except Failure String) :
    SettlingDoes settled contexts Identically (note message)
      (note message') w w' :=
  .modify fun h => ⟨trivial,
    ⟨h.data, h.settled_eq, h.store_eq, h.contexts_eq, h.contexts_eq'⟩, rfl⟩

/-- The objects may be looked at: in the second world they are settled. -/
theorem settling_store_bind {α : Type} {Q : World → α → α → Prop}
    {f g : Store → Eval α}
    (h : SettlingDoes settled contexts Q (f w.store) (g w.store.settled)
      w w') :
    SettlingDoes settled contexts Q (store >>= f) (store >>= g) w w' := by
  intro hw
  rw [store_bind_apply, store_bind_apply, hw.store']
  exact h hw

-- ============================================================= receiving

/-- Data are received as they are. -/
theorem receive_of_data (h : w.store.IsData) (v : Value) :
    receive reenter ctx v w = (.ok v, w) := by
  have hvalue : toTemplateValue reenter v w = (.ok v, w) := by
    rw [toTemplateValue, store_bind_apply]
    cases ho : w.store.object? v with
    | none => rfl
    | some o =>
      cases o with
      | drop d => exact absurd rfl ((h.object?_cases ho).1 d)
      | host x => exact absurd rfl ((h.object?_cases ho).2 x)
      | _ => rfl
  rw [receive, bind_apply, hvalue]
  show Eval.bind ctx v w = _
  rw [Eval.bind, store_bind_apply]
  cases ho : w.store.object? v with
  | none => rfl
  | some o =>
    cases o with
    | drop d => exact absurd rfl ((h.object?_cases ho).1 d)
    | _ => rfl

theorem settling_receive (hv : settled.deferred? v = none) :
    SettlingDoes settled contexts (Settledly settled)
      (receive reenter ctx v) (receive reenter ctx v) w w' := by
  intro h
  have hdata' : w'.store.IsData := h.store' ▸ h.data.settled
  rw [receive_of_data h.data, receive_of_data hdata']
  exact ⟨trivial, h, .ok ⟨rfl, hv⟩⟩

-- =============================================================== forcing

/-- A forced value is put where its deferred value was found, or nowhere,
and the settled store is the same. -/
theorem remember_settling (h : w.Settling settled contexts w')
    (hfetch : w.store.fetch v key = .ok x) (hx : x ≠ .nil)
    (hxy : w.store.settle y = w.store.settle x) :
    ∃ u, remember v key y w = (.ok (), u) ∧
      u.Settling settled contexts w' := by
  -- the slot is filled in the store in which the value was found
  have hfill {id : ObjectId} {o : Object} {k : Nat}
      (hid : w.store.get? id = some o) (hslot : o.slot? k = some x) :
      World.Settling settled contexts
        { w with store := w.store.put id (o.refill k y) } w' := by
    obtain ⟨hdata, heq⟩ := h.data.refill hid hslot hxy
    exact ⟨hdata, heq.trans h.settled_eq, h.store_eq, h.contexts_eq,
      h.contexts_eq'⟩
  cases ho : w.store.object? v with
  | none =>
    refine ⟨w, ?_, h⟩
    rw [remember, store_bind_apply, ho]
    cases v <;> rfl
  | some o =>
    obtain ⟨id, rfl, hid⟩ := Store.object?_eq_some.1 ho
    cases o with
    | list xs =>
      obtain ⟨k, hk, hslot⟩ := Store.slot_of_fetch_list ho hfetch hx
      exact ⟨_, remember_list hid hk, hfill hid hslot⟩
    | table es =>
      obtain ⟨-, hentry⟩ := Store.entry_of_fetch_table ho hfetch hx
      have hsame : ∀ e ∈ es, w.store.sameKey e.1 key =
          w.store.sameKey e.1 key := fun _ _ => rfl
      obtain ⟨k, hslot, hput⟩ := Store.slot_of_entry rfl hsame hentry
      refine ⟨_, remember_table hid, ?_⟩
      rw [hput y]
      exact hfill hid hslot
    | _ =>
      refine ⟨w, remember_other ho ?_ ?_, h⟩
      · exact fun _ heq => by cases heq
      · exact fun _ heq => by cases heq

/-- A part under a scalar key is in the end what it is among the settled
data. -/
theorem settling_forcedPart (hkey : key.IsScalar) :
    SettlingDoes settled contexts (Settledly settled)
      (forcedPart reenter ctx v key) (forcedPart reenter ctx v key)
      w w' := by
  intro h
  have hfetch' := w.store.fetch_settled hkey v
  rw [← h.store'] at hfetch'
  have hnone (z : Value) : w'.store.deferred? (w.store.settle z) = none := by
    rw [h.store', Store.deferred?_settled, h.data.deferred?_settle]
  have hdrop' : w'.store.drop? v = none :=
    (h.store' ▸ h.data.settled : w'.store.IsData).drop?_eq_none v
  -- in the settled world there is nothing to force
  have hright : forcedPart reenter ctx v key w' =
      ((w.store.fetch v key).map w.store.settle, w') := by
    rw [forcedPart_of_fetch hdrop' fun z hz => ?_, hfetch']
    rw [hfetch'] at hz
    cases hfetch : w.store.fetch v key with
    | error f =>
      rw [hfetch] at hz
      cases hz
    | ok x =>
      rw [hfetch] at hz
      cases hz
      exact hnone x
  rw [hright]
  cases hfetch : w.store.fetch v key with
  | error f =>
    rw [forcedPart_of_fetch (h.data.drop?_eq_none v) fun z hz => ?_, hfetch]
    · exact ⟨trivial, h, .error f⟩
    · rw [hfetch] at hz
      cases hz
  | ok x =>
    have hsettled : settled.deferred? (w.store.settle x) = none :=
      h.store_eq ▸ hnone x
    cases hd : w.store.deferred? x with
    | none =>
      rw [forcedPart_of_fetch (h.data.drop?_eq_none v) fun z hz => ?_, hfetch]
      · rw [Store.settle_of_none hd] at hsettled
        refine ⟨trivial, h, .ok ⟨Store.settle_of_none hd, hsettled⟩⟩
      · rw [hfetch] at hz
        cases hz
        exact hd
    | some d =>
      obtain ⟨y, hdeed, hy⟩ := h.data.exists_yield hd
      have hxy : w.store.settle x = y := Store.settle_of_yield hd hdeed
      have hpart : part reenter v key w = (.ok x, w) := by
        rw [part_of_fetch (h.data.drop?_eq_none v), hfetch]
      obtain ⟨calls, journal, hrun⟩ := forcedPart_remembers ctx hpart hd hdeed
      have hrelated : World.Settling settled contexts
          { w with calls := calls, journal := journal } w' :=
        ⟨h.data, h.settled_eq, h.store_eq, h.contexts_eq, h.contexts_eq'⟩
      obtain ⟨u, hremember, hu⟩ := remember_settling (y := y) hrelated hfetch
        (by rintro rfl; cases hd) ((Store.settle_of_none hy).trans hxy.symm)
      rw [hrun, bind_apply, hremember]
      rw [hxy] at hsettled
      exact ⟨trivial, hu, .ok ⟨hxy, hsettled⟩⟩

-- ================================================================= steps

/-- A scalar name stands for the same value in both, or for none. -/
theorem settling_findVariable {name : Value} (hname : name.IsScalar) :
    SettlingDoes settled contexts (Settledly settled)
      (findVariable reenter ctx name) (findVariable reenter ctx name)
      w w' := by
  refine .assume fun h => .get_bind ?_
  rw [h.context' ctx, h.store']
  have hkeys : (fun v => w.store.settled.hasKey v name) =
      fun v => w.store.hasKey v name :=
    funext fun v => Store.hasKey_settled hname v
  rw [hkeys]
  split
  · refine .bind (settling_forcedPart hname) ?_
    rintro t t' x _ - ⟨rfl, hx⟩
    exact .bind (settling_note _ _) fun _ _ _ _ _ _ => settling_receive hx
  · refine .bind (settling_note _ _) fun _ _ _ _ _ _ => ?_
    split
    · rw [Store.print_of_scalar hname, Store.print_of_scalar hname]
      exact .refuse _ _
    · exact .pure ⟨rfl, rfl⟩

/-- A step by a scalar key leads to the same value in both, or fails alike,
or leads nowhere in both. -/
theorem settling_stepFrom (whole : Path)
    (hkey : key.IsScalar) :
    SettlingDoes settled contexts (Settledly? settled)
      (stepFrom reenter ctx whole v key none)
      (stepFrom reenter ctx whole v key none) w w' := by
  refine .assume fun h => settling_store_bind ?_
  dsimp only
  rw [Store.access_settled, Store.hasKey_settled hkey]
  split
  · refine .bind (settling_forcedPart hkey) ?_
    rintro t t' x _ - ⟨rfl, hx⟩
    refine .bind (settling_receive hx) ?_
    rintro u u' y _ - ⟨rfl, hy⟩
    exact .pure ⟨rfl, fun z hz => Option.some.inj hz ▸ hy⟩
  · refine .bind (settling_note _ _) fun t t' _ _ _ _ => ?_
    refine .assume fun ht => .get_bind ?_
    rw [ht.context' ctx]
    split
    · rw [Store.print_of_scalar hkey, Store.print_of_scalar hkey]
      exact .refuse _ _
    · exact .pure ⟨rfl, fun z hz => by cases hz⟩

-- =========================================================== expressions

/-- An expression has a scalar for its value in a world, if it has one. -/
abbrev GivesScalar (reenter : Reenter) (ctx : ContextId) (w : World)
    (e : Expr) : Prop :=
  ∀ v, (expr reenter ctx e w).1 = .ok v → v.IsScalar

section

variable {w₀ w₀' : World}

/-- A key that is a scalar at first is one whenever it is evaluated: the
settled world of any time is that of the first one too. -/
theorem settling_key (h₀ : w₀.Settling settled contexts w₀') {e : Expr}
    (hmirrors : ∀ u u', SettlingDoes settled contexts (Settledly settled)
      (expr reenter ctx e) (expr reenter ctx e) u u')
    (he : GivesScalar reenter ctx w₀ e) :
    SettlingDoes settled contexts
      (fun t a b => Settledly settled t a b ∧ a.IsScalar)
      (expr reenter ctx e) (expr reenter ctx e) w w' := by
  intro h
  obtain ⟨hlater, hrelated, houtcome⟩ := hmirrors w w' h
  obtain ⟨-, -, houtcome₀⟩ := hmirrors w₀ w' (h₀.meets h)
  refine ⟨hlater, hrelated, ?_⟩
  generalize (expr reenter ctx e w).1 = r at houtcome
  generalize (expr reenter ctx e w').1 = r' at houtcome houtcome₀
  cases houtcome with
  | error f => exact .error f
  | ok hab =>
    refine .ok ⟨hab, ?_⟩
    obtain ⟨rfl, -⟩ := hab
    generalize hr₀ : (expr reenter ctx e w₀).1 = r₀ at houtcome₀
    cases houtcome₀ with
    | ok hab₀ =>
      obtain ⟨rfl, -⟩ := hab₀
      exact he _ hr₀

mutual

/-- An expression has the same value in both, or fails alike. -/
theorem settling_expr (h₀ : w₀.Settling settled contexts w₀') :
    ∀ {e : Expr}, e.Keyed (GivesScalar reenter ctx w₀) →
      GivesScalar reenter ctx w₀ e → ∀ w w',
      SettlingDoes settled contexts (Settledly settled)
        (expr reenter ctx e) (expr reenter ctx e) w w'
  | .const v, _, he, _, _ => by
    refine .pure ⟨rfl, ?_⟩
    cases v with
    | object i => exact absurd rfl (he (.object i) rfl i)
    | _ => rfl
  | .path _, hp, _, w, w' => settling_lookup h₀ hp w w'

/-- So has a path that is an expression, also where it leads nowhere. -/
theorem settling_lookup (h₀ : w₀.Settling settled contexts w₀') :
    ∀ {p : Path}, p.Keyed (GivesScalar reenter ctx w₀) → ∀ w w',
      SettlingDoes settled contexts (Settledly settled)
        (expr reenter ctx (.path p)) (expr reenter ctx (.path p)) w w'
  | p, hp, w, w' => by
    refine .bind (settling_path h₀ _ hp w w') ?_
    rintro t t' _ r - ⟨rfl, hr⟩
    split
    · next v =>
      exact .bind (settling_note _ _) fun _ _ _ _ _ _ => .pure ⟨rfl, hr v rfl⟩
    · exact .pure ⟨rfl, rfl⟩

/-- A path leads to the same value in both, or nowhere in both. -/
theorem settling_path (h₀ : w₀.Settling settled contexts w₀')
    (whole : Path) :
    ∀ {p : Path}, p.Keyed (GivesScalar reenter ctx w₀) → ∀ w w',
      SettlingDoes settled contexts (Settledly? settled)
        (path reenter ctx whole p) (path reenter ctx whole p) w w'
  | .root _, ⟨hroot, hname⟩, w, w' => by
    refine .bind (settling_key h₀ (settling_expr h₀ hname hroot) hroot) ?_
    rintro t t' a _ - ⟨⟨rfl, -⟩, ha⟩
    refine .bind (settling_findVariable ha) ?_
    rintro u u' v _ - ⟨rfl, hv⟩
    exact .pure ⟨rfl, fun z hz => Option.some.inj hz ▸ hv⟩
  | .step _ _ _, ⟨hp, rfl, hkey, hexpr⟩, w, w' => by
    refine .bind (settling_path h₀ whole hp w w') ?_
    rintro t t' _ r - ⟨rfl, hr⟩
    cases r with
    | none => exact .pure ⟨rfl, fun v hv => by cases hv⟩
    | some v =>
      refine .bind (settling_key h₀ (settling_expr h₀ hexpr hkey) hkey) ?_
      rintro u u' k _ - ⟨⟨rfl, -⟩, hk⟩
      exact settling_stepFrom whole hk

end

end

-- ============================================================== sequences

/-- The outcomes of paths that are evaluated one after the other, each with
the world it leaves, in which the next one is evaluated. -/
def lookUps (ctx : ContextId) :
    List Path → World → List (Except Failure Value × World)
  | [], _ => []
  | p :: rest, w =>
    evaluate ctx (.path p) w ::
      lookUps ctx rest (evaluate ctx (.path p) w).2

/-- Paths in sequence have the same outcomes in both worlds, and leave
worlds that are still those of data and of the settled data. -/
theorem lookUps_settling {w₀ w₀' : World}
    (h₀ : w₀.Settling settled contexts w₀') {paths : List Path}
    (hpaths : ∀ p ∈ paths, p.Keyed (GivesScalar markup ctx w₀))
    (h : w.Settling settled contexts w') :
    List.Forall₂ (fun r r' => r.2.Settling settled contexts r'.2 ∧
        Alike (Settledly settled r.2) r.1 r'.1)
      (lookUps ctx paths w) (lookUps ctx paths w') := by
  induction paths generalizing w w' with
  | nil => exact .nil
  | cons p rest ih =>
    obtain ⟨hp, hrest⟩ := List.forall_mem_cons.1 hpaths
    obtain ⟨-, hleft, houtcome⟩ := settling_lookup h₀ hp w w' h
    exact .cons ⟨hleft, houtcome⟩ (ih hrest hleft)

/-- Deferred values are transparent to paths. In any sequence of paths,
whose roots and keys at any depth are scalars where they have a value,
each path has the same outcome on the data as on the settled data, in which
no part of any object is deferred: the same failure, or a value that, when
settled, is the value there. It is itself not deferred. And whatever has
been remembered by then, the data, when settled, are still what they were
when settled at first. -/
theorem lookUps_transparent (hdata : w.store.IsData)
    (hstore : w'.store = w.store.settled)
    (hcontexts : w'.contexts = w.contexts) {paths : List Path}
    (hpaths : ∀ p ∈ paths, p.Keyed fun e =>
      ∀ v, (evaluate ctx e w).1 = .ok v → v.IsScalar) :
    (∀ i o, w'.store.get? i = some o →
      ∀ x ∈ o.parts, w'.store.deferred? x = none) ∧
    List.Forall₂ (fun r r' =>
        r'.1 = r.1.map r.2.store.settle ∧
        (∀ v, r.1 = .ok v → r.2.store.deferred? v = none) ∧
        r.2.store.settled = w.store.settled ∧
        r'.2.store = w'.store)
      (lookUps ctx paths w) (lookUps ctx paths w') := by
  refine ⟨?_, ?_⟩
  · rw [hstore]
    exact fun i o ho => hdata.deferred?_of_mem_parts ho
  · have h : w.Settling w'.store w.contexts w' :=
      ⟨hdata, hstore.symm, rfl, rfl, hcontexts⟩
    refine (lookUps_settling h hpaths h).imp ?_
    rintro ⟨r, u⟩ ⟨r', u'⟩ ⟨hu, houtcome⟩
    dsimp only at hu houtcome ⊢
    cases houtcome with
    | error f =>
      exact ⟨rfl, nofun, hu.settled_eq.trans hstore, hu.store_eq⟩
    | ok hv =>
      obtain ⟨rfl, hv⟩ := hv
      rw [← hu.settled_eq, Store.deferred?_settled] at hv
      refine ⟨?_, ?_, hu.settled_eq.trans hstore, hu.store_eq⟩
      · exact congrArg Except.ok (Store.settle_of_none hv).symm
      · rintro _ ⟨⟩
        exact hv

/-- The table `a` of the environment is deferred, as are the name `k` that
its key is found under and an item of a tuple in it, which is read from the
end and a second time. The path behind the end of the tuple fails in both
worlds. -/
theorem lookUps_transparent_keys :
    let w : World := ⟨⟨#[
        .table [(.text "a", .object 2), (.text "k", .object 4)],
        .frozen [(.text "b", .object 5), (.int 1, .object 3)],
        .deferred ⟨"a", .function, .yield (.object 1)⟩,
        .list [.object 4],
        .deferred ⟨"k", .method, .yield (.text "b")⟩,
        .tuple [.int 7, .object 6],
        .deferred ⟨"last", .function, .yield (.object 3)⟩]⟩,
      #[⟨[], [.object 0], true⟩], [], .fresh false⟩
    let w' : World := { w with store := w.store.settled }
    let name (s : String) : Path := .root (.const (.text s))
    let item : Path := .step (.step (name "a") (.path (name "k")) none)
      (.const (.int (-1))) none
    let paths : List Path :=
      [item, .step item (.const (.int 0)) none, item,
        .step (name "a") (.const (.text "c")) none]
    w.store.IsData ∧
      (∀ p ∈ paths, p.Keyed fun e =>
        ∀ v, (evaluate 0 e w).1 = .ok v → v.IsScalar) ∧
      ((lookUps 0 paths w).map fun r => r.1.toOption) =
        [some (.object 3), some (.text "b"), some (.object 3), none] ∧
      (∀ i o, w'.store.get? i = some o →
        ∀ x ∈ o.parts, w'.store.deferred? x = none) ∧
      List.Forall₂ (fun r r' =>
          r'.1 = r.1.map r.2.store.settle ∧
          (∀ v, r.1 = .ok v → r.2.store.deferred? v = none) ∧
          r.2.store.settled = w.store.settled ∧
          r'.2.store = w'.store)
        (lookUps 0 paths w) (lookUps 0 paths w') := by
  intro w w' name item paths
  have hdata : w.store.IsData := by decide +kernel
  have hconst (v : Value) (hv : v.IsScalar) :
      ∀ x, (evaluate 0 (.const v) w).1 = .ok x → x.IsScalar := by
    rintro _ ⟨⟩
    exact hv
  have hkey : ∀ v, (evaluate 0 (.path (name "k")) w).1 = .ok v →
      v.IsScalar := by
    have hk : (evaluate 0 (.path (name "k")) w).1.toOption =
        some (.text "b") := by
      decide +kernel
    intro v hv
    rw [hv] at hk
    cases hk
    exact Value.isScalar_text "b"
  have hpaths : ∀ p ∈ paths, p.Keyed fun e =>
      ∀ v, (evaluate 0 e w).1 = .ok v → v.IsScalar := by
    have hname (s : String) : Path.Keyed (fun e =>
        ∀ v, (evaluate 0 e w).1 = .ok v → v.IsScalar) (name s) :=
      ⟨hconst _ (Value.isScalar_text s), trivial⟩
    have hitem : Path.Keyed (fun e =>
        ∀ v, (evaluate 0 e w).1 = .ok v → v.IsScalar) item :=
      ⟨⟨hname "a", rfl, hkey, hname "k"⟩, rfl,
        hconst _ (fun _ h => by cases h), trivial⟩
    refine List.forall_mem_cons.2 ⟨hitem, List.forall_mem_cons.2 ⟨?_,
      List.forall_mem_cons.2 ⟨hitem, List.forall_mem_singleton.2 ?_⟩⟩⟩
    · exact ⟨hitem, rfl, hconst _ (fun _ h => by cases h), trivial⟩
    · exact ⟨hname "a", rfl, hconst _ (Value.isScalar_text "c"), trivial⟩
  have hstore : w'.store = w.store.settled := rfl
  have hcontexts : w'.contexts = w.contexts := rfl
  obtain ⟨hnone, hall⟩ :=
    lookUps_transparent hdata hstore hcontexts hpaths
  exact ⟨hdata, hpaths, by decide +kernel, hnone, hall⟩

end Eval
end Stencil
