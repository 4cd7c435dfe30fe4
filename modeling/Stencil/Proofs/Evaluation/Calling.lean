/-
Evaluation calls what lodges in a slot for that slot only.

Whatever is evaluated keeps count: a deferred value that lodges in a slot
stands there still and one call of it is due, or it has been called and the
slot holds what it answered (`Lodger.conduct`). No action answers with it,
so that it is put nowhere else, except that at the top of an evaluation a
command may answer with the end of a list as it is. What is read on the way
by deferred values and members of drops may not do so, since what such
markup answers goes on to be forced or remembered.

A call that raises is not remembered, and so it is excused: the action then
fails with it, in the world that the call has come to (`Lodger.Raises`).

The argument is about the call itself (`force_own`). While it runs the call
is counted but the slot is not filled, so within it one call more is due.
That it was counted only once tells that the slot still holds the value in
the end, and then filling the slot settles the account.
-/
import Stencil.Proofs.Evaluation.Lodging

namespace Stencil

-- ============================================================= calling

/-- Calling a deferred value ends in an outcome and a world. -/
def World.Calls (w : World) (v : Value) (r : Except Failure Value)
    (w' : World) : Prop :=
  ∃ budget ctx d, w.store.deferred? v = some d ∧
    Eval.force (Eval.markupWithin budget) ctx d w = (r, w')

namespace Lodger

/-- A call of the lodger has raised, which has come to a failure in a
world. It was made in a world to which evaluation has come. -/
def Raises (x : Lodger) (w u : World) (f : Failure) : Prop :=
  ∃ t, w.Remembers t ∧ t.Calls x.value (.error f) u

/-- The lodger, as it is called in worlds to which evaluation comes from a
first one: where it answers, it has been called once. -/
def OnceEach (x : Lodger) (w : World) : Prop :=
  ∀ u y u', w.Remembers u → u.Calls x.value (.ok y) u' →
    u'.callsOf x.label = u.callsOf x.label + 1

/-- The worlds to which evaluation comes, in which the lodger has been
called, and is due to be, so often. -/
def conduct (x : Lodger) (w : World) (n calls : Nat) : Conduct World where
  holds u := (Conduct.memory n).holds u ∧ w.Remembers u ∧ x.Lodges calls u
  later := (Conduct.memory n).later
  fails _ := True
  refl := (Conduct.memory n).refl
  trans := (Conduct.memory n).trans

end Lodger

/-- What yields a value returns it, and is called once for that. -/
theorem Lodger.calls_of_yield {x : Lodger} {w u : World} {y : Value}
    (hx : w.store.get? x.place = some (.deferred x.deferred))
    (hdeed : x.deferred.deed = .yield y) (hu : w.Remembers u)
    {r : Except Failure Value} {u' : World} (h : u.Calls x.value r u') :
    r = .ok y ∧ u'.callsOf x.label = u.callsOf x.label + 1 := by
  obtain ⟨forced, hevolves, -⟩ := hu
  obtain ⟨budget, ctx, d, hd, hrun⟩ := h
  have hown : w.store.deferred? x.value = some x.deferred :=
    Store.deferred?_eq_some.2 ⟨x.place, rfl, hx⟩
  obtain rfl := Option.some.inj
    ((hevolves.deferred?_of hd).symm.trans hown)
  have hyield : Eval.force (Eval.markupWithin budget) ctx x.deferred u =
      (.ok y, { u with calls := World.countCall x.label u.calls }) := by
    rw [Eval.force, hdeed]
    rfl
  cases hyield.symm.trans hrun
  refine ⟨rfl, ?_⟩
  rw [World.callsOf_count, if_pos rfl]

/-- Evaluation goes on from where it has come to. -/
theorem World.Remembers.later {w u v : World} {n : Nat}
    (h : w.Remembers u) (h' : (Conduct.memory n).later u v) :
    w.Remembers v := by
  obtain ⟨forced, h, -⟩ := h
  obtain ⟨more, h'⟩ := h'
  exact ⟨forced ++ more, h.trans h', (h.trans h').memoised⟩

namespace Eval

section

variable {x : Lodger} {w u : World} {n calls : Nat} {α : Type}
  {reenter : Reenter} {ctx : ContextId} {budget : Nat}

/-- An action keeps the lodger where it is, or calls it and remembers. What
it answers is of a kind. -/
abbrev Tends (x : Lodger) (w : World) (n calls : Nat) (Q : α → Prop)
    (a : Eval α) (u : World) : Prop :=
  BehavesUnless (x.conduct w n calls) (x.Raises w) (fun _ r => Q r) a u

/-- An action does so and does not answer with the lodger. -/
abbrev Spares (x : Lodger) (w : World) (n calls : Nat) (a : Eval Value)
    (u : World) : Prop :=
  Tends x w n calls (fun v => v ≠ x.value) a u

/-- Markup in which no command hands the lodger out does not answer with
it. -/
abbrev Heeds (x : Lodger) (w : World) (n : Nat) (reenter : Reenter) : Prop :=
  ∀ calls ctx markup u, x.Guarded markup →
    Spares x w n calls (reenter ctx markup) u

/-- A change that behaves, and that keeps the lodger. -/
theorem tends_of {Q : World → α → Prop} {R : α → Prop} {a : Eval α}
    (ha : Behaves (.memory n) Q a u)
    (h : x.Lodges calls u → x.Lodges calls (a u).2 ∧
      ∀ r, (a u).1 = .ok r → R r) :
    Tends x w n calls R a u := by
  rintro ⟨hmemory, hremembers, hlodges⟩
  obtain ⟨hlater, hholds, -⟩ := ha hmemory
  obtain ⟨hlodges', hanswer⟩ := h hlodges
  refine Or.inr ⟨hlater, ⟨hholds, hremembers.later hlater, hlodges'⟩, ?_⟩
  cases hr : (a u).1 with
  | ok r => exact .ok (hanswer r hr)
  | error f => exact .error trivial

theorem tends_note (message : Store → Except Failure String) :
    Tends x w n calls (fun _ => True) (note message) u :=
  tends_of (memory_note message) fun h =>
    ⟨h.congr rfl rfl, fun _ _ => trivial⟩

theorem tends_ofExcept (r : Except Failure α) :
    Tends x w n calls (fun a => r = .ok a) (ofExcept r) u := by
  cases r with
  | ok a => exact .pure rfl
  | error f => exact .throw trivial

-- ======================================================= single steps

/-- What a deed comes to is not the lodger, if neither what it yields nor
what it reads hands it out. -/
theorem spares_deed (hre : Heeds x w n reenter) (ctx : ContextId)
    (deed : Deed) :
    (∀ y ∈ deed.values, y ≠ x.value) →
    (∀ m ∈ deed.markups, x.Guarded m) →
    Spares x w n calls (match deed with
      | .yield v => return v
      | .read markup => reenter ctx markup
      | .fail message => throw (.raised message)) u := by
  intro hvalues hmarkups
  cases deed with
  | yield y => exact .pure (hvalues y (List.mem_singleton.2 rfl))
  | read markup =>
    exact hre calls ctx markup u (hmarkups markup (List.mem_singleton.2 rfl))
  | fail message => exact .throw trivial

/-- Forcing something else does not call the lodger, unless markup that is
read does. -/
theorem spares_force (hre : Heeds x w n reenter) {v : Value} {d : Deferred}
    (hv : v ≠ x.value) (hd : u.store.deferred? v = some d) :
    Spares x w n calls (force reenter ctx d) u := by
  refine .assume fun ⟨_, _, hlodges⟩ => ?_
  obtain ⟨i, rfl, ho⟩ := Store.deferred?_eq_some.1 hd
  have hclear := hlodges.clear i _ ho
  have hlabel : d.label ≠ x.label := fun heq =>
    hv (congrArg Value.object (hclear.labels d rfl heq))
  have hcount : Tends x w n calls (fun _ => True) (countCall d.label) u :=
    tends_of (memory_countCall d.label) fun h =>
      ⟨h.count_other hlabel, fun _ _ => trivial⟩
  exact .bind hcount fun _ t _ _ =>
    spares_deed hre ctx d.deed (fun _ => hclear.ne_value fun _ => rfl)
      hclear.markups

theorem spares_call {v : Value} (hv : v ≠ x.value) {called : Eval Value}
    (h : call? u.store v = some called) :
    Spares x w n calls called u := by
  unfold call? at h
  split at h
  · cases h
    exact .pure fun heq => by cases heq
  · next d ho =>
    split at h
    · cases h
      exact .throw trivial
    · cases h
      obtain ⟨i, hi, hget⟩ := Store.object?_eq_some.1 ho
      exact spares_force (fun _ _ _ _ _ => .throw trivial) hv
        (Store.deferred?_eq_some.2 ⟨i, hi, hget⟩)
  · cases h

theorem spares_missing (d : Drop) (key : Value) :
    Spares x w n calls (missing d key) u := by
  refine .get_bind ?_
  split
  · split
    · exact .refuse (fun _ _ => trivial) fun _ => trivial
    · exact .pure fun heq => by cases heq
  · exact .pure fun heq => by cases heq

/-- A member that does not refer to the lodger does not answer with it. -/
theorem spares_answer (hre : Heeds x w n reenter) {self : Value}
    (hself : self ≠ x.value) (d : Drop) {m : Member}
    (hvalues : ∀ v ∈ m.values, v ≠ x.value)
    (hmarkups : ∀ s ∈ m.markups, x.Guarded s) :
    Spares x w n calls (answer reenter self d m) u := by
  cases m with
  | method v => exact .pure (hvalues v (List.mem_singleton.2 rfl))
  | property v =>
    have hv := hvalues v (List.mem_singleton.2 rfl)
    refine .store_bind ?_
    split
    · next hcalled => exact spares_call hv hcalled
    · exact .pure hv
  | reader markup =>
    dsimp only [answer]
    split
    · exact hre _ _ markup u (hmarkups markup (List.mem_singleton.2 rfl))
    · exact .throw trivial
  | itself => exact .pure hself
  | data v => exact .pure (hvalues v (List.mem_singleton.2 rfl))

theorem spares_ask (hre : Heeds x w n reenter) {self : Value} {d : Drop}
    (ho : u.store.object? self = some (.drop d)) (key : Value) :
    Spares x w n calls (ask reenter self d key) u := by
  refine .store_bind (.assume fun ⟨_, _, hlodges⟩ => ?_)
  obtain ⟨hself, hvalues, hmarkups⟩ := hlodges.drop ho
  split
  · split
    · next m hmember =>
      obtain ⟨name, hlookup⟩ := lookup_of_member? hmember
      exact spares_answer hre hself d
        (fun v hv => hvalues v (values_of_lookup hlookup v hv))
        fun s hs => hmarkups s (Drop.markups_of_lookup hlookup s hs)
    · exact spares_missing d key
  · exact .throw trivial

/-- A value stands for the lodger only if it is the lodger. -/
theorem tends_toTemplateValue (hre : Heeds x w n reenter) (v : Value) :
    Tends x w n calls (fun y => y = x.value → v = x.value)
      (toTemplateValue reenter v) u := by
  have hspared {a : Eval Value} {t : World}
      (ha : Spares x w n calls a t) :
      Tends x w n calls (fun y => y = x.value → v = x.value) a t :=
    ha.mono fun _ _ _ hne heq => absurd heq hne
  refine .store_bind (.assume fun ⟨_, _, hlodges⟩ => ?_)
  split
  · next inner ho =>
    obtain ⟨i, -, ho⟩ := Store.object?_eq_some.1 ho
    exact hspared (.pure ((hlodges.clear i _ ho).ne_value (fun _ => rfl)
      (List.mem_singleton.2 rfl)))
  · next d ho =>
    obtain ⟨hself, hvalues, hmarkups⟩ := hlodges.drop ho
    split
    · exact .pure id
    · exact .pure id
    -- a property and a stored slot are called where that is possible
    · next hlookup =>
      have hv := hvalues _ (values_of_lookup hlookup _
        (List.mem_singleton.2 rfl))
      refine .store_bind ?_
      split
      · next hcalled => exact hspared (spares_call hv hcalled)
      · exact .throw trivial
    · next hlookup =>
      have hv := hvalues _ (values_of_lookup hlookup _
        (List.mem_singleton.2 rfl))
      refine .store_bind ?_
      split
      · next hcalled => exact hspared (spares_call hv hcalled)
      · exact .throw trivial
    · next hlookup =>
      exact hspared (spares_answer hre hself d
        (fun y hy => hvalues y (values_of_lookup hlookup y hy))
        fun s hs => hmarkups s (Drop.markups_of_lookup hlookup s hs))
  · exact .pure id

/-- A drop is bound as a copy that does not refer to the lodger either. -/
theorem tends_bind (v : Value) :
    Tends x w n calls (fun y => y = x.value → v = x.value)
      (Eval.bind ctx v) u := by
  refine .store_bind (.assume fun ⟨⟨hu, _⟩, _, hlodges⟩ => ?_)
  split
  · next d ho =>
    split
    · exact .pure id
    · obtain ⟨-, hvalues, hmarkups⟩ := hlodges.drop ho
      refine tends_of (memory_alloc
        (fun y hy => hu.closed.has_of_object? ho hy)
        (fun _ heq => by cases heq) fun _ heq => by cases heq) fun h => ?_
      refine ⟨h.alloc (.of_values (fun hmem => hvalues _ hmem rfl)
        (fun _ heq => by cases heq) hmarkups), fun r hr heq => ?_⟩
      rw [← Except.ok.inj hr] at heq
      exact absurd heq h.new_ne_value
  · exact .pure id

/-- What a template receives is the lodger only if it was found as it
is. -/
theorem tends_receive (hre : Heeds x w n reenter) (v : Value) :
    Tends x w n calls (fun y => y = x.value → v = x.value)
      (receive reenter ctx v) u :=
  .bind (tends_toTemplateValue hre v) fun y _ _ hy =>
    (tends_bind y).mono fun _ _ _ hz heq => hy (hz heq)

-- ============================================================== parts

/-- Where the lodger is called for its slot it raises, or it answers with
something else and stands in the slot still. -/
theorem force_own (hre : Heeds x w n (markupWithin budget))
    (honce : x.OnceEach w) (hu : (x.conduct w n calls).holds u)
    {o : Object} {i : ObjectId} {k : Nat} (ho : u.store.get? i = some o)
    (hk : o.slot? k = some x.value) {r : Except Failure Value} {t : World}
    (hrun : force (markupWithin budget) ctx x.deferred u = (r, t)) :
    (∃ f, r = .error f ∧ x.Raises w t f) ∨
      ∃ y, r = .ok y ∧ y ≠ x.value ∧ x.Lodges (calls + 1) t ∧
        ∀ o', t.store.get? i = some o' → o'.slot? k = some x.value := by
  obtain ⟨hmemory, hremembers, hlodges⟩ := hu
  have hcalled : u.Calls x.value r t :=
    ⟨budget, ctx, x.deferred, Store.deferred?_eq_some.2
      ⟨x.place, rfl, hlodges.deferred⟩, hrun⟩
  cases r with
  | error f => exact Or.inl ⟨f, rfl, u, hremembers, hcalled⟩
  | ok y =>
    obtain ⟨hlater, hmemory', -⟩ := memory_countCall x.label hmemory
    have hclear := hlodges.clear x.place _ hlodges.deferred
    have hdeed := spares_deed hre ctx x.deferred.deed
      (fun _ => hclear.ne_value fun _ => rfl) hclear.markups
      ⟨hmemory', hremembers.later hlater, hlodges.count_own⟩
    rcases hdeed with ⟨f, hfails, -⟩ | ⟨-, ⟨-, -, hlodges'⟩, hends⟩
    · cases (congrArg Prod.fst hrun).symm.trans hfails
    · replace hlodges' : x.Lodges (calls + 1)
          (force (markupWithin budget) ctx x.deferred u).2 := hlodges'
      replace hends : Admits (fun v => v ≠ x.value) (fun _ => True)
          (force (markupWithin budget) ctx x.deferred u).1 := hends
      rw [hrun] at hlodges' hends
      dsimp only at hlodges' hends
      cases hends with
      | ok hy =>
        refine Or.inr ⟨y, rfl, hy, hlodges', fun o' ho' => ?_⟩
        obtain ⟨rfl, rfl, hsum⟩ := hlodges.sum_of_slot ho hk
        have honly := honce u y t hremembers hcalled
        obtain ⟨p, hp, hslot⟩ := hlodges'.slot_of_lt (by omega)
        obtain rfl := Option.some.inj (ho'.symm.trans hp)
        exact hslot

/-- Forcing what was found under a key, the lodger or something else: where
it answers, the slot that it was found in may be filled. -/
theorem force_part (hre : Heeds x w n (markupWithin budget))
    (honce : x.OnceEach w) (hu : (x.conduct w n calls).holds u)
    {v key z : Value} {d : Deferred} (hfetch : u.store.fetch v key = .ok z)
    (hd : u.store.deferred? z = some d) {r : Except Failure Value}
    {t : World} (hrun : force (markupWithin budget) ctx d u = (r, t)) :
    (∃ f, r = .error f ∧ (x.Raises w t f ∨ x.Lodges calls t)) ∨
      ∃ y, r = .ok y ∧ y ≠ x.value ∧
        (z ≠ x.value → x.Lodges calls t) ∧
        ∀ i k o o', u.store.get? i = some o → o.slot? k = some z →
          t.store.get? i = some o' → x.Lodges calls
            { t with store := t.store.put i (o'.refill k y) } := by
  by_cases hz : z = x.value
  · subst hz
    obtain ⟨i, o, k, -, ho, hk⟩ := hu.2.2.slot_of_fetch hfetch
    obtain rfl : x.deferred = d := by
      have hown : u.store.deferred? x.value = some x.deferred :=
        Store.deferred?_eq_some.2 ⟨x.place, rfl, hu.2.2.deferred⟩
      exact Option.some.inj (hown.symm.trans hd)
    rcases force_own hre honce hu ho hk hrun with ⟨f, hr, hraises⟩ |
      ⟨y, hr, hy, hlodges, hstays⟩
    · exact Or.inl ⟨f, hr, Or.inl hraises⟩
    · refine Or.inr ⟨y, hr, hy, fun hne => absurd rfl hne,
        fun j l p p' hp hl hp' => ?_⟩
      obtain ⟨rfl, rfl, -⟩ := hu.2.2.sum_of_slot ho hk
      obtain ⟨rfl, rfl, -⟩ := hu.2.2.sum_of_slot hp hl
      exact hlodges.refill_own hp' hy (hstays p' hp')
  · have hforce : Spares x w n calls (force (markupWithin budget) ctx d) u :=
      spares_force hre hz hd
    replace hforce := hforce hu
    rw [hrun] at hforce
    rcases hforce with ⟨f, hr, hraises⟩ |
      ⟨⟨forced, hevolves⟩, ⟨-, -, hlodges⟩, hends⟩
    · exact Or.inl ⟨f, hr, Or.inl hraises⟩
    · dsimp only at hevolves hlodges hends
      cases hends with
      | @error f => exact Or.inl ⟨f, rfl, Or.inr hlodges⟩
      | @ok y hy =>
        refine Or.inr ⟨y, rfl, hy, fun _ => hlodges,
          fun i k o o' ho hk ho' => hlodges.refill ho' hy fun hk' => ?_⟩
        -- the slot cannot have come to hold the lodger
        obtain ⟨rfl, rfl, hsum'⟩ := hlodges.sum_of_slot ho' hk'
        have hsum := hu.2.2.sum_of_other ho fun heq =>
          hz (Option.some.inj (hk.symm.trans heq))
        have hle := hevolves.callsOf_le x.label
        omega

/-- What was found deferred under a key is forced, told of and
remembered. -/
theorem spares_remember (hre : Heeds x w n (markupWithin budget))
    (honce : x.OnceEach w) {v key z : Value} {d : Deferred}
    (hv : u.Knows v) (hkey : u.Knows key)
    (hfetch : u.store.fetch v key = .ok z)
    (hd : u.store.deferred? z = some d)
    (message : Value → Store → Except Failure String) :
    Spares x w n calls (do
      let y ← force (markupWithin budget) ctx d
      note (message y)
      remember v key y
      return y) u := by
  intro hu
  have hwhole : Recalls n (do
      let y ← force (markupWithin budget) ctx d
      note (message y)
      remember v key y
      return y) u :=
    memory_remember (memory_markupWithin budget) hv hkey hfetch hd message
  obtain ⟨hlater, hholds, -⟩ := hwhole hu.1
  have hremembers := hu.2.1.later hlater
  have hforce : Recalls n (force (markupWithin budget) ctx d) u :=
    memory_force (memory_markupWithin budget) (knows_of_deferred hu.1.1 hd)
  obtain ⟨⟨forced, hevolves⟩, -⟩ := hforce hu.1
  rw [bind_apply] at hlater hholds hremembers ⊢
  rcases hrun : force (markupWithin budget) ctx d u with ⟨r, t⟩
  rw [hrun] at hlater hholds hremembers hevolves
  rcases force_part hre honce hu hfetch hd hrun with
    ⟨f, rfl, hraises | hlodges⟩ | ⟨y, rfl, hy, hother, hfilled⟩
  · exact Or.inl ⟨f, rfl, hraises⟩
  · exact Or.inr ⟨hlater, ⟨hholds, hremembers, hlodges⟩, .error trivial⟩
  · have hnil : z ≠ .nil := by
      rintro rfl
      cases hd
    have hreshaped : u.store.Reshaped t.store :=
      hevolves.memoised.objects.mono fun _ _ _ => trivial
    dsimp only at hlater hholds hremembers ⊢
    rw [note_bind_apply, bind_apply] at hlater hholds hremembers ⊢
    generalize t.journal.noteWritten _ = journal at hlater hholds hremembers ⊢
    rcases remember_cases (u := { t with journal := journal }) hu.1.1
      hreshaped hv hkey hfetch hnil y with ⟨hrun', hplain⟩ |
        ⟨i, k, o, o', ho, hk, ho', hrun'⟩
    · rw [hrun'] at hlater hholds hremembers ⊢
      -- the lodger stands in a list or a table
      have hz : z ≠ x.value := by
        rintro rfl
        obtain ⟨i, o, k, rfl, ho, hk⟩ := hu.2.2.slot_of_fetch hfetch
        obtain ⟨hlist, htable⟩ := hplain o ho
        rw [Object.slot?_eq_none hlist htable] at hk
        cases hk
      exact Or.inr ⟨hlater,
        ⟨hholds, hremembers, (hother hz).congr rfl rfl⟩, .ok hy⟩
    · rw [hrun'] at hlater hholds hremembers ⊢
      exact Or.inr ⟨hlater, ⟨hholds, hremembers,
        (hfilled i k o o' ho hk ho').congr rfl rfl⟩, .ok hy⟩

/-- The part of a value under a key, forced if it is deferred, is never the
lodger. -/
theorem spares_forcedPart (hre : Heeds x w n (markupWithin budget))
    (honce : x.OnceEach w) {v key : Value} (hv : u.Knows v)
    (hkey : u.Knows key) :
    Spares x w n calls (forcedPart (markupWithin budget) ctx v key) u := by
  cases hdrop : u.store.drop? v with
  | some d =>
    have hobj := Store.drop?_eq_some.1 hdrop
    have hpart : Spares x w n calls (part (markupWithin budget) v key) u := by
      refine .store_bind ?_
      rw [hdrop]
      exact spares_ask hre hobj key
    refine .bind hpart fun z t hlater hz => .store_bind ?_
    split
    · exact .pure hz
    · next d' hd =>
      refine .bind (spares_force hre hz hd) fun y a hlater' hy => ?_
      refine .bind (tends_note _) fun _ b hlater'' _ => ?_
      -- a drop remembers nothing
      obtain ⟨forced, hevolves⟩ := (Conduct.memory n).trans hlater
        ((Conduct.memory n).trans hlater' hlater'')
      have hstays : b.store.object? v = some (.drop d) :=
        hevolves.memoised.objects.object?_other hobj
          (fun _ heq => by cases heq) fun _ heq => by cases heq
      have hforget : Tends x w n calls (fun _ => True) (remember v key y) b := by
        refine tends_of (memory_forget hstays) fun h => ?_
        rw [remember_other hstays (fun _ heq => by cases heq)
          fun _ heq => by cases heq]
        exact ⟨h, fun _ _ => trivial⟩
      exact .bind hforget fun _ _ _ _ => .pure hy
  | none =>
    have hpart : BehavesUnless (x.conduct w n calls) (x.Raises w)
        (fun t z => t = u ∧ u.store.fetch v key = .ok z)
        (part (markupWithin budget) v key) u := by
      refine .store_bind ?_
      rw [hdrop]
      cases hfetch : u.store.fetch v key with
      | ok z => exact .pure ⟨rfl, rfl⟩
      | error f => exact .throw trivial
    refine .bind hpart fun z t _ ⟨ht, hfetch⟩ => ?_
    subst ht
    refine .store_bind (.assume fun ⟨_, _, hlodges⟩ => ?_)
    split
    · next hd =>
      refine .pure ?_
      rintro rfl
      have hown := Store.deferred?_eq_some.2 ⟨x.place, rfl, hlodges.deferred⟩
      cases hown.symm.trans hd
    · next hd => exact spares_remember hre honce hv hkey hfetch hd _

-- ============================================================== lookup

/-- What a name stands for is never the lodger. -/
theorem spares_findVariable (hre : Heeds x w n (markupWithin budget))
    (honce : x.OnceEach w) {name : Value} (hname : u.Knows name) :
    Spares x w n calls (findVariable (markupWithin budget) ctx name) u := by
  refine .get_bind (.assume fun ⟨⟨hu, _⟩, _, _⟩ => ?_)
  cases hfind : (u.context ctx).layers.find? fun v =>
      u.store.hasKey v name with
  | some layer =>
    have hlayer := hu.layers ctx layer (List.mem_of_find?_eq_some hfind)
    refine .bind (spares_forcedPart hre honce hlayer hname) fun v t _ hv => ?_
    refine .bind (tends_note _) fun _ a _ _ => ?_
    exact (tends_receive hre v).mono fun _ _ _ hy heq => hv (hy heq)
  | none =>
    refine .bind (tends_note _) fun _ t _ _ => ?_
    split
    · exact .refuse (fun _ _ => trivial) fun _ => trivial
    · exact .pure fun heq => by cases heq

variable {P : Command → Prop}

/-- A command that may not hand the lodger out in a list keeps it. -/
theorem tends_command {v : Value} {c : Command}
    {answer : Except Failure Value} {store : Store}
    (hc : ¬x.container.Wraps x.slot c)
    (hcommand : u.store.command? v c = some (answer, store)) :
    Tends x w n calls
      (fun _ => answer = .ok x.value → x.container.Hands x.slot c)
      (modify fun w => { w with store := store } : Eval PUnit) u :=
  tends_of (memory_command hcommand) fun h =>
    ⟨(h.command hc hcommand).1, fun _ _ => (h.command hc hcommand).2⟩

/-- A step leads to the lodger only where a command hands it out. -/
theorem tends_stepFrom (hre : Heeds x w n (markupWithin budget))
    (honce : x.OnceEach w)
    (hwraps : ∀ c, P c → ¬x.container.Wraps x.slot c) {raw : Prop}
    (hhands : ∀ c, P c → x.container.Hands x.slot c → raw)
    (whole : Path) {v key : Value} (hv : u.Knows v)
    (hkey : u.Knows key) {command : Option Command}
    (hcommand : ∀ c ∈ command, P c) :
    Tends x w n calls (fun r => some x.value = r → raw)
      (stepFrom (markupWithin budget) ctx whole v key command) u := by
  refine .store_bind ?_
  dsimp only
  split
  · refine .bind (spares_forcedPart hre honce hv hkey) fun z t _ hz => ?_
    refine .bind (tends_receive hre z) fun y a _ hy => ?_
    exact .pure fun heq => absurd (hy (Option.some.inj heq).symm) hz
  · split
    · next answer store hanswer =>
      obtain ⟨c, hc, hanswer⟩ := Option.bind_eq_some_iff.1 hanswer
      have hp := hcommand c (Option.mem_def.2 hc)
      refine .bind (tends_command (hwraps c hp) hanswer) fun _ t _ hout => ?_
      refine .bind (tends_ofExcept answer) fun z a _ hz => ?_
      refine .bind (tends_receive hre z) fun y b _ hy => ?_
      refine .pure fun heq => hhands c hp (hout ?_)
      rw [hz, hy (Option.some.inj heq).symm]
    · refine .bind (tends_note _) fun _ t _ _ => .get_bind ?_
      split
      · exact .refuse (fun _ _ => trivial) fun _ => trivial
      · exact .pure fun heq => by cases heq

mutual

/-- An expression is evaluated to the lodger only if it is the lodger, or
where a command hands it out. -/
theorem tends_expr (hre : Heeds x w n (markupWithin budget))
    (honce : x.OnceEach w)
    (hwraps : ∀ c, P c → ¬x.container.Wraps x.slot c) {raw : Prop}
    (hhands : ∀ c, P c → x.container.Hands x.slot c → raw) :
    ∀ {e : Expr}, e.All (Value.Below [] n) → e.Commands P → ∀ u,
      Tends x w n calls (fun y => y = x.value → e = .const y ∨ raw)
        (expr (markupWithin budget) ctx e) u
  | .const _, _, _, _ => .pure fun _ => Or.inl rfl
  | .path p, hp, hcommands, u => by
    refine .bind (tends_path hre honce hwraps hhands _ hp hcommands u)
      fun r t _ hr => ?_
    split
    · refine .bind (tends_note _) fun _ a _ _ => ?_
      exact .pure fun heq => Or.inr (hr (congrArg some heq.symm))
    · exact .pure fun heq => by cases heq
  | .range first last, ⟨hfirst, hlast⟩, ⟨hcommands, hcommands'⟩, u => by
    refine .bind (tends_expr hre honce hwraps hhands hfirst hcommands u)
      fun a t _ _ => .store_bind ?_
    refine .bind (tends_ofExcept _) fun a t _ _ => ?_
    refine .bind (tends_expr hre honce hwraps hhands hlast hcommands' t)
      fun b t _ _ => .store_bind ?_
    refine .bind (tends_ofExcept _) fun b t _ _ => ?_
    exact .pure fun heq => by cases heq

/-- A path leads to the lodger only where a command hands it out. -/
theorem tends_path (hre : Heeds x w n (markupWithin budget))
    (honce : x.OnceEach w)
    (hwraps : ∀ c, P c → ¬x.container.Wraps x.slot c) {raw : Prop}
    (hhands : ∀ c, P c → x.container.Hands x.slot c → raw)
    (whole : Path) :
    ∀ {p : Path}, p.All (Value.Below [] n) → p.Commands P → ∀ u,
      Tends x w n calls (fun r => some x.value = r → raw)
        (path (markupWithin budget) ctx whole p) u
  | .root name, hname, hcommands, u => by
    have hknows : Recalls n (expr (markupWithin budget) ctx name) u :=
      memory_expr (memory_markupWithin budget) hname u
    have hname' := tends_expr hre honce hwraps hhands hname hcommands u
    refine .bind (hname'.both hknows fun h => h.1) fun key t _ hkey => ?_
    refine .bind (spares_findVariable hre honce hkey.2) fun v a _ hv => ?_
    exact .pure fun heq => absurd (Option.some.inj heq).symm hv
  | .step p key command, ⟨hp, hkey⟩, ⟨hpath, hkeys, hcommand⟩, u => by
    have hknows : Recalls? n (path (markupWithin budget) ctx whole p) u :=
      memory_path (memory_markupWithin budget) whole hp u
    have hpath' := tends_path hre honce hwraps hhands whole hp hpath u
    refine .bind (hpath'.both hknows fun h => h.1) fun r t _ hr => ?_
    split
    · exact .pure fun heq => by cases heq
    · next v =>
      have hknows' : Recalls n (expr (markupWithin budget) ctx key) t :=
        memory_expr (memory_markupWithin budget) hkey t
      have hkey' := tends_expr hre honce hwraps hhands hkey hkeys t
      refine .bind (hkey'.both hknows' fun h => h.1) fun k a hlater hk => ?_
      exact tends_stepFrom hre honce hwraps hhands whole
        ((hr.2 v rfl).later (n := n) hlater) hk.2 hcommand

end

-- ============================================================== markup

theorem tends_readOperand (markup : String) :
    Tends x w n calls (fun e => Expr.parse markup = .ok e)
      (readOperand markup) u :=
  .bind (tends_of (memory_tell _) fun h =>
    ⟨h.congr rfl rfl, fun _ _ => trivial⟩)
    fun _ _ _ (_ : True) => tends_ofExcept _

/-- Markup heeds, however deeply evaluation may go back to its start. -/
theorem heeds_markupWithin (honce : x.OnceEach w) (budget : Nat) :
    Heeds x w n (markupWithin budget) := by
  induction budget with
  | zero => exact fun _ _ _ _ _ => .throw trivial
  | succ budget ih =>
    intro calls ctx markup u hguarded
    refine .bind (tends_readOperand markup) fun e t _ he => ?_
    have hall := Expr.parseChars_all (fun v hv => hv.below [] n) he
    have hexpr : Tends x w n calls (fun y => y = x.value → e = .const y ∨ False)
        (expr (markupWithin budget) ctx e) t :=
      tends_expr ih honce (fun c hc hwraps => hc hwraps.hands)
        (fun c hc hhands => hc hhands) hall (hguarded e he) t
    refine hexpr.mono fun _ y _ hy heq => ?_
    rcases hy heq with rfl | hfalse
    · have hscalar : y.IsScalar := Expr.parseChars_scalar he
      exact hscalar x.place heq
    · exact hfalse

/-- Operands in which no command hands the lodger out in a list are
evaluated with the lodger kept where it is, or called and remembered. -/
theorem evaluates_lodging (honce : x.OnceEach w) (ctx : ContextId) :
    EvaluatesUnless (x.conduct w n calls) (x.Raises w) ctx
      (fun e => e.All (Value.Below [] n) ∧
        e.Commands fun c => ¬x.container.Wraps x.slot c) Anything where
  note _ message := tends_note message
  operand u e he := by
    have hany : ∀ c, ¬x.container.Wraps x.slot c →
        x.container.Hands x.slot c → True := fun _ _ _ => trivial
    exact .mono (fun _ _ _ _ => trivial)
      (tends_expr (heeds_markupWithin honce _) honce (fun _ => id) hany
        he.1 he.2 u)
  stays _ _ := trivial
  operator _ _ _ _ := trivial
  output _ _ _ := trivial

/-- A new context has an empty table for its scope. -/
theorem tends_newContext {environments : List Value}
    (henvironments : ∀ v ∈ environments, u.Knows v) (strict : Bool) :
    Tends x w u.store.size calls (fun _ => True)
      (newContext none environments strict) u := by
  refine tends_of (memory_newContext henvironments strict) fun h => ?_
  rw [newContext_apply]
  have hempty : x.Clear u.store.size (.table []) :=
    .of_values List.not_mem_nil (fun _ heq => by cases heq)
      fun _ hm => by cases hm
  exact ⟨(h.alloc hempty).congr rfl rfl, fun _ _ => trivial⟩

end

end Eval

end Stencil
