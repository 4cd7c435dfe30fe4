/-
What is asked on the way along a path, and how it fails to answer.

A query asks a value for its part under a key, or else for the answer to a
command. What is there is not always told: the host may fail, by its code,
which is what deferred values, members of drops and conversions run, or by
its counting, which ends with long ranges. And a drop claims to have a part
under every key, but refuses a key that cannot be one. Where nothing is
strict, a query fails in no other way (`stepFrom_fails_iff`).

Only failures count here. Telling, binding and remembering never fail
(`Answers`), so nothing has to be said of them.
-/
import Stencil.Proofs.Evaluation.Binding
import Stencil.Proofs.Evaluation.Steps

namespace Stencil

namespace Eval

section

variable {w u t : World} {reenter : Reenter} {ctx : ContextId}
  {v key x : Value} {f : Failure} {α β : Type}

-- ============================================================= failing

/-- A sequence of two actions fails where the first one does, or the
second one after it. -/
theorem bind_fails_iff {x : Eval α} {g : α → Eval β} :
    ((x >>= g) w).1 = .error f ↔
      (x w).1 = .error f ∨
        ∃ a t, x w = (.ok a, t) ∧ (g a t).1 = .error f := by
  rw [bind_apply]
  rcases x w with ⟨e | a, t⟩
  · constructor
    · rintro ⟨⟩
      exact Or.inl rfl
    · rintro (⟨⟨⟩⟩ | ⟨_, _, h, _⟩)
      · rfl
      · cases h
  · constructor
    · exact fun h => Or.inr ⟨a, t, rfl, h⟩
    · rintro (h | ⟨_, _, h, hg⟩)
      · cases h
      · cases h
        exact hg

/-- An action never fails. -/
abbrev Answers (x : Eval α) (w : World) : Prop :=
  Behaves (.failing World fun _ => False) Anything x w

theorem Answers.ne_error {x : Eval α} (h : Answers x w) :
    (x w).1 ≠ .error f := by
  obtain ⟨-, -, hends⟩ := h trivial
  intro hfails
  rw [hfails] at hends
  cases hends with
  | error hno => exact hno

/-- Where the rest never fails, a sequence fails as its first action
does. -/
theorem bind_fails_iff_of_answers {x : Eval α} {g : α → Eval β}
    (hg : ∀ a t, Answers (g a) t) :
    ((x >>= g) w).1 = .error f ↔ (x w).1 = .error f := by
  rw [bind_fails_iff]
  constructor
  · rintro (h | ⟨a, t, -, h⟩)
    · exact h
    · exact absurd h (hg a t).ne_error
  · exact Or.inl

theorem answers_note (message : Store → Except Failure String) :
    Answers (note message) w :=
  .modify fun _ => ⟨trivial, trivial, trivial⟩

/-- Binding never fails. -/
theorem answers_bind (v : Value) : Answers (Eval.bind ctx v) w := by
  refine .store_bind ?_
  split
  · split
    · exact .pure trivial
    · exact fun _ => ⟨trivial, trivial, .ok trivial⟩
  · exact .pure trivial

/-- Remembering never fails. -/
theorem answers_remember (v key y : Value) :
    Answers (remember v key y) w := by
  refine .store_bind ?_
  split
  · exact .modify fun _ => ⟨trivial, trivial, trivial⟩
  · split
    · exact .modify fun _ => ⟨trivial, trivial, trivial⟩
    · exact .pure trivial
  · exact .pure trivial

/-- A value is received unless it stands for one that it fails to give. -/
theorem receive_fails_iff :
    (receive reenter ctx x w).1 = .error f ↔
      (toTemplateValue reenter x w).1 = .error f :=
  bind_fails_iff_of_answers fun y _ => answers_bind y

/-- A part is found and forced unless it is not there, or is deferred and
fails. -/
theorem forcedPart_fails_iff :
    (forcedPart reenter ctx v key u).1 = .error f ↔
      (part reenter v key u).1 = .error f ∨
        ∃ x t d, part reenter v key u = (.ok x, t) ∧
          t.store.deferred? x = some d ∧
          (force reenter ctx d t).1 = .error f := by
  rw [forcedPart, bind_fails_iff]
  refine or_congr_right (exists_congr fun x => exists_congr fun t => ?_)
  rw [store_bind_apply]
  cases hd : t.store.deferred? x with
  | none =>
    constructor
    · rintro ⟨-, h⟩
      cases h
    · rintro ⟨d, -, hd', -⟩
      cases hd'
  | some d =>
    have hforce : (((do
          let forced ← force reenter ctx d
          note fun s => do
            return "Forced lazy value: " ++ (← s.print key) ++ " = " ++
              (← s.display forced)
          remember v key forced
          return forced : Eval Value)) t).1 = .error f ↔
        (force reenter ctx d t).1 = .error f :=
      bind_fails_iff_of_answers fun y s => .bind (answers_note _)
        fun _ _ _ _ => .bind (answers_remember v key y)
          fun _ _ _ _ => .pure trivial
    constructor
    · rintro ⟨hpart, h⟩
      exact ⟨d, hpart, rfl, hforce.1 h⟩
    · rintro ⟨_, hpart, hd', h⟩
      cases hd'
      exact ⟨hpart, hforce.2 h⟩

end

end Eval

-- ============================================================= queries

/-- What is asked of a value: the part under a key, or else the answer to
a command. -/
structure Query where
  value : Value
  key : Value
  command : Option Command

namespace Query

open Eval

variable (ctx : ContextId) (q : Query) (u : World)

/-- What a query finds, as it is in the data or as a command answers, and
the world after that. -/
inductive Finds : Value → World → Prop
  /-- The part under the key. -/
  | part {x : Value} {t : World}
      (hoffers : u.store.offers q.value q.key = true)
      (hpart : forcedPart markup ctx q.value q.key u = (.ok x, t)) :
      Finds x t
  /-- The answer to the command. -/
  | answer {x : Value} {store : Store}
      (hoffers : u.store.offers q.value q.key = false)
      (hcommand : q.command.bind (u.store.command? q.value) =
        some (.ok x, store)) :
      Finds x { u with store := store }

/-- The host fails where it has to answer: its code, which stands behind
some values, or its counting. -/
inductive HostFails : Failure → Prop
  /-- The member of a drop fails. -/
  | member {d : Drop} {m : Member} {f : Failure}
      (hdrop : u.store.drop? q.value = some d)
      (hkey : mayBeKey u.store q.key = true)
      (hmember : member? d q.key = some m)
      (hfails : (Eval.answer markup q.value d m u).1 = .error f) :
      HostFails f
  /-- A part is deferred, and fails when it is forced. -/
  | deferred {x : Value} {t : World} {d : Deferred} {f : Failure}
      (hoffers : u.store.offers q.value q.key = true)
      (hpart : Eval.part markup q.value q.key u = (.ok x, t))
      (hdeferred : t.store.deferred? x = some d)
      (hfails : (force markup ctx d t).1 = .error f) : HostFails f
  /-- What is found stands for a value that it fails to give. -/
  | conversion {x : Value} {t : World} {f : Failure}
      (hfound : q.Finds ctx u x t)
      (hfails : (toTemplateValue markup x t).1 = .error f) : HostFails f
  /-- A range is too long to be counted. -/
  | length {first stop : Int} {f : Failure}
      (hoffers : u.store.offers q.value q.key = false)
      (hrange : q.value = .range first stop)
      (hcommand : q.command = some .size)
      (hfails : rangeLength first stop = .error f) : HostFails f

/-- A drop is asked with a key that cannot be one. -/
def Refused : Prop :=
  ∃ d, u.store.drop? q.value = some d ∧ mayBeKey u.store q.key = false

/-- What is asked for is not answered, in one way or another. -/
def Fails (f : Failure) : Prop :=
  q.HostFails ctx u f ∨ q.Refused u ∧ f = .notSupported

end Query

-- =========================================================== measuring

/-- Only ranges can be too long to be counted. -/
theorem Datum.length?_eq_error {d : Datum} {f : Failure} :
    d.length? = .error f ↔
      ∃ first stop, d = .atom (.range first stop) ∧
        rangeLength first stop = .error f := by
  constructor
  · intro h
    unfold length? at h
    split at h
    · cases h
    · cases h
    · next first stop =>
      refine ⟨first, stop, rfl, ?_⟩
      cases hrange : rangeLength first stop with
      | ok n =>
        rw [hrange] at h
        cases h
      | error e =>
        rw [hrange] at h
        cases h
        rfl
    all_goals cases h
  · rintro ⟨first, stop, rfl, h⟩
    rw [length?, h]
    rfl

namespace Store

variable {store : Store} {v x : Value} {f : Failure}

/-- What unfolds to a leaf is the leaf. -/
theorem eq_of_datum_atom (h : store.datum v = .atom x) : x = v := by
  rcases v.scalar_or_object with hv | ⟨i, rfl⟩
  · rw [datum_of_scalar hv] at h
    exact (Datum.atom.inj h).symm
  · rw [datum, unfold] at h
    split at h
    · exact (Datum.atom.inj h).symm
    · next o ho =>
      split at h
      · split at h
        · cases h
        · cases o <;> cases h
      · cases o <;> cases h

/-- Nothing but a long range has too many items to be counted. -/
theorem sizeOf_eq_error :
    store.sizeOf v = .error f ↔
      ∃ first stop, v = .range first stop ∧
        rangeLength first stop = .error f := by
  constructor
  · intro h
    rcases outcome_bind_eq_error.1 h with hlength | ⟨n, -, hno⟩
    · obtain ⟨first, stop, hdatum, h⟩ := Datum.length?_eq_error.1 hlength
      exact ⟨first, stop, (eq_of_datum_atom hdatum).symm, h⟩
    · cases hno
  · rintro ⟨first, stop, rfl, h⟩
    have hdatum : store.datum (.range first stop) =
        .atom (.range first stop) :=
      datum_of_scalar fun i hi => by cases hi
    rw [sizeOf, Datum.length?_eq_error.2 ⟨first, stop, hdatum, h⟩]
    rfl

/-- A command fails to answer only where a range is to be counted. -/
theorem command?_eq_error {command : Option Command} {store' : Store} :
    command.bind (store.command? v) = some (.error f, store') ↔
      store' = store ∧ command = some .size ∧
        ∃ first stop, v = .range first stop ∧
          rangeLength first stop = .error f := by
  rw [Option.bind_eq_some_iff]
  constructor
  · rintro ⟨c, rfl, h⟩
    unfold command? at h
    split at h
    · cases c with
      | size =>
        obtain ⟨hsize, rfl⟩ := Prod.mk.inj (Option.some.inj h)
        exact ⟨rfl, rfl, sizeOf_eq_error.1 hsize⟩
      | first => cases h
      | last => cases h
    · cases h
  · rintro ⟨rfl, rfl, hrange⟩
    refine ⟨.size, rfl, ?_⟩
    have hsize : store'.sizeOf v = .error f := sizeOf_eq_error.2 hrange
    obtain ⟨first, stop, rfl, -⟩ := hrange
    show some (store'.sizeOf _, store') = _
    rw [hsize]

end Store

-- =========================================================== answering

namespace Eval

variable {u : World} {reenter : Reenter} {ctx : ContextId}
  {v key : Value} {command : Option Command} {f : Failure}

/-- A bound drop of a lenient context has nil for what it lacks. -/
theorem missing_of_lenient (hstrict : (u.context ctx).strict = false)
    {d : Drop} (hd : d.bound = some ctx) (key : Value) :
    missing d key u = (.ok .nil, u) := by
  rw [missing, get_bind_apply, hd]
  dsimp only
  rw [hstrict]
  rfl

/-- A bound drop answers in a lenient context, unless a member fails to, or
the key cannot be one. -/
theorem ask_fails_iff (hstrict : (u.context ctx).strict = false) {d : Drop}
    (hd : d.bound = some ctx) :
    (ask reenter v d key u).1 = .error f ↔
      mayBeKey u.store key = false ∧ f = .notSupported ∨
        mayBeKey u.store key = true ∧ ∃ m, member? d key = some m ∧
          (answer reenter v d m u).1 = .error f := by
  rw [ask, store_bind_apply]
  cases hkey : mayBeKey u.store key with
  | false =>
    simp only [Bool.false_eq_true, if_false, true_and, false_and, or_false]
    constructor
    · rintro ⟨⟩
      rfl
    · rintro rfl
      rfl
  | true =>
    simp only [if_true]
    cases hm : member? d key with
    | none =>
      dsimp only
      rw [missing_of_lenient hstrict hd]
      simp
    | some m => simp

/-- A part that is offered is there, unless it is a drop that does not
answer. -/
theorem part_fails_iff (hstrict : (u.context ctx).strict = false)
    (hv : u.BoundIn ctx v) (hoffers : u.store.offers v key = true) :
    (part reenter v key u).1 = .error f ↔
      ∃ d, u.store.drop? v = some d ∧
        (mayBeKey u.store key = false ∧ f = .notSupported ∨
          mayBeKey u.store key = true ∧ ∃ m, member? d key = some m ∧
            (answer reenter v d m u).1 = .error f) := by
  cases hdrop : u.store.drop? v with
  | none =>
    obtain ⟨x, hx⟩ := Store.fetch_of_offers hoffers hdrop
    rw [part_of_fetch hdrop, hx]
    simp
  | some d =>
    rw [part, store_bind_apply, hdrop]
    dsimp only
    rw [ask_fails_iff hstrict (hv d (Store.drop?_eq_some.1 hdrop))]
    simp

/-- Nothing is undefined in a lenient context. -/
theorem return_of_lenient {α : Type} {a : α} {refusal : Eval α}
    (hstrict : (u.context ctx).strict = false) :
    (do if ((← get).context ctx).strict then refusal else return a :
      Eval α) u = (.ok a, u) := by
  rw [get_bind_apply, hstrict]
  rfl

/-- In a lenient context, it leads nowhere. -/
theorem stepFrom_eq_none (whole : Path)
    (hstrict : (u.context ctx).strict = false)
    (hoffers : u.store.offers v key = false)
    (hcommand : command.bind (u.store.command? v) = none) :
    (stepFrom reenter ctx whole v key command u).1 = .ok none := by
  obtain ⟨journal, hstep⟩ := stepFrom_of_misses whole hoffers hcommand
  refine congrArg Prod.fst (hstep.trans (return_of_lenient ?_))
  exact hstrict

/-- A part that is there, forced and received, fails as the query for it
does. -/
theorem found_fails_iff (hstrict : (u.context ctx).strict = false)
    (hv : u.BoundIn ctx v) (hoffers : u.store.offers v key = true) :
    ((forcedPart markup ctx v key u).1 = .error f ∨
      ∃ x t, forcedPart markup ctx v key u = (.ok x, t) ∧
        (toTemplateValue markup x t).1 = .error f) ↔
      Query.Fails ctx ⟨v, key, command⟩ u f := by
  rw [forcedPart_fails_iff, part_fails_iff hstrict hv hoffers]
  constructor
  · rintro ((⟨d, hd, ⟨hkey, rfl⟩ | ⟨hkey, m, hm, h⟩⟩ |
      ⟨x, t, d, hpart, hd, h⟩) | ⟨x, t, hfound, h⟩)
    · exact Or.inr ⟨⟨d, hd, hkey⟩, rfl⟩
    · exact Or.inl (.member hd hkey hm h)
    · exact Or.inl (.deferred hoffers hpart hd h)
    · exact Or.inl (.conversion (.part hoffers hfound) h)
  · rintro (h | ⟨⟨d, hd, hkey⟩, rfl⟩)
    · cases h with
      | member hd hkey hm h =>
        exact Or.inl (Or.inl ⟨_, hd, Or.inr ⟨hkey, _, hm, h⟩⟩)
      | deferred _ hpart hd h =>
        exact Or.inl (Or.inr ⟨_, _, _, hpart, hd, h⟩)
      | conversion hfound h =>
        cases hfound with
        | part _ hfound => exact Or.inr ⟨_, _, hfound, h⟩
        | answer hnot _ => cases hoffers.symm.trans hnot
      | length hnot _ _ _ => cases hoffers.symm.trans hnot
    · exact Or.inl (Or.inl ⟨d, hd, Or.inl ⟨hkey, rfl⟩⟩)

/-- The query for what is not there fails as the command does: where it
does not answer, or its answer is not received. -/
theorem answered_fails_iff (hoffers : u.store.offers v key = false) :
    Query.Fails ctx ⟨v, key, command⟩ u f ↔
      ∃ answer store,
        command.bind (u.store.command? v) = some (answer, store) ∧
        ((ofExcept answer >>= toTemplateValue markup)
          { u with store := store }).1 = .error f := by
  have hdrop (d : Drop) : u.store.drop? v ≠ some d := fun hd => by
    cases hoffers.symm.trans (Store.offers_drop hd key)
  constructor
  · rintro (h | ⟨⟨d, hd, -⟩, -⟩)
    · cases h with
      | member hd _ _ _ => exact absurd hd (hdrop _)
      | deferred hyes _ _ _ => cases hoffers.symm.trans hyes
      | conversion hfound h =>
        cases hfound with
        | part hyes _ => cases hoffers.symm.trans hyes
        | answer _ hcommand => exact ⟨_, _, hcommand, h⟩
      | length _ hrange hsize h =>
        exact ⟨_, _, Store.command?_eq_error.2
          ⟨rfl, hsize, _, _, hrange, h⟩, rfl⟩
    · exact absurd hd (hdrop d)
  · rintro ⟨answer | x, store, hcommand, h⟩
    · cases h
      obtain ⟨-, hsize, first, stop, hrange, h⟩ :=
        Store.command?_eq_error.1 hcommand
      exact Or.inl (.length hoffers hrange hsize h)
    · exact Or.inl (.conversion (.answer hoffers hcommand) h)

/-- A step of a path fails as the query for it does, in a lenient
context. -/
theorem stepFrom_fails_iff (whole : Path)
    (hstrict : (u.context ctx).strict = false) (hv : u.BoundIn ctx v) :
    (stepFrom markup ctx whole v key command u).1 = .error f ↔
      Query.Fails ctx ⟨v, key, command⟩ u f := by
  have hsome (x : Value) (t : World) :
      ((do return some (← receive markup ctx x) :
        Eval (Option Value)) t).1 = .error f ↔
          (toTemplateValue markup x t).1 = .error f := by
    rw [← receive_fails_iff]
    exact bind_fails_iff_of_answers fun _ _ => .pure trivial
  cases hoffers : u.store.offers v key with
  | true =>
    rw [stepFrom_of_offers whole hoffers, bind_fails_iff]
    simp only [hsome]
    exact found_fails_iff hstrict hv hoffers
  | false =>
    rw [answered_fails_iff hoffers]
    cases hcommand : command.bind (u.store.command? v) with
    | none =>
      rw [stepFrom_eq_none whole hstrict hoffers hcommand]
      simp
    | some answered =>
      obtain ⟨answer, store⟩ := answered
      rw [stepFrom_of_answers whole hoffers hcommand, bind_fails_iff]
      simp only [hsome, ← bind_fails_iff]
      simp

end Eval

end Stencil
