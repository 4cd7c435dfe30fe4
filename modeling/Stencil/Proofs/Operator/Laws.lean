/-
The laws that the comparison operators obey, of all values but those that
contain themselves.

A relation and its flip say the same of two values seen from either side,
and where they are an error from one side they are from the other
(`apply_order_flip`). Smaller or equal is what its name says, of values that
have an order at all (`apply_lessEqual`). Equality is symmetric, in what it
holds of and in what it fails on, though not in what it answers: one probe
may not know what the other denies (`isEqual?_comm`).

That answers agree comes down to the values (`Store.order?_agree`,
`Store.order?_lessEqual`, `Store.equal_agree`), and that there are answers to
one of the values not containing itself. What is added here are the rules
that apply on the outside only, to truth values, probes and whatever has no
order.
-/
import Stencil.Access
import Stencil.Proofs.Store.Symmetry

namespace Stencil

namespace Operator

/-- Two outcomes hold alike: both are true, or neither is, or they fail in
the same way. -/
def HoldAlike (x y : Except Failure (Option Bool)) : Prop :=
  (∃ s t, x = .ok s ∧ y = .ok t ∧ (s = some true ↔ t = some true)) ∨
    ∃ f, x = .error f ∧ y = .error f

/-- Two outcomes are those of one comparison seen from either side: the same
truth value, or the error that two values have no order. -/
def Mirrored (x y : Except Failure (Option Bool)) : Prop :=
  (∃ truth, x = .ok (some truth) ∧ y = .ok (some truth)) ∨
    ∃ left right, x = .error (.incomparable left right) ∧
      y = .error (.incomparable right left)

theorem HoldAlike.refl (x : Except Failure (Option Bool)) : HoldAlike x x := by
  cases x with
  | ok s => exact Or.inl ⟨s, s, rfl, rfl, Iff.rfl⟩
  | error f => exact Or.inr ⟨f, rfl, rfl⟩

end Operator

-- ================================================================ equality

/-- Equality as conditions ask for it has rules of its own for probes and
truth values. All other values stand outside of these. -/
def Value.IsOrdinary (v : Value) : Prop :=
  (∀ p, v ≠ .probe p) ∧ ∀ b, v ≠ .bool b

theorem Value.probe_or_bool_or_ordinary (v : Value) :
    (∃ p, v = .probe p) ∨ (∃ b, v = .bool b) ∨ v.IsOrdinary := by
  cases v with
  | probe p => exact Or.inl ⟨p, rfl⟩
  | bool b => exact Or.inr (Or.inl ⟨b, rfl⟩)
  | _ => exact Or.inr (Or.inr ⟨nofun, nofun⟩)

namespace Store

variable {store : Store} {a b : Value}

theorem isEqual?_ordinary (ha : a.IsOrdinary) (hb : b.IsOrdinary) :
    store.isEqual? a b = (store.equal a b).map some := by
  unfold isEqual?
  split
  · exact absurd rfl (ha.1 _)
  · exact absurd rfl (hb.1 _)
  · exact absurd rfl (ha.2 _)
  · exact absurd rfl (ha.2 _)
  · exact absurd rfl (hb.2 _)
  · rfl

/-- A probe is asked about the other side, on whichever side it stands. -/
theorem isEqual?_probe (p : Probe) (ha : ∀ q, a ≠ .probe q) :
    store.isEqual? a (.probe p) = p.test (store.datum a) := by
  cases a with
  | probe q => exact absurd rfl (ha q)
  | _ => rfl

/-- A truth value equals itself and nothing else. -/
theorem isEqual?_bool (store : Store) (x : Bool) (hb : b.IsOrdinary) :
    store.isEqual? (.bool x) b = .ok (some false) ∧
      store.isEqual? b (.bool x) = .ok (some false) := by
  cases b with
  | probe q => exact absurd rfl (hb.1 q)
  | bool y => exact absurd rfl (hb.2 y)
  | _ => exact ⟨rfl, rfl⟩

/-- Equality holds alike seen from either side. -/
theorem isEqual?_comm (hstore : store.WellKeyed)
    (h : store.Acyclic a ∨ store.Acyclic b) :
    Operator.HoldAlike (store.isEqual? a b) (store.isEqual? b a) := by
  have halike (h : store.isEqual? b a = store.isEqual? a b) :
      Operator.HoldAlike (store.isEqual? a b) (store.isEqual? b a) :=
    h ▸ .refl (store.isEqual? a b)
  rcases a.probe_or_bool_or_ordinary with ⟨p, rfl⟩ | ⟨x, rfl⟩ | ha'
  · rcases b.probe_or_bool_or_ordinary with ⟨q, rfl⟩ | ⟨y, rfl⟩ | hb'
    · -- of two probes one may deny what the other does not know
      refine Or.inl ?_
      cases p <;> cases q
      all_goals exact ⟨_, _, rfl, rfl, by decide⟩
    · exact halike rfl
    · exact halike (isEqual?_probe p hb'.1)
  · rcases b.probe_or_bool_or_ordinary with ⟨q, rfl⟩ | ⟨y, rfl⟩ | hb'
    · exact halike rfl
    · refine halike ?_
      cases x <;> cases y <;> rfl
    · obtain ⟨h, h'⟩ := isEqual?_bool store x hb'
      exact halike (h'.trans h.symm)
  · rcases b.probe_or_bool_or_ordinary with ⟨q, rfl⟩ | ⟨y, rfl⟩ | hb'
    · exact halike (isEqual?_probe q ha'.1).symm
    · obtain ⟨h, h'⟩ := isEqual?_bool store y ha'
      exact halike (h.trans h'.symm)
    · obtain ⟨x, hx⟩ := equal_succeeds h
      obtain ⟨y, hy⟩ := equal_succeeds h.symm
      obtain rfl := equal_agree hstore hx hy
      refine halike ?_
      rw [isEqual?_ordinary hb' ha', isEqual?_ordinary ha' hb', hx, hy]

-- =================================================================== order

/-- What has an order is neither a probe nor a truth value. -/
theorem isOrdinary_of_isOrderable
    (h : (store.datum a).isOrderable = true) : a.IsOrdinary := by
  constructor
  · rintro p rfl
    cases h
  · rintro b rfl
    cases h

/-- Values have an order as conditions ask for it, or it is false, or an
error. -/
theorem isOrdered_eq (d : Direction) {o : Option Bool}
    (ho : store.order? d a b = .ok o) :
    store.isOrdered d a b =
      if (store.datum a).isOrderable && (store.datum b).isOrderable then
        o.elim (.error (.incomparable (store.datum a).typeName
          (store.datum b).typeName)) .ok
      else .ok false := by
  simp only [isOrdered, ho]
  split
  · cases o <;> rfl
  · rfl

end Store

/-- Nil, truth values, probes and tables are never ordered. -/
def Value.Unordered (store : Store) (v : Value) : Prop :=
  v = .nil ∨ (∃ b, v = .bool b) ∨ (∃ p, v = .probe p) ∨
    store.access v = .table

/-- Of objects, only tables are never ordered. -/
theorem Store.isOrderable_object {store : Store} (i : ObjectId) :
    (store.datum (.object i)).isOrderable = true ↔
      store.access (.object i) ≠ .table := by
  cases ho : store.get? i with
  | none =>
    have haccess : store.access (.object i) = .scalar := by
      simp only [access, object?, ho]
    rw [datum, unfold, ho, haccess]
    exact iff_of_true rfl (by simp)
  | some o =>
    have hobject : store.object? (.object i) = some o := ho
    cases o with
    | table es =>
      rw [(access_table hobject).1, datum, unfold_container ho rfl,
        if_neg (by simp)]
      exact iff_of_false Bool.false_ne_true fun h => h rfl
    | frozen es =>
      rw [(access_frozen hobject).1, datum, unfold_container ho rfl,
        if_neg (by simp)]
      exact iff_of_false Bool.false_ne_true fun h => h rfl
    | list | tuple | set =>
      rw [datum, unfold_container ho rfl, if_neg (by simp)]
      simp only [access, hobject]
      exact iff_of_true rfl (by simp)
    | _ =>
      rw [datum, unfold_other ho rfl]
      simp only [access, hobject]
      exact iff_of_true rfl (by simp)

/-- All other values are ordered, or it is an error not to be. -/
theorem Value.isOrderable_datum {store : Store} {v : Value} :
    (store.datum v).isOrderable = true ↔ ¬v.Unordered store := by
  cases v with
  | nil => exact ⟨nofun, fun h => absurd (Or.inl rfl) h⟩
  | bool b => exact ⟨nofun, fun h => absurd (Or.inr (Or.inl ⟨b, rfl⟩)) h⟩
  | probe p =>
    exact ⟨nofun, fun h => absurd (Or.inr (Or.inr (Or.inl ⟨p, rfl⟩))) h⟩
  | object i =>
    rw [Store.isOrderable_object]
    simp [Unordered]
  | _ =>
    refine ⟨fun _ => ?_, fun _ => rfl⟩
    rintro (h | ⟨_, h⟩ | ⟨_, h⟩ | h)
    all_goals cases h

-- =============================================================== operators

namespace Operator

open Store

variable {store : Store} {a b : Value}

/-- An order and its flip are one comparison seen from either side. -/
theorem apply_order_flip (hstore : store.WellKeyed)
    (h : store.Acyclic a ∨ store.Acyclic b) (d : Direction) :
    Mirrored (apply store (.order d) a b)
      (apply store (.order d.flip) b a) := by
  obtain ⟨o, ho⟩ := order?_succeeds (d := d) h
  obtain ⟨o', ho'⟩ := order?_succeeds (d := d.flip) h.symm
  obtain rfl := order?_agree hstore ho ho'
  simp only [apply, isOrdered_eq d ho, isOrdered_eq d.flip ho',
    Bool.and_comm (store.datum b).isOrderable]
  split
  · cases o with
    | none => exact Or.inr ⟨_, _, rfl, rfl⟩
    | some answer => exact Or.inl ⟨answer, rfl, rfl⟩
  · exact Or.inl ⟨false, rfl, rfl⟩

/-- Of values that have an order, smaller or equal fails where smaller does,
and else is what it says. -/
theorem apply_lessEqual (h : store.Acyclic a ∨ store.Acyclic b)
    (ha : ¬a.Unordered store) (hb : ¬b.Unordered store) :
    ((∃ f, apply store (.order .lessEqual) a b = .error f) ↔
      ∃ f, apply store (.order .less) a b = .error f) ∧
    ∀ answer, apply store (.order .lessEqual) a b = .ok answer →
      (answer = some true ↔
        apply store (.order .less) a b = .ok (some true) ∨
          apply store .equal a b = .ok (some true)) := by
  have hoa := Value.isOrderable_datum.2 ha
  have hob := Value.isOrderable_datum.2 hb
  obtain ⟨o, ho⟩ := order?_succeeds (d := .less) h
  obtain ⟨o', ho'⟩ := order?_succeeds (d := .lessEqual) h
  obtain ⟨e, he⟩ := equal_succeeds h
  obtain rfl := order?_lessEqual he ho ho'
  simp only [apply, isOrdered_eq _ ho, isOrdered_eq _ ho', hoa, hob,
    Bool.and_self, if_true, he, isEqual?_ordinary
      (isOrdinary_of_isOrderable hoa) (isOrdinary_of_isOrderable hob)]
  cases o with
  | none =>
    refine ⟨iff_of_true ⟨_, rfl⟩ ⟨_, rfl⟩, fun answer h => ?_⟩
    cases h
  | some less =>
    refine ⟨iff_of_false ?_ ?_, fun answer h => ?_⟩
    · rintro ⟨_, h⟩
      cases h
    · rintro ⟨_, h⟩
      cases h
    · obtain rfl := Except.ok.inj h
      simp [Except.map]

/-- The two operators that deny equality hold where it does not, and fail
where it does. -/
theorem apply_denied (store : Store) (a b : Value) {op : Operator}
    (hop : op = .unequal ∨ op = .lessOrGreater) :
    apply store op a b =
      (apply store .equal a b).map fun s => some (s != some true) := by
  rcases hop with rfl | rfl
  all_goals
    simp only [apply]
    cases store.isEqual? a b <;> rfl

/-- The comparison operators obey their algebra, if not both values contain
themselves. An order is its flip seen from the other side. Where values have
an order, smaller or equal is smaller or else equal. Equality is symmetric,
and its two negations deny it. -/
theorem comparisons_obey_algebra (hstore : store.WellKeyed)
    (h : store.Acyclic a ∨ store.Acyclic b) :
    (∀ d, Mirrored (apply store (.order d) a b)
      (apply store (.order d.flip) b a)) ∧
    (¬a.Unordered store → ¬b.Unordered store →
      ((∃ f, apply store (.order .lessEqual) a b = .error f) ↔
        ∃ f, apply store (.order .less) a b = .error f) ∧
      ∀ answer, apply store (.order .lessEqual) a b = .ok answer →
        (answer = some true ↔
          apply store (.order .less) a b = .ok (some true) ∨
            apply store .equal a b = .ok (some true))) ∧
    HoldAlike (apply store .equal a b) (apply store .equal b a) ∧
    ∀ op, op = .unequal ∨ op = .lessOrGreater →
      apply store op a b =
        (apply store .equal a b).map fun s => some (s != some true) :=
  ⟨apply_order_flip hstore h, apply_lessEqual h, isEqual?_comm hstore h,
    fun _ => apply_denied store a b⟩

/-- Of two tables that hold lists which hold themselves, the one side
compares the lists, which has no end, and the other one finds a difference
before it comes to them. -/
theorem equality_of_cyclic_tables :
    let store : Store := ⟨#[.list [.object 0], .list [.object 1],
      .table [(.text "x", .object 0), (.text "y", .int 1)],
      .table [(.text "y", .int 2), (.text "x", .object 1)]]⟩
    store.WellKeyed ∧
      apply store .equal (.object 2) (.object 3) = .error .tooDeep ∧
      apply store .equal (.object 3) (.object 2) = .ok (some false) ∧
      ¬HoldAlike (apply store .equal (.object 2) (.object 3))
        (apply store .equal (.object 3) (.object 2)) := by
  intro store
  have hstore : store.WellKeyed := by decide +kernel
  have hleft : apply store .equal (.object 2) (.object 3) =
      .error .tooDeep := by decide +kernel
  have hright : apply store .equal (.object 3) (.object 2) =
      .ok (some false) := by decide +kernel
  refine ⟨hstore, hleft, hright, ?_⟩
  rw [hleft, hright]
  rintro (⟨s, t, h, -⟩ | ⟨f, -, h⟩)
  · cases h
  · cases h

/-- A list of a table and a text, and a list of a frozen table and bytes.
The tables are equal, though their keys and the members of the sets in them
are of different kinds and in a different order. So the lists differ in their
second items only, which have no order. -/
theorem comparisons_obey_algebra_nested :
    let store : Store := ⟨#[.set [.int 1, .text "x"],
      .set [.text "x", .float (.ofDecimal false 1 0)],
      .table [(.int 1, .object 0), (.nil, .text "n")],
      .frozen [(.nil, .text "n"), (.bool true, .object 1)],
      .list [.object 2, .text "s"], .list [.object 3, .bytes [115]]]⟩
    (store.WellKeyed ∧ store.Acyclic (.object 4) ∧
      store.Acyclic (.object 2)) ∧
    (¬(Value.object 4).Unordered store ∧
      ¬(Value.object 5).Unordered store) ∧
    apply store (.order .less) (.object 4) (.object 5) =
      .error (.incomparable "list" "list") ∧
    Mirrored (apply store (.order .less) (.object 4) (.object 5))
      (apply store (.order .greater) (.object 5) (.object 4)) ∧
    ((∃ f, apply store (.order .lessEqual) (.object 4) (.object 5) =
        .error f) ↔
      ∃ f, apply store (.order .less) (.object 4) (.object 5) = .error f) ∧
    apply store .equal (.object 2) (.object 3) = .ok (some true) ∧
    HoldAlike (apply store .equal (.object 2) (.object 3))
      (apply store .equal (.object 3) (.object 2)) := by
  intro store
  have hstore : store.WellKeyed := by decide +kernel
  have hends : store.EndsWithin 3 (.object 4) := by decide +kernel
  have hordered : ∀ i, i = 4 ∨ i = 5 →
      ¬(Value.object i).Unordered store := by
    rintro i (rfl | rfl) (h | ⟨_, h⟩ | ⟨_, h⟩ | h)
    all_goals cases h
  have htable : store.Acyclic (.object 2) := by
    have hends : store.EndsWithin 2 (.object 2) := by decide +kernel
    exact hends.acyclic
  have hlists := comparisons_obey_algebra hstore (b := .object 5)
    (Or.inl hends.acyclic)
  have htables := comparisons_obey_algebra hstore (b := .object 3)
    (Or.inl htable)
  have h4 := hordered 4 (Or.inl rfl)
  have h5 := hordered 5 (Or.inr rfl)
  exact ⟨⟨hstore, hends.acyclic, htable⟩, ⟨h4, h5⟩,
    by decide +kernel, hlists.1 .less, (hlists.2.1 h4 h5).1,
    by decide +kernel, htables.2.2.1⟩

end Operator
end Stencil
