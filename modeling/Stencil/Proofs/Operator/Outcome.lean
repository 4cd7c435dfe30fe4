/-
How comparisons fail.

There are four ways, and no others, of values that do not contain themselves
(`apply_eq_error`). Two values that should have an order may have none. A
probe may be asked about a range that is too long to be counted. Text cannot
be searched for an integer of too many digits. And bytes that are searched
for a number refuse what is no byte, although whatever else they cannot hold
they only deny. Ranges apart that are too long, a clause therefore fails in
an order or in a search, and in nothing else (`clause_outcome`).

Where a search makes no sense it denies (`contains_of_not_canHold`): in what
has no parts, for what can be no key among keys, for text in bytes.
-/
import Stencil.Condition.Evaluation
import Stencil.Proofs.Evaluation.Queries
import Stencil.Proofs.Operator.Laws

namespace Stencil

-- ================================================================== data

/-- What is made of an answer fails where there is none. -/
theorem map_eq_error {α β : Type} {x : Except Failure α} {g : α → β}
    {f : Failure} : x.map g = .error f ↔ x = .error f := by
  cases x with
  | ok _ => exact ⟨nofun, nofun⟩
  | error e =>
    constructor
    · rintro ⟨⟩
      rfl
    · rintro ⟨⟩
      rfl

theorem rangeLength_eq_error {first stop : Int} {f : Failure} :
    rangeLength first stop = .error f ↔
      maxLength < stop - first ∧ f = .tooLongToMeasure := by
  unfold rangeLength
  split
  · next hlong =>
    exact ⟨fun h => ⟨hlong, (Except.error.inj h).symm⟩, fun h => h.2 ▸ rfl⟩
  · next hshort => exact ⟨nofun, fun h => absurd h.1 hshort⟩

namespace Store

variable {store : Store} {v w : Value} {n : Nat} {f : Failure}

/-- A value all ways down from which end is written, unless an integer in it
has too many digits. -/
theorem outputTo_eq_error (hv : store.EndsWithin n v)
    (h : store.outputTo n v = .error f) : f = .tooManyDigits := by
  induction n generalizing v with
  | zero => exact hv.elim
  | succ n ih =>
    have hitems {items : List Value} (hitems : store.items v = items)
        (h : (do return String.join (← items.mapM (store.outputTo n)) :
          Except Failure String) = .error f) : f = .tooManyDigits := by
      rcases outcome_bind_eq_error.1 h with h | ⟨texts, -, h⟩
      · obtain ⟨x, hx, h⟩ := exists_of_mapM_eq_error h
        exact ih (hv x (List.mem_append_left _ (hitems ▸ hx))) h
      · cases h
    unfold outputTo at h
    split at h
    · next ho => exact hitems (by simp only [items, ho]) h
    · next ho => exact hitems (by simp only [items, ho]) h
    · exact (written_eq_error.1 h).2
    · unfold outputScalar at h
      split at h
      · cases h
      · cases h
      · cases h
      · exact (written_eq_error.1 h).2
      · exact (written_eq_error.1 h).2

/-- A value that does not contain itself is written, unless an integer in it
has too many digits. -/
theorem output_eq_error (hv : store.Acyclic v)
    (h : store.output v = .error f) : f = .tooManyDigits :=
  outputTo_eq_error hv.endsWithin h

/-- A probe fails where it would have to count. -/
theorem test_eq_error {p : Probe} {d : Datum} :
    p.test d = .error f ↔ d.length? = .error f := by
  unfold Probe.test
  split
  · exact map_eq_error
  · exact ⟨nofun, nofun⟩
  · exact ⟨nofun, nofun⟩
  · exact ⟨nofun, nofun⟩
  · exact map_eq_error

/-- Equality fails where a probe does, asked about the other side. -/
theorem isEqual?_eq_error (h : store.Acyclic v ∨ store.Acyclic w) :
    store.isEqual? v w = .error f ↔
      (∃ p, v = .probe p ∧ (store.datum w).length? = .error f) ∨
        ∃ p, w = .probe p ∧ (store.datum v).length? = .error f := by
  constructor
  · intro hfails
    unfold isEqual? at hfails
    split at hfails
    · next p => exact Or.inl ⟨p, rfl, test_eq_error.1 hfails⟩
    · next p _ => exact Or.inr ⟨p, rfl, test_eq_error.1 hfails⟩
    · cases hfails
    · cases hfails
    · cases hfails
    · obtain ⟨b, hb⟩ := equal_succeeds h
      rw [hb] at hfails
      cases hfails
  · rintro (⟨p, rfl, hlength⟩ | ⟨p, rfl, hlength⟩)
    · exact test_eq_error.2 hlength
    · have hprobe : ∀ q, v ≠ .probe q := by
        rintro q rfl
        cases hlength
      rw [isEqual?_probe p hprobe]
      exact test_eq_error.2 hlength

/-- Bytes deny what they cannot hold, numbers that are no bytes apart. -/
theorem bytesContain_eq_error {bs : List UInt8} :
    bytesContain bs v = .error f ↔
      ∃ n, v = .int n ∧ (n < 0 ∨ 255 < n) ∧ f = .byteOutOfRange n := by
  unfold bytesContain
  split
  · exact ⟨nofun, nofun⟩
  · next n =>
    split
    · next hbyte =>
      refine ⟨nofun, ?_⟩
      rintro ⟨_, heq, hno, -⟩
      cases heq
      simp only [Bool.and_eq_true, decide_eq_true_eq] at hbyte
      omega
    · next hno =>
      simp only [Bool.and_eq_true, decide_eq_true_eq, not_and_or,
        Int.not_le] at hno
      constructor
      · exact fun h => ⟨n, rfl, hno, (Except.error.inj h).symm⟩
      · rintro ⟨_, heq, -, rfl⟩
        cases heq
        rfl
  · exact ⟨nofun, nofun⟩
  · next hint _ =>
    refine ⟨nofun, ?_⟩
    rintro ⟨n, rfl, -⟩
    exact absurd rfl (hint n)

/-- A search among items answers, if not both sides contain themselves. -/
theorem anyM_same_succeeds {items : List Value}
    (hparts : ∀ x ∈ items, store.HasPart v x)
    (h : store.Acyclic v ∨ store.Acyclic w) :
    Succeeds (items.anyM fun x => store.same x w) := by
  refine anyM_succeeds fun x hx => same_succeeds (h.imp_left fun hv => ?_)
  exact fun y hy => hv y (.head (hparts x hx) hy)

/-- A search fails in text for what cannot be written, and in bytes for a
number that is no byte. -/
theorem holds_eq_error (h : store.Acyclic v ∨ store.Acyclic w) :
    store.holds v w = .error f ↔
      (∃ s, v = .text s ∧ store.output w = .error f) ∨
        ∃ bs n, v = .bytes bs ∧ w = .int n ∧ (n < 0 ∨ 255 < n) ∧
          f = .byteOutOfRange n := by
  constructor
  · intro hfails
    unfold holds at hfails
    split at hfails
    · next s =>
      rcases outcome_bind_eq_error.1 hfails with hfails | ⟨text, -, hno⟩
      · exact Or.inl ⟨s, rfl, hfails⟩
      · cases hno
    · next bs =>
      obtain ⟨n, hw, hno, hf⟩ := bytesContain_eq_error.1 hfails
      exact Or.inr ⟨bs, n, rfl, hw, hno, hf⟩
    · split at hfails
      · cases hfails
      · cases hfails
    · have hanswers {items : List Value} (hitems : store.items v = items)
          (hfails : (items.anyM fun x => store.same x w) = .error f) :
          False := by
        obtain ⟨b, hb⟩ := anyM_same_succeeds
          (fun x hx => List.mem_append_left _ (hitems ▸ hx)) h
        rw [hb] at hfails
        cases hfails
      split at hfails
      · next ho => exact (hanswers (by simp only [items, ho]) hfails).elim
      · next ho => exact (hanswers (by simp only [items, ho]) hfails).elim
      all_goals cases hfails
  · rintro (⟨s, rfl, hfails⟩ | ⟨bs, n, rfl, rfl, hno, rfl⟩)
    · exact outcome_bind_eq_error.2 (Or.inl hfails)
    · exact bytesContain_eq_error.2 ⟨n, rfl, hno, rfl⟩

end Store

namespace Operator

open Store

variable {store : Store} {a b : Value} {op : Operator} {f : Failure}

-- =============================================================== failures

/-- The operators that ask for equality. -/
def AsksEquality (op : Operator) : Prop :=
  op = .equal ∨ op = .unequal ∨ op = .lessOrGreater

/-- A range that is too long to be counted. -/
def Uncounted (v : Value) : Prop :=
  ∃ first stop, v = .range first stop ∧ maxLength < stop - first

/-- The ways in which a comparison fails, and with what. -/
inductive Refuses (store : Store) : Operator → Value → Value → Failure → Prop
  /-- Both values are of kinds that are ordered, but not with each other. -/
  | unordered {d : Direction} {a b : Value} (ha : ¬a.Unordered store)
      (hb : ¬b.Unordered store) (horder : store.order? d a b = .ok none) :
      Refuses store (.order d) a b
        (.incomparable (store.datum a).typeName (store.datum b).typeName)
  /-- Bytes are searched for a number that is no byte. -/
  | noByte {bs : List UInt8} {n : Int} (h : n < 0 ∨ 255 < n) :
      Refuses store .contains (.bytes bs) (.int n) (.byteOutOfRange n)
  /-- Text is searched for what cannot be written. -/
  | unwritten {s : String} {b : Value}
      (h : store.output b = .error .tooManyDigits) :
      Refuses store .contains (.text s) b .tooManyDigits
  /-- A probe asks about a range that is too long. -/
  | tooLong {op : Operator} {a b : Value} (hop : op.AsksEquality)
      (h : (∃ p, a = .probe p ∧ Uncounted b) ∨
        ∃ p, b = .probe p ∧ Uncounted a) :
      Refuses store op a b .tooLongToMeasure

theorem length?_datum_eq_error :
    (store.datum a).length? = .error f ↔
      Uncounted a ∧ f = .tooLongToMeasure := by
  rw [Datum.length?_eq_error]
  constructor
  · rintro ⟨first, stop, hdatum, h⟩
    obtain ⟨hlong, hf⟩ := rangeLength_eq_error.1 h
    exact ⟨⟨first, stop, (Store.eq_of_datum_atom hdatum).symm, hlong⟩, hf⟩
  · rintro ⟨⟨first, stop, rfl, hlong⟩, hf⟩
    exact ⟨first, stop, rfl, rangeLength_eq_error.2 ⟨hlong, hf⟩⟩

/-- Equality fails where a probe asks about a range that is too long. -/
theorem apply_equal_eq_error (h : store.Acyclic a ∨ store.Acyclic b) :
    apply store .equal a b = .error f ↔
      ((∃ p, a = .probe p ∧ Uncounted b) ∨
        ∃ p, b = .probe p ∧ Uncounted a) ∧ f = .tooLongToMeasure := by
  rw [apply, isEqual?_eq_error h]
  simp only [length?_datum_eq_error]
  constructor
  · rintro (⟨p, ha, hb, hf⟩ | ⟨p, hb, ha, hf⟩)
    · exact ⟨Or.inl ⟨p, ha, hb⟩, hf⟩
    · exact ⟨Or.inr ⟨p, hb, ha⟩, hf⟩
  · rintro ⟨⟨p, rfl, hb⟩ | ⟨p, rfl, ha⟩, hf⟩
    · exact Or.inl ⟨p, rfl, hb, hf⟩
    · exact Or.inr ⟨p, rfl, ha, hf⟩

theorem apply_order_eq_error (h : store.Acyclic a ∨ store.Acyclic b)
    {d : Direction} :
    apply store (.order d) a b = .error f ↔
      ¬a.Unordered store ∧ ¬b.Unordered store ∧
        store.order? d a b = .ok none ∧
        f = .incomparable (store.datum a).typeName
          (store.datum b).typeName := by
  obtain ⟨o, ho⟩ := order?_succeeds (d := d) h
  rw [apply, map_eq_error, isOrdered_eq d ho, ho, ← Value.isOrderable_datum,
    ← Value.isOrderable_datum]
  cases o with
  | none =>
    split
    · next hboth =>
      obtain ⟨ha, hb⟩ := Bool.and_eq_true_iff.1 hboth
      exact ⟨fun heq => ⟨ha, hb, rfl, (Except.error.inj heq).symm⟩,
        fun hall => hall.2.2.2 ▸ rfl⟩
    · next hno =>
      refine iff_of_false (fun heq => by cases heq) ?_
      rintro ⟨ha, hb, -⟩
      exact hno (Bool.and_eq_true_iff.2 ⟨ha, hb⟩)
  | some answer =>
    refine iff_of_false (fun heq => ?_) ?_
    · split at heq
      · cases heq
      · cases heq
    · rintro ⟨-, -, hnone, -⟩
      cases hnone

theorem apply_contains_eq_error (ha : store.Acyclic a)
    (hb : store.Acyclic b) :
    apply store .contains a b = .error f ↔
      (∃ s, a = .text s ∧ store.output b = .error .tooManyDigits ∧
        f = .tooManyDigits) ∨
      ∃ bs n, a = .bytes bs ∧ b = .int n ∧ (n < 0 ∨ 255 < n) ∧
        f = .byteOutOfRange n := by
  have hwritten : store.output b = .error f ↔
      store.output b = .error .tooManyDigits ∧ f = .tooManyDigits := by
    constructor
    · intro h
      obtain rfl := output_eq_error hb h
      exact ⟨h, rfl⟩
    · rintro ⟨h, rfl⟩
      exact h
  have happly : apply store .contains a b = .error f ↔
      store.holds a b = .error f ∧ (a.isTruthy && b.isTruthy) = true := by
    simp only [apply]
    split
    · next htruthy => simp only [map_eq_error, htruthy, and_true]
    · next hfalse =>
      exact iff_of_false (fun h => by cases h) fun h => hfalse h.2
  rw [happly, holds_eq_error (Or.inl ha)]
  simp only [← hwritten]
  refine and_iff_left_of_imp ?_
  -- what is neither nil nor false is searched for, and those can be written
  rintro (⟨s, rfl, h⟩ | ⟨bs, n, rfl, rfl, -⟩)
  · cases b with
    | nil => cases h
    | bool x => cases h
    | _ => rfl
  · rfl

/-- A comparison of values that do not contain themselves fails in one of
four ways, and always so. -/
theorem apply_eq_error (ha : store.Acyclic a) (hb : store.Acyclic b) :
    apply store op a b = .error f ↔ Refuses store op a b f := by
  have hasks (hop : op.AsksEquality) :
      apply store op a b = .error f ↔
        apply store .equal a b = .error f := by
    rcases hop with rfl | hop
    · rfl
    · rw [apply_denied store a b hop, map_eq_error]
  have hequal (hop : op.AsksEquality) (h : apply store op a b = .error f) :
      Refuses store op a b f := by
    obtain ⟨hlong, rfl⟩ :=
      (apply_equal_eq_error (Or.inl ha)).1 ((hasks hop).1 h)
    exact .tooLong hop hlong
  constructor
  · intro h
    cases op with
    | order d =>
      obtain ⟨ha, hb, horder, rfl⟩ :=
        (apply_order_eq_error (Or.inl ha)).1 h
      exact .unordered ha hb horder
    | contains =>
      rcases (apply_contains_eq_error ha hb).1 h with
        ⟨s, rfl, hout, rfl⟩ | ⟨bs, n, rfl, rfl, hno, rfl⟩
      · exact .unwritten hout
      · exact .noByte hno
    | equal => exact hequal (Or.inl rfl) h
    | unequal => exact hequal (Or.inr (Or.inl rfl)) h
    | lessOrGreater => exact hequal (Or.inr (Or.inr rfl)) h
  · rintro (⟨hoa, hob, horder⟩ | hno | h | ⟨hop, hlong⟩)
    · exact (apply_order_eq_error (Or.inl ha)).2 ⟨hoa, hob, horder, rfl⟩
    · exact (apply_contains_eq_error ha hb).2
        (Or.inr ⟨_, _, rfl, rfl, hno, rfl⟩)
    · exact (apply_contains_eq_error ha hb).2 (Or.inl ⟨_, rfl, h, rfl⟩)
    · exact (hasks hop).2
        ((apply_equal_eq_error (Or.inl ha)).2 ⟨hlong, rfl⟩)

end Operator

-- ================================================================ meaning

/-- Where it makes sense to ask whether one value holds another: text is
searched for how anything reads, bytes for bytes and for numbers that are
bytes, a range for numbers, a list or tuple for anything, and a set or table
for what can be among its keys. -/
inductive Value.CanHold (store : Store) : Value → Value → Prop
  | text {s : String} {v : Value} : CanHold store (.text s) v
  | bytes {bs part : List UInt8} : CanHold store (.bytes bs) (.bytes part)
  | byte {bs : List UInt8} {n : Int} (h : 0 ≤ n ∧ n ≤ 255) :
      CanHold store (.bytes bs) (.int n)
  | bit {bs : List UInt8} {x : Bool} : CanHold store (.bytes bs) (.bool x)
  | range {first stop : Int} {v : Value} (h : v.quantity?.isSome) :
      CanHold store (.range first stop) v
  | items {u v : Value} (h : store.access u = .sequence) : CanHold store u v
  | members {u v : Value} {items : List Value}
      (h : store.object? u = some (.set items))
      (hv : store.isHashable v = true) : CanHold store u v
  | keys {u v : Value} (h : store.access u = .table)
      (hv : store.isHashable v = true) : CanHold store u v

section

variable {store : Store} {a b : Value}

/-- What can be no key is not among keys. -/
theorem Store.isAmong_of_not {v : Value} (h : ¬store.isHashable v = true)
    (keys : List Value) : store.isAmong v keys = false := by
  rw [isAmong, Bool.eq_false_iff.2 h, Bool.false_and]

/-- Bytes hold nothing but bytes and integers, truth values included. -/
theorem bytesContain_other {bs : List UInt8} {v : Value}
    (hbytes : ∀ part, v ≠ .bytes part) (hint : ∀ n, v ≠ .int n)
    (hbool : ∀ x, v ≠ .bool x) : bytesContain bs v = .ok false := by
  unfold bytesContain
  split
  · exact absurd rfl (hbytes _)
  · exact absurd rfl (hint _)
  · exact absurd rfl (hbool _)
  · rfl

/-- What is no number is not in a range. -/
theorem Value.integral?_eq_none (h : b.quantity? = none) :
    b.integral? = none := by
  cases b with
  | bool | int | float => cases h
  | _ => rfl

/-- An object that cannot hold a value does not. -/
theorem Store.holds_object {i : ObjectId}
    (h : ¬(Value.object i).CanHold store b) :
    store.holds (.object i) b = .ok false := by
  have hitems (haccess : store.access (.object i) = .sequence) : False :=
    h (.items haccess)
  simp only [holds]
  split
  · next ho => exact (hitems (by simp only [access, ho])).elim
  · next ho => exact (hitems (by simp only [access, ho])).elim
  · next ho =>
    exact congrArg Except.ok (isAmong_of_not (fun hb => h (.members ho hb)) _)
  · next ho =>
    exact congrArg Except.ok
      (isAmong_of_not (fun hb => h (.keys (access_table ho).1 hb)) _)
  · next ho =>
    exact congrArg Except.ok
      (isAmong_of_not (fun hb => h (.keys (access_frozen ho).1 hb)) _)
  · rfl

/-- A search that makes no sense denies, one of bytes for a number
apart. -/
theorem Operator.contains_of_not_canHold (h : ¬a.CanHold store b)
    (hbytes : ∀ bs n, a = .bytes bs → b ≠ .int n) :
    apply store .contains a b = .ok (some false) := by
  simp only [apply]
  split
  · refine congrArg (Except.map some) (?_ : _ = Except.ok false)
    cases a with
    | text s => exact absurd .text h
    | bytes bs =>
      refine bytesContain_other (fun part hb => ?_) (fun n hb => ?_)
        fun x hb => ?_
      · subst hb
        exact h .bytes
      · exact hbytes bs n rfl hb
      · subst hb
        exact h .bit
    | range first stop =>
      have hno : b.quantity? = none := by
        rw [← Option.not_isSome_iff_eq_none]
        exact fun hnumber => h (.range hnumber)
      simp only [Store.holds, Value.integral?_eq_none hno]
    | object i => exact Store.holds_object h
    | _ => rfl
  · rfl

end

-- ================================================================ clauses

namespace Eval

variable {ctx : ContextId} {c : Clause} {op : Operator} {w u t : World}
  {a b : Value}

/-- A comparison of two values is what its operator says of them, and
changes nothing. -/
theorem clause_apply (hop : c.operator? = some op)
    (hleft : evaluate ctx c.left w = (.ok a, u))
    (hright : evaluate ctx c.right u = (.ok b, t)) :
    clause ctx c w = ((op.apply t.store a b).map ofAnswer, t) := by
  rw [clause, bind_apply, hleft, hop]
  show (evaluate ctx c.right >>= _) u = _
  rw [bind_apply, hright]
  show (store >>= _) t = _
  rw [store_bind_apply]
  cases op.apply t.store a b <;> rfl

/-- Comparisons of values that do not contain themselves, ranges apart that
are too long to be counted, fail in three ways: in an order, if both values
are of kinds that are ordered but have none with each other, in a search of
bytes for a number that is no byte, and in a search of text for what has too
many digits to be written. Every other comparison answers, and a search that
makes no sense denies. -/
theorem clause_outcome (hop : c.operator? = some op)
    (hleft : evaluate ctx c.left w = (.ok a, u))
    (hright : evaluate ctx c.right u = (.ok b, t))
    (hends : t.store.Acyclic a) (hends' : t.store.Acyclic b)
    (ha : ∀ first stop, a = .range first stop → stop - first ≤ maxLength)
    (hb : ∀ first stop, b = .range first stop → stop - first ≤ maxLength) :
    (clause ctx c w).2 = t ∧
    (∀ f, (clause ctx c w).1 = .error f ↔
      (∃ d, op = .order d ∧ ¬a.Unordered t.store ∧ ¬b.Unordered t.store ∧
        t.store.order? d a b = .ok none ∧
        f = .incomparable (t.store.datum a).typeName
          (t.store.datum b).typeName) ∨
      (∃ bs n, op = .contains ∧ a = .bytes bs ∧ b = .int n ∧
        (n < 0 ∨ 255 < n) ∧ f = .byteOutOfRange n) ∨
      ∃ s, op = .contains ∧ a = .text s ∧
        t.store.output b = .error .tooManyDigits ∧ f = .tooManyDigits) ∧
    (op = .contains → ¬a.CanHold t.store b →
      (∀ bs n, a = .bytes bs → b ≠ .int n) →
      (clause ctx c w).1 = .ok (.bool false)) := by
  have hcounted {v : Value}
      (hv : ∀ first stop, v = .range first stop → stop - first ≤ maxLength) :
      ¬Operator.Uncounted v := by
    rintro ⟨first, stop, hrange, hlong⟩
    exact absurd hlong (Int.not_lt.2 (hv first stop hrange))
  rw [clause_apply hop hleft hright]
  refine ⟨rfl, fun f => ?_, fun hcontains hno hbytes => ?_⟩
  · rw [map_eq_error, Operator.apply_eq_error hends hends']
    constructor
    · rintro (⟨hoa, hob, horder⟩ | hno | hout |
        ⟨-, ⟨-, -, hlong⟩ | ⟨-, -, hlong⟩⟩)
      · exact Or.inl ⟨_, rfl, hoa, hob, horder, rfl⟩
      · exact Or.inr (Or.inl ⟨_, _, rfl, rfl, rfl, hno, rfl⟩)
      · exact Or.inr (Or.inr ⟨_, rfl, rfl, hout, rfl⟩)
      · exact absurd hlong (hcounted hb)
      · exact absurd hlong (hcounted ha)
    · rintro (⟨d, rfl, hoa, hob, horder, rfl⟩ |
        ⟨bs, n, rfl, rfl, rfl, hno, rfl⟩ | ⟨s, rfl, rfl, hout, rfl⟩)
      · exact .unordered hoa hob horder
      · exact .noByte hno
      · exact .unwritten hout
  · subst hcontains
    rw [Operator.contains_of_not_canHold hno hbytes]
    rfl

/-- A list cannot be a key, so a table is not searched for it. -/
theorem clause_outcome_unhashable :
    let w : World := { World.fresh false with
      store := ⟨#[.list [], .table [(.int 1, .object 0)]]⟩ }
    let c : Clause := .compare (.const (.object 1)) (some .contains)
      (.const (.object 0))
    evaluate 0 c.left w = (.ok (.object 1), w) ∧
      evaluate 0 c.right w = (.ok (.object 0), w) ∧
      w.store.Acyclic (.object 1) ∧ w.store.Acyclic (.object 0) ∧
      (¬(Value.object 1).CanHold w.store (.object 0)) ∧
      (clause 0 c w).1 = .ok (.bool false) := by
  intro w c
  have hno : ¬(Value.object 1).CanHold w.store (.object 0) := by
    intro h
    cases h with
    | items h => cases h
    | members h hv => cases h
    | keys h hv => exact absurd hv (by decide)
  have hleft : evaluate 0 c.left w = (.ok (.object 1), w) := rfl
  have hright : evaluate 0 c.right w = (.ok (.object 0), w) := rfl
  have htable : w.store.EndsWithin 2 (.object 1) := by decide +kernel
  have hlist : w.store.EndsWithin 1 (.object 0) := by decide +kernel
  have h := clause_outcome (c := c) rfl hleft hright htable.acyclic
    hlist.acyclic (fun _ _ h => nomatch h) (fun _ _ h => nomatch h)
  exact ⟨hleft, hright, htable.acyclic, hlist.acyclic, hno,
    h.2.2 rfl hno (fun _ _ h => nomatch h)⟩

/-- Not every failure of a comparison says that two values have no order:
bytes searched for the number 300 fail by themselves. -/
theorem not_clause_answers_or_incomparable :
    ¬∀ (ctx : ContextId) (c : Clause) (op : Operator) (w u t : World)
      (a b : Value), c.operator? = some op →
      evaluate ctx c.left w = (.ok a, u) →
      evaluate ctx c.right u = (.ok b, t) →
      (∀ first stop, a = .range first stop → stop - first ≤ maxLength) →
      (∀ first stop, b = .range first stop → stop - first ≤ maxLength) →
      (∃ v, (clause ctx c w).1 = .ok v) ∨
        ∃ d left right, op = .order d ∧
          (clause ctx c w).1 = .error (.incomparable left right) := by
  intro h
  have hclause : (clause 0 (.compare (.const (.bytes [97])) (some .contains)
      (.const (.int 300))) (World.fresh false)).1 =
        .error (.byteOutOfRange 300) := by decide +kernel
  have hcase := h 0 (.compare (.const (.bytes [97])) (some .contains)
      (.const (.int 300))) .contains (World.fresh false) (World.fresh false)
    (World.fresh false) (.bytes [97]) (.int 300) rfl rfl rfl
    (fun _ _ h => nomatch h) (fun _ _ h => nomatch h)
  rcases hcase with ⟨v, hv⟩ | ⟨d, _, _, hd, -⟩
  · rw [hclause] at hv
    cases hv
  · cases hd

end Eval
end Stencil
