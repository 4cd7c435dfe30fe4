/-
Evaluation over plain data.

A context is plain if its layers are tables of scalars that could be
spelled out. Then nothing that is met is deferred, no host object is
asked for anything, and evaluation never goes back to markup. What can
still go wrong is known: a name is undefined, two values have no order, a
bound is no integer. And a range may have a bound that the host refuses
to make an integer of, or too many integers to count them, or one that is
too long to be written.

Plain values are met again in what is evaluated, since a part of a plain
value is plain. So the invariant asks for the layers only, and evaluation
does not change them.
-/
import Stencil.Proofs.Expr.Numeric
import Stencil.Proofs.Evaluation.Operands
import Stencil.Proofs.Expr.Scalars
import Stencil.Proofs.Operator.Outcome
import Stencil.Proofs.Store.Grounded

namespace Stencil

/-- Whether the host refuses something about a range: to make an integer
of a bound, to count the integers, or to write one of them. -/
def Failure.isOfRange : Failure → Bool
  | .infiniteInteger | .missingInteger | .unreadableInteger _
  | .tooManyDigits | .tooLongToMeasure => true
  | _ => false

/-- The host refuses a number: something about a range, where there are
ranges, or to read an integer of too many digits, where there are such. -/
def Failure.OfHost (ranges long : Prop) (f : Failure) : Prop :=
  (ranges ∧ f.isOfRange = true) ∨ long ∧ ∃ text, f = .unreadableInteger text

/-- Over plain data rendering fails in the library's own ways, or because
the host refuses a number. -/
def Failure.OfPlain (ranges long : Prop) (f : Failure) : Prop :=
  f.isOwn = true ∨ f.OfHost ranges long

/-- A value that could be spelled. The characters of a text can be
counted. -/
structure Value.Plain (ranges : Prop) (v : Value) : Prop where
  spelled : v.Spelled ranges ranges
  counted : ∀ s, v = .text s → (s.length : Int) ≤ maxLength

/-- All layers of a context are tables of plain values. -/
def World.Plain (ranges : Prop) (ctx : ContextId) (w : World) : Prop :=
  ∀ layer ∈ (w.context ctx).layers, ∃ entries,
    w.store.object? layer = some (.table entries) ∧
      ∀ e ∈ entries, e.2.Plain ranges

section

variable {ranges long : Prop} {f : Failure}

theorem Failure.ofPlain_of_range (hranges : ranges)
    (h : f.isOfRange = true) : f.OfPlain ranges long :=
  Or.inr (Or.inl ⟨hranges, h⟩)

/-- A bound that is no integer is reported, or is refused by the host. -/
theorem Failure.ofPlain_of_isNumeric (hranges : ranges)
    (h : f.isNumeric = true) : f.OfPlain ranges long := by
  cases f with
  | notAnInteger => exact Or.inl rfl
  | infiniteInteger | missingInteger | unreadableInteger | tooManyDigits =>
    exact ofPlain_of_range hranges rfl
  | _ => cases h

theorem Failure.OfGrammar.ofPlain (h : f.OfGrammar ranges long) :
    f.OfPlain ranges long := by
  rcases h with ⟨e, rfl⟩ | ⟨hranges, hnumeric⟩ | hlong
  · exact Or.inl rfl
  · exact ofPlain_of_isNumeric hranges hnumeric
  · exact Or.inr (Or.inr hlong)

-- =========================================================== operators

/-- Plain values do not contain themselves. -/
theorem Store.acyclic_of_scalar {store : Store} {v : Value}
    (hv : v.IsScalar) : store.Acyclic v := by
  have hends : store.EndsWithin 1 v := by
    intro x hx
    obtain ⟨i, o, rfl, -, -⟩ := exists_get?_of_hasPart hx
    exact absurd rfl (hv i)
  exact hends.acyclic

/-- Of plain values only a range may be too long to have a length. -/
theorem Value.Spelled.length?_ofPlain {v : Value}
    (hv : v.Spelled ranges ranges)
    (h : (Datum.atom v).length? = .error f) : f.OfPlain ranges long := by
  cases v with
  | range first stop =>
    simp only [Datum.length?, rangeLength] at h
    split at h
    · cases h
      exact Failure.ofPlain_of_range hv rfl
    · cases h
  | _ => cases h

/-- Plain values can be written, except where there are ranges. -/
theorem Value.Spelled.isWritable {v : Value}
    (hv : v.Spelled ranges ranges) : ranges ∨ v.isWritable = true := by
  cases v with
  | range => exact Or.inl hv
  | int n => exact hv
  | _ => exact Or.inr rfl

variable {store : Store}

/-- A plain value that cannot be told has to do with a range. -/
theorem Value.Spelled.print_ofPlain {v : Value}
    (hv : v.Spelled ranges ranges) (h : store.print v = .error f) :
    f.OfPlain ranges long := by
  rw [Store.print_of_scalar hv.isScalar, written_eq_error] at h
  obtain ⟨hwritable, rfl⟩ := h
  rcases hv.isWritable with hranges | hyes
  · exact Failure.ofPlain_of_range hranges rfl
  · rw [hyes] at hwritable
    cases hwritable

/-- A plain value that cannot be written has to do with a range. -/
theorem Value.Spelled.output_ofPlain {v : Value}
    (hv : v.Spelled ranges ranges) (h : store.output v = .error f) :
    f.OfPlain ranges long := by
  obtain rfl := Store.output_eq_error (Store.acyclic_of_scalar hv.isScalar) h
  cases v with
  | bytes | object => exact hv.elim
  | range => exact Failure.ofPlain_of_range hv rfl
  | int n =>
    rcases hv with hranges | hyes
    · exact Failure.ofPlain_of_range hranges rfl
    · have hno := (written_eq_error.1 h).1
      cases hyes.symm.trans hno
  | _ => cases h

/-- Plain values have no order, or one of them is a range without a
length, or one that cannot be written is looked for in a text. -/
theorem Operator.ofPlain_of_apply {op : Operator} {v v' : Value}
    (hv : v.Spelled ranges ranges) (hv' : v'.Spelled ranges ranges)
    (h : op.apply store v v' = .error f) : f.OfPlain ranges long := by
  have huncounted {u : Value} (hu : u.Spelled ranges ranges)
      (hlong : Uncounted u) : ranges := by
    obtain ⟨first, stop, rfl, -⟩ := hlong
    exact hu
  have hrefuses := (apply_eq_error (Store.acyclic_of_scalar hv.isScalar)
    (Store.acyclic_of_scalar hv'.isScalar)).1 h
  cases hrefuses with
  | unordered => exact Or.inl rfl
  | noByte => exact hv.elim
  | unwritten hout => exact hv'.output_ofPlain hout
  | tooLong _ hlong =>
    refine Failure.ofPlain_of_range ?_ rfl
    rcases hlong with ⟨-, -, hlong⟩ | ⟨-, -, hlong⟩
    · exact huncounted hv' hlong
    · exact huncounted hv hlong

-- ============================================================== values

/-- An item of a range is an integer, or nil outside of it. -/
theorem Value.Spelled.item {v : Value} (hv : v.Spelled ranges ranges)
    (index : Int) : (store.item v index).Plain ranges := by
  have hnil : Value.nil.Plain ranges := ⟨trivial, fun _ h => by cases h⟩
  cases v with
  | bytes | object => exact hv.elim
  | range first stop =>
    simp only [Store.item]
    split
    · exact ⟨Or.inl hv, fun _ h => by cases h⟩
    · exact hnil
  | _ =>
    simp only [Store.item]
    split
    · exact hnil
    · exact hnil

/-- What can be counted can be written. -/
theorem isWritable_of_le_maxLength {n : Nat} (h : (n : Int) ≤ maxLength) :
    Numeral.isWritable n = true := by
  rw [Numeral.isWritable_iff, Int.natAbs_natCast]
  have hbound : (maxLength.toNat : Nat) < 10 ^ 20 := by decide
  calc n ≤ maxLength.toNat := by omega
    _ < 10 ^ 20 := hbound
    _ ≤ 10 ^ Numeral.maxDigits := Nat.pow_le_pow_right (by decide) (by decide)

/-- The size of a plain value is plain. -/
theorem Value.Plain.sizeOf {v : Value} (hv : v.Plain ranges) :
    Admits (Value.Plain ranges) (Failure.OfPlain ranges long)
      (store.sizeOf v) := by
  have hdatum : store.datum v = .atom v :=
    Store.datum_of_scalar hv.spelled.isScalar
  unfold Store.sizeOf
  rw [hdatum]
  cases hlength : (Datum.atom v).length? with
  | error f => exact .error (hv.spelled.length?_ofPlain hlength)
  | ok n =>
    refine .ok ⟨?_, nofun⟩
    cases v with
    | text s =>
      cases hlength
      exact Or.inr (isWritable_of_le_maxLength (hv.counted s rfl))
    | range => exact Or.inl hv.spelled
    | bytes | object => exact hv.spelled.elim
    | _ =>
      cases hlength
      exact Or.inr (by decide)

/-- What a plain value answers to a command is plain, and no object is
made for it. -/
theorem Value.Plain.command? {v : Value} (hv : v.Plain ranges)
    {command : Command} {answer : Except Failure Value} {store' : Store}
    (h : store.command? v command = some (answer, store')) :
    store' = store ∧
      Admits (Value.Plain ranges) (Failure.OfPlain ranges long) answer := by
  have hfirst : store.firstOf v = (store.item v 0, store) := by
    cases v with
    | object => exact hv.spelled.elim
    | _ => rfl
  unfold Store.command? at h
  split at h
  · cases command with
    | size =>
      cases h
      exact ⟨rfl, hv.sizeOf⟩
    | first =>
      simp only [hfirst] at h
      cases h
      exact ⟨rfl, .ok (hv.spelled.item 0)⟩
    | last =>
      cases h
      exact ⟨rfl, .ok (hv.spelled.item (-1))⟩
  · cases h

/-- What a table of a plain context holds under a name is plain. -/
theorem Store.exists_fetch {layer name : Value}
    {entries : List (Value × Value)}
    (ho : store.object? layer = some (.table entries))
    (hkey : store.hasKey layer name = true) :
    ∃ e ∈ entries, store.fetch layer name = .ok e.2 := by
  obtain ⟨i, rfl, hget⟩ := object?_eq_some.1 ho
  have hentry := hkey
  rw [hasKey_table hget, Bool.and_eq_true,
    Option.isSome_iff_exists] at hentry
  obtain ⟨-, x, hx⟩ := hentry
  obtain ⟨e, he, rfl⟩ := Option.map_eq_some_iff.1 hx
  exact ⟨e, List.mem_of_find?_eq_some he, fetch_table hget hkey hx⟩

end

-- ========================================================== evaluation

/-- A plain context stays plain, and evaluation fails as it may. -/
def Conduct.plain (ranges long : Prop) (ctx : ContextId) :
    Conduct World where
  holds := World.Plain ranges ctx
  later _ _ := True
  fails := Failure.OfPlain ranges long
  refl _ := trivial
  trans _ _ := trivial

namespace Eval

variable {ranges long : Prop} {ctx : ContextId} {reenter : Reenter}
  {w : World}

/-- From a world on, an action behaves in a plain context and answers with
a plain value. -/
abbrev BehavesPlain (ranges long : Prop) (ctx : ContextId) (x : Eval Value)
    (w : World) : Prop :=
  Behaves (.plain ranges long ctx) (fun _ v => v.Plain ranges) x w

/-- The same of a value that may not be there. -/
abbrev BehavesPlain? (ranges long : Prop) (ctx : ContextId)
    (x : Eval (Option Value)) (w : World) : Prop :=
  Behaves (.plain ranges long ctx) (fun _ r => ∀ v ∈ r, v.Plain ranges) x w

theorem plain_note (message : Store → Except Failure String) :
    Behaves (.plain ranges long ctx) Anything (note message) w :=
  .modify fun hw => ⟨trivial, hw, trivial⟩

/-- A scalar is received as it is. -/
theorem receive_of_scalar {v : Value} (hv : v.IsScalar) :
    receive reenter ctx v w = (.ok v, w) := by
  cases v with
  | object i => exact absurd rfl (hv i)
  | _ => rfl

theorem plain_receive {v : Value} (hv : v.Plain ranges) :
    BehavesPlain ranges long ctx (receive reenter ctx v) w := by
  unfold BehavesPlain Behaves
  rw [receive_of_scalar hv.spelled.isScalar]
  exact fun hw => ⟨trivial, hw, .ok hv⟩

/-- A part that is plain is nothing to be forced. -/
theorem plain_forcedPart {v key x : Value} (hdrop : w.store.drop? v = none)
    (hfetch : w.store.fetch v key = .ok x) (hx : x.Plain ranges) :
    BehavesPlain ranges long ctx (forcedPart reenter ctx v key) w := by
  have hpart : Behaves (.plain ranges long ctx) (fun _ y => y = x)
      (part reenter v key) w := by
    refine .store_bind ?_
    rw [hdrop, hfetch]
    exact .ofExcept (.ok rfl)
  refine .bind hpart fun y t _ hy => ?_
  subst hy
  have hdeferred : t.store.deferred? y = none := by
    cases y with
    | object => exact hx.spelled.elim
    | _ => rfl
  refine .store_bind ?_
  rw [hdeferred]
  exact .pure hx

/-- A name that is in no layer is reported, or stands for nil. -/
theorem plain_findVariable {name : Value}
    (hname : name.Spelled ranges ranges) :
    BehavesPlain ranges long ctx (findVariable reenter ctx name) w := by
  refine .get_bind (.assume fun hw => ?_)
  cases hfind : (w.context ctx).layers.find? fun v =>
      w.store.hasKey v name with
  | some layer =>
    have hkey := List.find?_some hfind
    obtain ⟨entries, ho, hplain⟩ := hw layer (List.mem_of_find?_eq_some hfind)
    obtain ⟨e, he, hfetch⟩ := Store.exists_fetch ho hkey
    have hdrop : w.store.drop? layer = none := by
      simp only [Store.drop?, ho]
    refine .bind (plain_forcedPart hdrop hfetch (hplain e he))
      fun v t _ hv => ?_
    exact .bind (plain_note _) fun _ _ _ _ => plain_receive hv
  | none =>
    refine .bind (plain_note _) fun _ t _ _ => ?_
    split
    · exact .refuse (fun _ h => hname.print_ofPlain h) fun _ => Or.inl rfl
    · exact .pure ⟨trivial, fun _ h => by cases h⟩

/-- A step from a plain value leads to a plain one. Only a range has
parts, and its positions are taken only by integers. -/
theorem plain_stepFrom (whole : Path) {v key : Value}
    (hv : v.Plain ranges) (hkey : key.Spelled ranges ranges)
    (command : Option Command) :
    BehavesPlain? ranges long ctx
      (stepFrom reenter ctx whole v key command) w := by
  refine .store_bind ?_
  dsimp only
  split
  · next haccess =>
    have hfetch : ∃ n, w.store.fetch v key = .ok (w.store.item v n) := by
      cases v with
      | range first stop =>
        cases key with
        | int n => exact ⟨n, rfl⟩
        | _ => cases haccess
      | bytes | object => exact hv.spelled.elim
      | _ => cases haccess
    have hdrop : w.store.drop? v = none := by
      cases v with
      | object => exact hv.spelled.elim
      | _ => rfl
    obtain ⟨n, hfetch⟩ := hfetch
    refine .bind (plain_forcedPart hdrop hfetch (hv.spelled.item n))
      fun x t _ hx => ?_
    refine .bind (plain_receive hx) fun y u _ hy => ?_
    exact .pure fun z hz => Option.some.inj hz ▸ hy
  · split
    · next answer store' hcommand =>
      obtain ⟨c, -, hcommand⟩ := Option.bind_eq_some_iff.1 hcommand
      obtain ⟨rfl, hanswer⟩ := hv.command? hcommand
      refine .bind (.modify fun hw => ⟨trivial, hw, trivial⟩)
        fun _ t _ (_ : Anything t ()) => ?_
      refine .bind (.ofExcept (Q := fun _ v => v.Plain ranges) hanswer)
        fun x u _ hx => ?_
      refine .bind (plain_receive hx) fun y _ _ hy => ?_
      exact .pure fun z hz => Option.some.inj hz ▸ hy
    · refine .bind (plain_note _) fun _ t _ _ => .get_bind ?_
      split
      · exact .refuse (fun _ h => hkey.print_ofPlain h) fun _ => Or.inl rfl
      · exact .pure fun z hz => by cases hz

mutual

/-- An expression that could be spelled has a plain value. -/
theorem plain_expr : ∀ {e : Expr}, e.Spelled ranges ranges → ∀ w,
    Behaves (.plain ranges long ctx) (fun _ v => v.Spelled ranges ranges)
      (expr reenter ctx e) w
  | .const _, hv, _ => .pure hv
  | .path p, hp, w => by
    refine .bind (plain_path _ hp w) fun r t _ hr => ?_
    split
    · next v =>
      exact .bind (plain_note _) fun _ _ _ _ => .pure (hr v rfl).spelled
    · exact .pure trivial
  | .range first last, ⟨hranges, hfirst, hlast⟩, w => by
    have hinteger {v : Value} {t : World} :
        Behaves (.plain ranges long ctx) Anything
          (ofExcept (v.toInteger t.store.display)) t := by
      cases hout : v.toInteger t.store.display with
      | ok n => exact .pure trivial
      | error f =>
        exact .throw (Failure.ofPlain_of_isNumeric hranges
          (Value.isNumeric_of_toInteger t.store.shows_display hout))
    refine .bind (plain_expr hfirst w) fun a t _ _ => .store_bind ?_
    refine .bind hinteger fun m t _ _ => ?_
    refine .bind (plain_expr hlast t) fun b t _ _ => .store_bind ?_
    refine .bind hinteger fun n t _ _ => ?_
    exact .pure hranges

/-- A path of plain keys comes to a plain value, or to none. -/
theorem plain_path (whole : Path) :
    ∀ {p : Path}, p.Spelled ranges ranges → ∀ w,
      BehavesPlain? ranges long ctx (path reenter ctx whole p) w
  | .root name, hname, w => by
    refine .bind (plain_expr hname w) fun key t _ hkey => ?_
    refine .bind (plain_findVariable hkey) fun v u _ hv => ?_
    exact .pure fun z hz => Option.some.inj hz ▸ hv
  | .step p key command, ⟨hp, hkey⟩, w => by
    refine .bind (plain_path whole hp w) fun r t _ hr => ?_
    split
    · exact .pure fun z hz => by cases hz
    · next v =>
      refine .bind (plain_expr hkey t) fun k u _ hk => ?_
      exact plain_stepFrom whole (hr v rfl) hk command

end

end Eval

/-- Operands that could be spelled evaluate, in a plain context, to plain
values. -/
theorem evaluates_plain (ranges long : Prop) (ctx : ContextId) :
    Evaluates (.plain ranges long ctx) ctx (Expr.Spelled ranges ranges)
      fun _ v => v.Spelled ranges ranges where
  note _ message := Eval.plain_note message
  operand w _ he := Eval.plain_expr he w
  stays _ hv := hv
  operator _ hv hv' h := Operator.ofPlain_of_apply hv hv' h
  output _ hv h := hv.output_ofPlain h

end Stencil
