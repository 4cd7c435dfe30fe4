/-
Reading an operand from its parts, and when that fails.

The lenient grammar takes an operand for what its form says, and goes back
to reading only for the bounds of a range and for what stands in the
bracket groups of a path. Each of these parts is shorter than the markup
it stands in, so reading comes to an end, whatever the markup.

It comes to an answer, too, but for two things. An integer may have too
many digits. And a range whose bounds are both known is made into a value at
once, and that takes integers. Truth values, the words `empty` and `blank`,
ranges, decimals beyond the floats, and texts that start with too many
digits are none. Where the reading of a markup reaches such an integer or a
range with such a bound, it fails over it; where it reaches none, it
answers: with the value that is written out, with a range, or with a path
for everything else.
-/
import Stencil.Proofs.Expr.Numeric
import Stencil.Proofs.Markup.Writing
import Stencil.Proofs.Number.Numeral

namespace Stencil

open Text

-- =============================================================== parts

/-- What stands in a segment, if it is a bracket group. -/
def Segment.inner? : Segment → Option (List Char)
  | .word _ => none
  | .group inner => some inner

namespace Expr

namespace Form

/-- The parts of an operand that are operands themselves. -/
def parts : Form → List (List Char)
  | .integer _ | .value _ => []
  | .range first last => [first, last]
  | .path segments => segments.filterMap Segment.inner?

/-- What an operand of a form is read as, given how its parts are read. -/
def read (inside : List Char → Except Failure Expr) :
    Form → Except Failure Expr
  | .integer digits => readInteger digits
  | .value v => .ok (.const v)
  | .range first last => do
    let first ← inside first
    let last ← inside last
    Expr.between Value.shown first last
  | .path segments => do
    let exprs ← segments.mapM (ofSegment inside)
    return .path (pathOf (segments.zip exprs))

/-- What an operand of a form may be read as. -/
def Answers : Form → Expr → Prop
  | .integer digits, e =>
    ∃ n, Numeral.integer? digits = some n ∧ e = .const (.int n)
  | .value v, e => e = .const v
  | .range _ _, e =>
    (∃ first stop, e = .const (.range first stop)) ∨
      ∃ first last, e = .range first last
  | .path _, e => ∃ p, e = .path p

/-- The parts of a path are what its bracket groups hold. -/
theorem mem_parts_path {segments : List Segment} {part : List Char} :
    part ∈ (Form.path segments).parts ↔ .group part ∈ segments := by
  rw [parts, List.mem_filterMap]
  constructor
  · rintro ⟨segment, hsegment, hinner⟩
    cases segment with
    | word w => cases hinner
    | group inner =>
      cases hinner
      exact hsegment
  · exact fun h => ⟨.group part, h, rfl⟩

/-- Each part is shorter than the markup. -/
theorem length_lt_of_mem_parts {markup part : List Char}
    (h : part ∈ (Form.of markup).parts) : part.length < markup.length := by
  cases hform : Form.of markup with
  | integer | value =>
    rw [hform] at h
    cases h
  | range first last =>
    rw [hform] at h
    obtain ⟨hfirst, hlast⟩ := length_bounds_lt hform
    simp only [parts, List.mem_cons, List.not_mem_nil, or_false] at h
    rcases h with rfl | rfl
    · exact hfirst
    · exact hlast
  | path segments =>
    rw [hform] at h
    exact length_group_lt hform (mem_parts_path.1 h)

/-- How a form is read depends on nothing but how its parts are read. -/
theorem read_congr {form : Form} {f g : List Char → Except Failure Expr}
    (h : ∀ part ∈ form.parts, f part = g part) : form.read f = form.read g := by
  cases form with
  | integer | value => rfl
  | range first last =>
    rw [read, h first (by simp [parts]), h last (by simp [parts])]
    rfl
  | path segments =>
    have hsegments : segments.mapM (ofSegment f) =
        segments.mapM (ofSegment g) := by
      refine mapM_congr fun s hs => ?_
      cases s with
      | word w => rfl
      | group inner => exact h inner (mem_parts_path.2 hs)
    rw [read, hsegments]
    rfl

end Form

/-- An operand is read by its form, and its parts are read alike. -/
theorem parseChars_eq_read (markup : List Char) :
    parseChars markup = (Form.of markup).read parseChars := by
  rw [parseChars_eq]
  cases Form.of markup <;> rfl

/-- What the reading of a markup goes back to, step by step: the markup, its
parts, their parts, and so on. -/
inductive Reaches : List Char → List Char → Prop
  | refl (markup : List Char) : Reaches markup markup
  | inside {markup part inner : List Char} :
      part ∈ (Form.of markup).parts → Reaches part inner →
      Reaches markup inner

end Expr

-- ============================================================== bounds

/-- Whether a text starts with an integer of too many digits. -/
def startsOverlong (cs : List Char) : Bool :=
  (leadingInteger? cs).any fun start =>
    Numeral.maxDigits < start.countP isDigit

/-- Whether a value counts as no integer, so that no range has it as a
bound. -/
def Value.isNoInteger : Value → Bool
  | .bool _ | .probe _ | .range _ _ | .bytes _ | .object _ => true
  | .text s => startsOverlong s.toList
  | .float x =>
    match x with
    | .finite .. => false
    | _ => true
  | _ => false

/-- What a text without blanks starts with, if it starts like an integer:
perhaps a sign, and digits. -/
theorem of_leadingInteger? {cs start : List Char} (h : IsUnbroken cs)
    (hstart : leadingInteger? cs = some start) :
    ∃ mark digits, start = mark ++ digits ∧
      ((mark = [] ∨ mark = ['-']) ∨ mark = ['+']) ∧
      Numeral.isDigits digits = true := by
  have hblanks : cs.takeWhile isBlank = [] ∧ cs.dropWhile isBlank = cs := by
    cases cs with
    | nil => exact ⟨rfl, rfl⟩
    | cons c cs =>
      have hc : isBlank c = false := (Bool.or_eq_false_iff.1 h).1
      simp [hc]
  have hsigned : ∀ mark row : List Char,
      ((mark = [] ∨ mark = ['-']) ∨ mark = ['+']) →
      (if (row.takeWhile isDigit).isEmpty = true then none
        else some ([] ++ mark ++ row.takeWhile isDigit)) = some start →
      ∃ mark digits, start = mark ++ digits ∧
        ((mark = [] ∨ mark = ['-']) ∨ mark = ['+']) ∧
        Numeral.isDigits digits = true := by
    intro mark row hmark hrow
    split at hrow
    · cases hrow
    · next hdigits =>
      refine ⟨mark, _, (Option.some.inj hrow).symm, hmark, ?_⟩
      rw [Numeral.isDigits, List.all_takeWhile, Bool.and_true,
        Bool.not_eq_true']
      simpa using hdigits
  unfold leadingInteger? at hstart
  rw [hblanks.1, hblanks.2] at hstart
  dsimp only at hstart
  split at hstart
  · refine hsigned _ _ ?_ hstart
    split
    · next hc =>
      simp only [Bool.or_eq_true, beq_iff_eq] at hc
      rcases hc with rfl | rfl
      · exact Or.inl (Or.inr rfl)
      · exact Or.inr rfl
    · exact Or.inl (Or.inl rfl)
  · exact hsigned _ _ (Or.inl (Or.inl rfl)) hstart

/-- A text without blanks is read as an integer up to where it stops being
one, unless these are too many digits. -/
theorem integerOfText_cases {cs : List Char} (h : IsUnbroken cs) :
    (startsOverlong cs = false ∧ ∃ n, integerOfText cs = .ok n) ∨
      (startsOverlong cs = true ∧
        ∃ start, integerOfText cs = .error (.unreadableInteger start)) := by
  cases hstart : leadingInteger? cs with
  | none =>
    simp only [startsOverlong, integerOfText, hstart]
    exact Or.inl ⟨rfl, 0, rfl⟩
  | some start =>
    obtain ⟨mark, digits, rfl, hmark, hdigits⟩ := of_leadingInteger? h hstart
    have hcount : (mark ++ digits).countP isDigit = digits.length := by
      have hall := (Bool.and_eq_true_iff.1 hdigits).2
      rw [List.countP_append, List.countP_eq_length.2
        (List.all_eq_true.1 hall)]
      rcases hmark with (rfl | rfl) | rfl
      · exact Nat.zero_add _
      · exact Nat.zero_add _
      · exact Nat.zero_add _
    have hread : ∃ n, Numeral.integer? (mark ++ digits) =
        if digits.length ≤ Numeral.maxDigits then some n else none := by
      rcases hmark with hmark | rfl
      · exact ⟨_, integer?_of_isDigits hmark hdigits⟩
      · exact ⟨_, integer?_of_plus hdigits⟩
    obtain ⟨n, hn⟩ := hread
    simp only [startsOverlong, integerOfText, hstart, Option.any_some, hcount,
      hn, decide_eq_true_eq, decide_eq_false_iff_not]
    by_cases hlength : digits.length ≤ Numeral.maxDigits
    · rw [if_pos hlength]
      exact Or.inl ⟨Nat.not_lt_of_le hlength, n, rfl⟩
    · rw [if_neg hlength]
      exact Or.inr ⟨Nat.lt_of_not_le hlength, _, rfl⟩

/-- A value that can be written as a bound: its text has no blanks, and it
is a number if it is a float. -/
def Value.IsBound : Value → Prop
  | .text s => IsUnbroken s.toList
  | .float x => x ≠ .nan
  | _ => True

/-- A bound can fail in any way that is about a number, but for what is no
number, which is not written. -/
def Failure.IsOfBound (f : Failure) : Prop :=
  f.isNumeric = true ∧ f ≠ .missingInteger

section

variable {display : Value → Except Failure String}

/-- Values that count as no integer, and only these, fail as bounds. -/
theorem Value.toInteger_cases (hdisplay : Shows display) {v : Value}
    (h : v.IsBound) :
    (v.isNoInteger = false ∧ ∃ n, v.toInteger display = .ok n) ∨
      (v.isNoInteger = true ∧
        ∃ f, v.toInteger display = .error f ∧ f.IsOfBound) := by
  have hshown (v : Value) : ∃ f,
      (do throw (.notAnInteger (← display v)) : Except Failure Int) =
        .error f ∧ f.IsOfBound := by
    cases hshow : display v with
    | ok shown => exact ⟨_, rfl, rfl, nofun⟩
    | error f =>
      obtain rfl := hdisplay _ _ hshow
      exact ⟨_, rfl, rfl, nofun⟩
  cases v with
  | nil => exact Or.inl ⟨rfl, 0, rfl⟩
  | int n => exact Or.inl ⟨rfl, n, rfl⟩
  | text s =>
    exact (integerOfText_cases h).imp id
      fun ⟨hlong, start, hf⟩ => ⟨hlong, _, hf, rfl, nofun⟩
  | float x =>
    cases x with
    | nan => exact absurd rfl h
    | infinity => exact Or.inr ⟨rfl, _, rfl, rfl, nofun⟩
    | finite => exact Or.inl ⟨rfl, _, rfl⟩
  | _ => exact Or.inr ⟨rfl, hshown _⟩

/-- Two bounds make a range unless one of them counts as no integer. -/
theorem Value.rangeBetween_cases (hdisplay : Shows display) {v w : Value}
    (hv : v.IsBound) (hw : w.IsBound) :
    ((v.isNoInteger || w.isNoInteger) = false ∧
        ∃ first stop, v.rangeBetween display w = .ok (.range first stop)) ∨
      ((v.isNoInteger || w.isNoInteger) = true ∧
        ∃ f, v.rangeBetween display w = .error f ∧ f.IsOfBound) := by
  rcases toInteger_cases hdisplay hv with ⟨hno, m, hm⟩ | ⟨hno, f, hf, hkind⟩
  · rcases toInteger_cases hdisplay hw with
      ⟨hno', n, hn⟩ | ⟨hno', f, hf, hkind⟩
    · refine Or.inl ⟨by simp [hno, hno'], m, n + 1, ?_⟩
      rw [rangeBetween, hm, hn]
      rfl
    · refine Or.inr ⟨by simp [hno'], f, ?_, hkind⟩
      rw [rangeBetween, hm, hf]
      rfl
  · refine Or.inr ⟨by simp [hno], f, ?_, hkind⟩
    rw [rangeBetween, hf]
    rfl

end

namespace Expr

/-- A decimal is a number. -/
theorem decimal?_ne_nan (cs : List Char) :
    decimal? cs ≠ some (.float .nan) := by
  intro h
  simp only [decimal?] at h
  split at h
  · next part hpart =>
    split at h
    · next hdigits =>
      obtain ⟨hwhole, hfraction⟩ := Bool.and_eq_true_iff.1 hdigits
      obtain ⟨minus, hminus, hcs⟩ := exists_minus cs
      obtain ⟨x, hx, hne⟩ := exists_float? hminus hwhole hfraction
      rw [List.append_assoc, ← hpart, List.takeWhile_append_dropWhile, ← hcs]
        at hx
      rw [hx] at h
      cases h
      exact hne rfl
    · cases h
  · cases h

/-- A second bound is found without blanks in it. -/
theorem isUnbroken_of_lastBound? {cs last : List Char}
    (h : lastBound? cs = some last) : IsUnbroken last := by
  simp only [lastBound?] at h
  split at h
  · cases h
  · next hbound =>
    cases h
    simp only [Bool.or_eq_true, not_or, Bool.not_eq_true] at hbound
    exact hbound.2

/-- The bounds are found without blanks in them, if the first one is looked
for where there are none. -/
theorem isUnbroken_of_splitBounds? {after cs : List Char}
    {r : List Char × List Char} (h : splitBounds? after cs = some r)
    (hcs : IsUnbroken cs) : IsUnbroken r.1 ∧ IsUnbroken r.2 := by
  induction cs generalizing r with
  | nil =>
    simp only [splitBounds?] at h
    split at h
    · obtain ⟨last, hlast, rfl⟩ := Option.map_eq_some_iff.1 h
      exact ⟨rfl, isUnbroken_of_lastBound? hlast⟩
    · cases h
  | cons c rest ih =>
    obtain ⟨hc, hrest⟩ := Bool.or_eq_false_iff.1 hcs
    simp only [splitBounds?] at h
    split at h
    · next last hlast =>
      cases h
      refine ⟨rfl, ?_⟩
      split at hlast
      · exact isUnbroken_of_lastBound? hlast
      · cases hlast
    · obtain ⟨r', hr, rfl⟩ := Option.map_eq_some_iff.1 h
      obtain ⟨hfirst, hlast⟩ := ih hr hrest
      exact ⟨Bool.or_eq_false_iff.2 ⟨hc, hfirst⟩, hlast⟩

/-- The bounds that the markup of a range is found to have hold no
blanks. -/
theorem isUnbroken_of_range {markup first last : List Char}
    (h : Form.of markup = .range first last) :
    IsUnbroken first ∧ IsUnbroken last := by
  have hbounds := bounds?_of_range h
  unfold bounds? at hbounds
  split at hbounds
  · split at hbounds
    · simp only [boundsWithin?] at hbounds
      split at hbounds
      · next c rest hrun =>
        obtain ⟨r, hr, heq⟩ := Option.map_eq_some_iff.1 hbounds
        obtain ⟨rfl, rfl⟩ := Prod.mk.inj heq
        have hall : ∀ d ∈ c :: rest, isBlank d = false := by
          intro d hd
          rw [← hrun] at hd
          simpa using List.all_eq_true.1 List.all_takeWhile d hd
        have hrest : IsUnbroken rest := List.any_eq_false.2 fun d hd => by
          simpa using hall d (List.mem_cons_of_mem _ hd)
        obtain ⟨hfirst, hlast⟩ := isUnbroken_of_splitBounds? hr hrest
        exact ⟨Bool.or_eq_false_iff.2
          ⟨hall c (List.mem_cons_self ..), hfirst⟩, hlast⟩
      · cases hbounds
    · cases hbounds
  · cases hbounds

/-- What is written in quotes without blanks has none. -/
theorem isUnbroken_of_unquote? {cs inner : List Char} (h : IsUnbroken cs)
    (hinner : unquote? cs = some inner) : IsUnbroken inner := by
  unfold unquote? at hinner
  split at hinner
  · next q rest =>
    split at hinner
    · cases hinner
      refine List.any_eq_false.2 fun c hc => ?_
      exact List.any_eq_false.1 h c
        (List.mem_cons_of_mem q (List.dropLast_subset rest hc))
    · cases hinner
  · cases hinner

/-- The literal words denote no texts and no floats. -/
theorem isBound_of_literal? {word : String} {v : Value}
    (h : literal? word = some v) : v.IsBound := by
  have hwords : ∀ e ∈ literalWords, e.2.IsBound := by
    simp [literalWords, Value.IsBound]
  obtain ⟨before, after, hsplit, -⟩ := List.lookup_eq_some_iff.1 h
  refine hwords (word, v) ?_
  rw [hsplit]
  exact List.mem_append_right _ (List.mem_cons_self ..)

/-- A constant that is read from markup without blanks can be a bound. -/
theorem isBound_of_const {markup : List Char} {v : Value}
    (hunbroken : IsUnbroken markup) (h : parseChars markup = .ok (.const v)) :
    v.IsBound := by
  have htrim : IsUnbroken (trim markup) := List.any_eq_false.2
    fun c hc => List.any_eq_false.1 hunbroken c ((infix_trim _).subset hc)
  rw [parseChars_eq_read] at h
  cases hform : Form.of markup with
  | integer digits =>
    rw [hform] at h
    obtain ⟨n, heq, -⟩ := exists_int_of_readInteger h
    cases heq
    trivial
  | value w =>
    rw [hform] at h
    cases h
    rcases Form.value_cases hform with rfl | ⟨inner, hinner, rfl⟩ |
      ⟨x, hdec, rfl⟩ | hword
    · trivial
    · show IsUnbroken (String.ofList inner).toList
      rw [String.toList_ofList]
      exact isUnbroken_of_unquote? htrim hinner
    · rintro rfl
      exact decimal?_ne_nan _ hdec
    · exact isBound_of_literal? hword
  | range first last =>
    rw [hform] at h
    obtain ⟨a, -, h⟩ := outcome_bind_eq_ok.1 h
    obtain ⟨b, -, h⟩ := outcome_bind_eq_ok.1 h
    rcases between_cases h with ⟨m, n, heq⟩ | heq
    · cases heq
      trivial
    · cases heq
  | path segments =>
    rw [hform] at h
    obtain ⟨exprs, -, h⟩ := outcome_bind_eq_ok.1 h
    cases h

-- ============================================================== outcome

/-- What blocks a markup: it is an integer of too many digits, or a range
whose bounds are both known and of which one counts as no integer. -/
inductive Blocked (markup : List Char) : Prop
  | integer {digits : List Char} (hform : Form.of markup = .integer digits)
      (hlong : Numeral.Overlong digits) : Blocked markup
  | range {first last : List Char} {v w : Value}
      (hform : Form.of markup = .range first last)
      (hfirst : parseChars first = .ok (.const v))
      (hlast : parseChars last = .ok (.const w))
      (hno : (v.isNoInteger || w.isNoInteger) = true) : Blocked markup

/-- A range blocks if both of its bounds are read as constants and one of
these counts as no integer. -/
theorem blocked_range_iff {markup first last : List Char} {a b : Expr}
    (hform : Form.of markup = .range first last)
    (ha : parseChars first = .ok a) (hb : parseChars last = .ok b) :
    Blocked markup ↔ ∃ v w, a = .const v ∧ b = .const w ∧
      (v.isNoInteger || w.isNoInteger) = true := by
  constructor
  · rintro (⟨hform', -⟩ | ⟨hform', hv, hw, hno⟩)
    · cases hform.symm.trans hform'
    · obtain ⟨rfl, rfl⟩ := Form.range.inj (hform.symm.trans hform')
      exact ⟨_, _, Except.ok.inj (ha.symm.trans hv),
        Except.ok.inj (hb.symm.trans hw), hno⟩
  · rintro ⟨v, w, rfl, rfl, hno⟩
    exact .range hform ha hb hno

/-- An integer is read unless it blocks. -/
theorem readInteger_cases {markup digits : List Char}
    (hform : Form.of markup = .integer digits) :
    (¬Blocked markup ∧ ∃ n, Numeral.integer? digits = some n ∧
        readInteger digits = .ok (.const (.int n))) ∨
      (Blocked markup ∧ ∃ f, readInteger digits = .error f ∧ f.IsOfBound) := by
  obtain ⟨-, hinteger⟩ := Form.eq_of_integer hform
  rcases readInteger_of_isInteger hinteger with
    ⟨hshort, n, hn, hread⟩ | ⟨hlong, hf⟩
  · refine Or.inl ⟨?_, n, hn, hread⟩
    rintro (⟨hform', hlong⟩ | ⟨hform', -⟩)
    · cases hform.symm.trans hform'
      exact hshort hlong
    · cases hform.symm.trans hform'
  · exact Or.inr ⟨.integer hform hlong, _, hf, rfl, nofun⟩

/-- Bounds that are both known and integers, or not both known, make a
range. Others block it. -/
theorem between_of_bounds {markup first last : List Char} {a b : Expr}
    (hform : Form.of markup = .range first last)
    (ha : parseChars first = .ok a) (hb : parseChars last = .ok b) :
    (¬Blocked markup ∧ ∃ e, Expr.between Value.shown a b = .ok e) ∨
      (Blocked markup ∧
        ∃ f, Expr.between Value.shown a b = .error f ∧ f.IsOfBound) := by
  obtain ⟨hfirst, hlast⟩ := isUnbroken_of_range hform
  have hblocked := blocked_range_iff hform ha hb
  by_cases hconst : ∃ v w, a = .const v ∧ b = .const w
  · obtain ⟨v, w, rfl, rfl⟩ := hconst
    rcases Value.rangeBetween_cases Value.shows_shown
      (isBound_of_const hfirst ha) (isBound_of_const hlast hb) with
        ⟨hyes, m, n, hrange⟩ | ⟨hno, f, hrange, hkind⟩
    · refine Or.inl ⟨fun hno => ?_, .const (.range m n), ?_⟩
      · obtain ⟨v', w', hv, hw, hno⟩ := hblocked.1 hno
        cases hv
        cases hw
        rw [hyes] at hno
        cases hno
      · rw [between, hrange]
        rfl
    · refine Or.inr ⟨hblocked.2 ⟨v, w, rfl, rfl, hno⟩, f, ?_, hkind⟩
      rw [between, hrange]
      rfl
  · refine Or.inl ⟨fun hno => ?_, ?_⟩
    · obtain ⟨v, w, hv, hw, -⟩ := hblocked.1 hno
      exact hconst ⟨v, w, hv, hw⟩
    · unfold between
      split
      · exact absurd ⟨_, _, rfl, rfl⟩ hconst
      · exact ⟨_, rfl⟩

/-- Only integers and ranges block. -/
theorem not_blocked {markup : List Char}
    (hinteger : ∀ digits, Form.of markup ≠ .integer digits)
    (hrange : ∀ first last, Form.of markup ≠ .range first last) :
    ¬Blocked markup := by
  rintro (⟨hform, -⟩ | ⟨hform, -⟩)
  · exact hinteger _ hform
  · exact hrange _ _ hform

/-- A markup is read when its parts are and it is not blocked, and then as
its form says. -/
theorem of_parseChars_eq_ok {markup : List Char} {e : Expr}
    (h : parseChars markup = .ok e) :
    (∀ part ∈ (Form.of markup).parts, ∃ d, parseChars part = .ok d) ∧
      ¬Blocked markup ∧ (Form.of markup).Answers e := by
  rw [parseChars_eq_read] at h
  cases hform : Form.of markup with
  | integer digits =>
    rw [hform] at h
    rcases readInteger_cases hform with ⟨hnot, n, hn, hread⟩ | ⟨-, f, hf, -⟩
    · cases hread.symm.trans h
      exact ⟨fun part hpart => (List.not_mem_nil hpart).elim, hnot, n, hn,
        rfl⟩
    · cases hf.symm.trans h
  | value v =>
    rw [hform] at h
    cases h
    exact ⟨fun part hpart => (List.not_mem_nil hpart).elim,
      not_blocked (by simp [hform]) (by simp [hform]), rfl⟩
  | range first last =>
    rw [hform] at h
    obtain ⟨a, ha, h⟩ := outcome_bind_eq_ok.1 h
    obtain ⟨b, hb, h⟩ := outcome_bind_eq_ok.1 h
    refine ⟨?_, ?_, ?_⟩
    · exact List.forall_mem_cons.2 ⟨⟨a, ha⟩,
        List.forall_mem_singleton.2 ⟨b, hb⟩⟩
    · rcases between_of_bounds hform ha hb with ⟨hnot, -⟩ | ⟨-, f, hf, -⟩
      · exact hnot
      · cases h.symm.trans hf
    · rcases between_cases h with hknown | rfl
      · exact Or.inl hknown
      · exact Or.inr ⟨a, b, rfl⟩
  | path segments =>
    rw [hform] at h
    obtain ⟨exprs, hexprs, h⟩ := outcome_bind_eq_ok.1 h
    cases h
    exact ⟨fun part hpart =>
        exists_of_mapM_eq_ok hexprs _ (Form.mem_parts_path.1 hpart),
      not_blocked (by simp [hform]) (by simp [hform]), _, rfl⟩

/-- A markup fails over a part, or because it is blocked. -/
theorem of_parseChars_eq_error {markup : List Char} {f : Failure}
    (h : parseChars markup = .error f) :
    (∃ part ∈ (Form.of markup).parts, parseChars part = .error f) ∨
      (Blocked markup ∧ f.IsOfBound) := by
  rw [parseChars_eq_read] at h
  cases hform : Form.of markup with
  | integer digits =>
    rw [hform] at h
    rcases readInteger_cases hform with
      ⟨-, n, -, hread⟩ | ⟨hblocked, f', hf, hkind⟩
    · cases hread.symm.trans h
    · cases hf.symm.trans h
      exact Or.inr ⟨hblocked, hkind⟩
  | value v =>
    rw [hform] at h
    cases h
  | range first last =>
    rw [hform] at h
    rcases outcome_bind_eq_error.1 h with h | ⟨a, ha, h⟩
    · exact Or.inl ⟨first, by simp [Form.parts], h⟩
    · rcases outcome_bind_eq_error.1 h with h | ⟨b, hb, h⟩
      · exact Or.inl ⟨last, by simp [Form.parts], h⟩
      · rcases between_of_bounds hform ha hb with ⟨-, e, he⟩ |
          ⟨hblocked, f', hf, hkind⟩
        · cases h.symm.trans he
        · cases h.symm.trans hf
          exact Or.inr ⟨hblocked, hkind⟩
  | path segments =>
    rw [hform] at h
    rcases outcome_bind_eq_error.1 h with h | ⟨exprs, -, h⟩
    · obtain ⟨segment, hsegment, hread⟩ := exists_of_mapM_eq_error h
      cases segment with
      | word w => cases hread
      | group inner =>
        exact Or.inl ⟨inner, Form.mem_parts_path.2 hsegment, hread⟩
    · cases h

/-- A reading that fails has reached a blocked markup. -/
theorem exists_blocked {markup : List Char} {f : Failure}
    (h : parseChars markup = .error f) :
    (∃ part, Reaches markup part ∧ Blocked part) ∧ f.IsOfBound := by
  induction hn : markup.length using Nat.strongRecOn
    generalizing markup with
  | ind n ih =>
    subst hn
    rcases of_parseChars_eq_error h with ⟨part, hpart, hfail⟩ |
      ⟨hblocked, hkind⟩
    · obtain ⟨⟨inner, hreach, hblocked⟩, hkind⟩ :=
        ih _ (Form.length_lt_of_mem_parts hpart) hfail rfl
      exact ⟨⟨inner, .inside hpart hreach, hblocked⟩, hkind⟩
    · exact ⟨⟨markup, .refl markup, hblocked⟩, hkind⟩

/-- A reading that answers has reached none. -/
theorem not_blocked_of_reaches {markup part : List Char}
    (hreach : Reaches markup part) {e : Expr}
    (h : parseChars markup = .ok e) : ¬Blocked part := by
  induction hreach generalizing e with
  | refl => exact (of_parseChars_eq_ok h).2.1
  | inside hpart _ ih =>
    obtain ⟨d, hd⟩ := (of_parseChars_eq_ok h).1 _ hpart
    exact ih hd

/-- Every markup is read as its form says, a path if it is nothing else,
unless the reading reaches an integer of too many digits or a range with a
bound that counts as no integer. Reading goes back to shorter markups only,
and missing markup is nil. -/
theorem parse_total (markup : String) :
    (((∀ part, Reaches markup.toList part → ¬Blocked part) ∧
        ∃ e, parse markup = .ok e ∧ (Form.of markup.toList).Answers e) ∨
      ((∃ part, Reaches markup.toList part ∧ Blocked part) ∧
        ∃ f, parse markup = .error f ∧ f.IsOfBound)) ∧
      (∀ inside, (∀ part, part.length < markup.length →
          inside part = parseChars part) →
        (Form.of markup.toList).read inside = parse markup) ∧
      Condition.operandOf none = .ok (.const .nil) := by
  refine ⟨?_, fun inside hinside => ?_, rfl⟩
  · cases h : parse markup with
    | ok e =>
      exact Or.inl ⟨fun part hreach => not_blocked_of_reaches hreach h,
        e, rfl, (of_parseChars_eq_ok h).2.2⟩
    | error f =>
      obtain ⟨hblocked, hkind⟩ := exists_blocked h
      exact Or.inr ⟨hblocked, f, rfl, hkind⟩
  · rw [parse, parseChars_eq_read]
    refine Form.read_congr fun part hpart => hinside part ?_
    rw [← String.length_toList]
    exact Form.length_lt_of_mem_parts hpart

/-- A range between a truth value and a number is read as nothing. -/
theorem exists_parse_ne_ok : ∃ markup, ∀ e, parse markup ≠ .ok e := by
  refine ⟨"(true..1)", fun e h => ?_⟩
  have hnone : (parse "(true..1)").toOption = none := by decide +kernel
  rw [h] at hnone
  cases hnone

end Expr

end Stencil
