/-
Failures that are no refusals: numbers.

A grammar refuses markup by saying what is malformed about it. There are
two more ways for it to fail. An integer of too many digits is not read.
And a range whose bounds are written out is made into a value at once, so
that a bound that is no integer is reported as it would be while rendering.
Nothing else in either grammar fails in these ways: the strict one refuses
tokens for the reasons that are known, and the lenient one takes every
operand, if no number is in the way.

Ranges stand in parentheses, and the digits of an integer side by side. So
markup without an opening parenthesis, and without a row of too many digits,
is read or refused. As for what is spelled, it is a parameter whether there
are ranges, and another whether there are such integers, and the characters
of the markup permit them (`Permits`).
-/
import Stencil.Proofs.Expr.Spelled

namespace Stencil

/-- Whether a failure is about a number: a bound of a range is no integer,
or an integer has too many digits. -/
def Failure.isNumeric : Failure → Bool
  | .notAnInteger _ | .infiniteInteger | .missingInteger
  | .unreadableInteger _ | .tooManyDigits => true
  | _ => false

/-- A failure is about a number, of a range or of too many digits. -/
def Failure.OfNumber (ranges long : Prop) (f : Failure) : Prop :=
  (ranges ∧ f.isNumeric = true) ∨ long ∧ ∃ text, f = .unreadableInteger text

/-- A grammar fails by refusing the markup, or over a number. -/
def Failure.OfGrammar (ranges long : Prop) (f : Failure) : Prop :=
  (∃ e, f = .malformed e) ∨ f.OfNumber ranges long

/-- An opening parenthesis in a text permits ranges, and a row of too many
digits permits integers that are not read. -/
structure Permits (ranges long : Prop) (cs : List Char) : Prop where
  round : '(' ∈ cs → ranges
  digits : Numeral.OverlongIn cs → long

/-- Nothing is asked where everything is permitted. -/
theorem Permits.always {cs : List Char} : Permits True True cs :=
  ⟨fun _ => trivial, fun _ => trivial⟩

/-- A text permits what its characters do. -/
theorem Permits.self {cs : List Char} :
    Permits ('(' ∈ cs) (Numeral.OverlongIn cs) cs :=
  ⟨id, id⟩

/-- A part of a text permits no more than the text. -/
theorem Permits.of_part {ranges long : Prop} {part cs : List Char}
    (h : Permits ranges long cs) (hpart : part <:+: cs) :
    Permits ranges long part :=
  ⟨fun hround => h.round (hpart.subset hround),
    fun hdigits => h.digits (hdigits.of_part hpart)⟩

theorem Failure.OfNumber.isNumeric {ranges long : Prop} {f : Failure}
    (h : f.OfNumber ranges long) : f.isNumeric = true := by
  rcases h with ⟨-, h⟩ | ⟨-, text, rfl⟩
  · exact h
  · rfl

-- ============================================================== bounds

section

/-- Values are shown unless an integer in them has too many digits. -/
def Shows (display : Value → Except Failure String) : Prop :=
  ∀ v f, display v = .error f → f = .tooManyDigits

theorem Value.shows_shown : Shows Value.shown :=
  fun _ _ h => (written_eq_error.1 h).2

theorem Store.shows_display (store : Store) : Shows store.display :=
  fun _ _ h => (written_eq_error.1 h).2

variable {display : Value → Except Failure String} {f : Failure}

theorem isNumeric_of_integerOfText {cs : List Char}
    (h : integerOfText cs = .error f) : f.isNumeric = true := by
  unfold integerOfText at h
  split at h
  · cases h
  · split at h
    · cases h
    · cases h
      rfl

theorem isNumeric_of_integerOfFloat {x : Binary64}
    (h : integerOfFloat x = .error f) : f.isNumeric = true := by
  cases x with
  | finite => cases h
  | nan | infinity =>
    cases h
    rfl

/-- A value that is no integer is no bound. -/
theorem Value.isNumeric_of_toInteger (hdisplay : Shows display) {v : Value}
    (h : v.toInteger display = .error f) : f.isNumeric = true := by
  cases v with
  | nil | int => cases h
  | text s => exact isNumeric_of_integerOfText h
  | float x => exact isNumeric_of_integerOfFloat h
  | _ =>
    rcases outcome_bind_eq_error.1 h with h | ⟨shown, -, h⟩
    · rw [hdisplay _ _ h]
      rfl
    · cases h
      rfl

theorem Value.isNumeric_of_rangeBetween (hdisplay : Shows display)
    {v w : Value} (h : v.rangeBetween display w = .error f) :
    f.isNumeric = true := by
  rcases outcome_bind_eq_error.1 h with h | ⟨m, -, h⟩
  · exact isNumeric_of_toInteger hdisplay h
  · rcases outcome_bind_eq_error.1 h with h | ⟨n, -, h⟩
    · exact isNumeric_of_toInteger hdisplay h
    · cases h

/-- Two operands make no range only over a bound. -/
theorem Expr.isNumeric_of_between (hdisplay : Shows display)
    {first last : Expr} (h : between display first last = .error f) :
    f.isNumeric = true := by
  cases first with
  | const v =>
    cases last with
    | const w =>
      cases hrange : v.rangeBetween display w with
      | ok r =>
        rw [between, hrange] at h
        cases h
      | error f' =>
        rw [between, hrange] at h
        cases h
        exact Value.isNumeric_of_rangeBetween hdisplay hrange
    | _ => cases h
  | _ => cases h

end

-- ============================================================= lenient

section

variable {ranges long : Prop}

namespace Expr

/-- A minus may be dropped. -/
theorem exists_minus (cs : List Char) :
    ∃ minus, (minus = [] ∨ minus = ['-']) ∧ cs = minus ++ dropMinus cs := by
  unfold dropMinus
  split
  · next rest => exact ⟨['-'], Or.inr rfl, rfl⟩
  · exact ⟨[], Or.inl rfl, rfl⟩

/-- The form of an integer is its markup without the blanks around it. -/
theorem Form.eq_of_integer {markup digits : List Char}
    (h : Form.of markup = .integer digits) :
    digits = Text.trim markup ∧ isInteger digits = true := by
  unfold Form.of Form.ofTrimmed at h
  split at h
  · cases h
  · split at h
    · cases h
    · split at h
      · next hinteger =>
        cases h
        exact ⟨rfl, hinteger⟩
      · split at h
        · cases h
        · split at h <;> cases h

/-- An integer is read unless it has too many digits. -/
theorem readInteger_of_isInteger {cs : List Char}
    (h : isInteger cs = true) :
    (¬Numeral.Overlong cs ∧ ∃ n, Numeral.integer? cs = some n ∧
        readInteger cs = .ok (.const (.int n))) ∨
      (Numeral.Overlong cs ∧
        readInteger cs = .error (.unreadableInteger (String.ofList cs))) := by
  obtain ⟨minus, hminus, hcs⟩ := exists_minus cs
  have hread := integer?_of_isDigits hminus h
  rw [← hcs] at hread
  by_cases hlength : (dropMinus cs).length ≤ Numeral.maxDigits
  · rw [if_pos hlength] at hread
    refine Or.inl ⟨?_, _, hread, by rw [readInteger, hread]⟩
    rintro ⟨minus', digits, rfl, hminus', hdigits, hlong⟩
    rw [integer?_of_isDigits hminus' hdigits,
      if_neg (Nat.not_le_of_lt hlong)] at hread
    cases hread
  · rw [if_neg hlength] at hread
    exact Or.inr ⟨⟨minus, _, hcs, hminus, h, Nat.lt_of_not_le hlength⟩,
      by rw [readInteger, hread]⟩

/-- The lenient grammar reads every operand, if no number is in the
way. -/
theorem ofNumber_of_parseChars {markup : List Char} {f : Failure}
    (hpermits : Permits ranges long markup)
    (h : parseChars markup = .error f) : f.OfNumber ranges long := by
  induction hn : markup.length using Nat.strongRecOn
    generalizing markup f long with
  | ind n ih =>
    subst hn
    rw [parseChars_eq] at h
    split at h
    · next digits hform =>
      obtain ⟨rfl, hinteger⟩ := Form.eq_of_integer hform
      rcases readInteger_of_isInteger hinteger with
        ⟨-, n, -, hn⟩ | ⟨hlong, hf⟩
      · cases hn.symm.trans h
      · cases hf.symm.trans h
        have hrow := hlong.overlongIn.of_part (Text.infix_trim markup)
        exact Or.inr ⟨hpermits.digits hrow, _, rfl⟩
    · cases h
    · next hform =>
      -- a range is permitted already, whatever is wrong with its bounds
      have hranges := hpermits.round (Form.mem_of_range hform)
      have hall (cs : List Char) : Permits ranges True cs :=
        ⟨fun _ => hranges, fun _ => trivial⟩
      obtain ⟨hfirst, hlast⟩ := Form.length_bounds_lt hform
      refine Or.inl ⟨hranges, ?_⟩
      rcases outcome_bind_eq_error.1 h with h | ⟨a, -, h⟩
      · exact (ih _ hfirst (hall _) h rfl).isNumeric
      · rcases outcome_bind_eq_error.1 h with h | ⟨b, -, h⟩
        · exact (ih _ hlast (hall _) h rfl).isNumeric
        · exact isNumeric_of_between Value.shows_shown h
    · next segments hform =>
      rcases outcome_bind_eq_error.1 h with h | ⟨exprs, -, h⟩
      · obtain ⟨segment, hsegment, hread⟩ := exists_of_mapM_eq_error h
        cases segment with
        | word w => cases hread
        | group inner =>
          have hgroup := Form.infix_of_mem_group hform hsegment
          exact ih _ (Form.length_group_lt hform hsegment)
            (hpermits.of_part hgroup) hread rfl
      · cases h

end Expr

namespace Condition

/-- Pieces make no clause because they are malformed or over a number. -/
theorem ofGrammar_of_clauseOf {tag markup : String} {pieces : List Fragment}
    {f : Failure} (hpermits : ∀ p ∈ pieces, Permits ranges long p.text)
    (h : clauseOf tag markup pieces = .error f) :
    f.OfGrammar ranges long := by
  have hoperand {piece : Option Fragment} {g : Failure}
      (hpiece : ∀ p ∈ piece, p ∈ pieces) (hg : operandOf piece = .error g) :
      g.OfGrammar ranges long := by
    cases piece with
    | none => cases hg
    | some p =>
      exact Or.inr (Expr.ofNumber_of_parseChars (hpermits p (hpiece p rfl)) hg)
  cases pieces with
  | nil =>
    cases h
    exact Or.inl ⟨_, rfl⟩
  | cons p rest =>
    have hp : ∀ q ∈ some p, q ∈ p :: rest := by
      intro q hq
      obtain rfl := Option.some.inj hq
      exact List.mem_cons_self ..
    simp only [clauseOf] at h
    split at h
    · cases h
      exact Or.inl ⟨_, rfl⟩
    · rcases outcome_bind_eq_error.1 h with h | ⟨left, -, h⟩
      · exact hoperand hp h
      · cases rest with
        | nil => cases h
        | cons op rest =>
          rcases outcome_bind_eq_error.1 h with h | ⟨right, -, h⟩
          · refine hoperand (fun q hq => ?_) h
            have hmem := List.mem_of_mem_head? hq
            exact List.mem_cons_of_mem _ (List.mem_cons_of_mem _ hmem)
          · rcases outcome_bind_eq_error.1 h with h | ⟨o, -, h⟩
            · unfold operatorOf at h
              dsimp only at h
              split at h
              · cases h
              · cases h
                exact Or.inl ⟨_, rfl⟩
            · cases h

/-- A chain fails as one of its clauses does. -/
theorem exists_of_assemble_eq_error
    {g : List Fragment → Except Failure Clause} {first : List Fragment}
    {later : List (Relation × List Fragment)} {f : Failure}
    (h : assemble g first later = .error f) :
    ∃ pieces, (pieces = first ∨ ∃ l ∈ later, pieces = l.2) ∧
      g pieces = .error f := by
  induction later generalizing first f with
  | nil =>
    rcases outcome_bind_eq_error.1 h with h | ⟨clause, -, h⟩
    · exact ⟨first, Or.inl rfl, h⟩
    · cases h
  | cons next later ih =>
    rcases outcome_bind_eq_error.1 h with h | ⟨rest, -, h⟩
    · obtain ⟨pieces, hpieces, hg⟩ := ih h
      refine ⟨pieces, Or.inr ?_, hg⟩
      rcases hpieces with rfl | ⟨l, hl, rfl⟩
      · exact ⟨next, List.mem_cons_self .., rfl⟩
      · exact ⟨l, List.mem_cons_of_mem _ hl, rfl⟩
    · rcases outcome_bind_eq_error.1 h with h | ⟨clause, -, h⟩
      · exact ⟨first, Or.inl rfl, h⟩
      · cases h

/-- The lenient grammar refuses a condition or fails over a number. -/
theorem ofGrammar_of_parseLenient {tag markup : String} {f : Failure}
    (hpermits : Permits ranges long markup.toList)
    (h : parseLenient tag markup = .error f) : f.OfGrammar ranges long := by
  obtain ⟨pieces, hpieces, h⟩ := exists_of_assemble_eq_error h
  refine ofGrammar_of_clauseOf (fun p hp => hpermits.of_part ?_) h
  refine Fragment.infix_of_mem_scan (mem_of_mem_splitClauses ?_)
  rcases hpieces with rfl | ⟨l, hl, rfl⟩
  · exact Or.inl hp
  · exact Or.inr ⟨l, hl, hp⟩

end Condition

-- ============================================================== strict

/-- The tokens that are left spell something, a parenthesis among them
grants ranges, and an integer of too many digits that there are such. -/
def Grants (ranges long : Prop) (s : Cursor) : Prop :=
  ∀ t ∈ s.rest, t.Spells ∧ (t.kind = .openRound → ranges) ∧
    (t.kind = .number → Numeral.Overlong t.text.toList → long)

/-- From a cursor on, a reader fails over a number only as it may. -/
def Guarded {α : Type} (ranges long : Prop) (x : Reader α) (s : Cursor) :
    Prop :=
  ∀ f s', x s = (.error f, s') → f.isNumeric = true →
    f.OfNumber ranges long

namespace Grants

variable {s s' : Cursor}

theorem behind {ts : List Token} (h : Grants ranges long s)
    (hs : s.rest = ts ++ s'.rest) : Grants ranges long s' :=
  fun t ht => h t (hs ▸ List.mem_append_right _ ht)

theorem advance {kind : TokenKind} {text : String} (h : Grants ranges long s)
    (hs : s.next = ⟨kind, text⟩) (hkind : kind ≠ .endOfString) :
    Grants ranges long s.advance := by
  have hrest : s.rest = [⟨kind, text⟩] ++ s.advance.rest :=
    Reader.rest_eq_cons hs hkind
  exact h.behind hrest

theorem next {kind : TokenKind} {text : String} (h : Grants ranges long s)
    (hs : s.next = ⟨kind, text⟩) (hkind : kind ≠ .endOfString) :
    (⟨kind, text⟩ : Token).Spells ∧ (kind = .openRound → ranges) ∧
      (kind = .number → Numeral.Overlong text.toList → long) := by
  refine h ⟨kind, text⟩ ?_
  rw [Reader.rest_eq_cons hs hkind]
  exact List.mem_cons_self ..

end Grants

namespace Guarded

variable {α β : Type} {s : Cursor}

protected theorem pure (a : α) : Guarded ranges long (pure a : Reader α) s :=
  nofun

/-- Where there are ranges, nothing is asked. -/
theorem of_ranges (h : ranges) (x : Reader α) : Guarded ranges long x s :=
  fun _ _ _ hf => Or.inl ⟨h, hf⟩

protected theorem bind {x : Reader α} {g : α → Reader β}
    (hx : Guarded ranges long x s)
    (hg : ∀ a t, x s = (.ok a, t) → Guarded ranges long (g a) t) :
    Guarded ranges long (x >>= g) s := by
  intro f s' h
  rcases bind_eq_error.1 h with h | ⟨a, t, ha, h⟩
  · exact hx f s' h
  · exact hg a t ha f s' h

theorem expect_bind {kind : TokenKind} {g : String → Reader β}
    (hg : ∀ text, s.next = ⟨kind, text⟩ →
      Guarded ranges long (g text) s.advance) :
    Guarded ranges long (Reader.expect kind >>= g) s := by
  intro f s' h
  rw [Reader.expect_bind] at h
  split at h
  · next hkind =>
    subst hkind
    exact hg s.next.text rfl f s' h
  · cases h
    intro hf
    cases hf

theorem to_end {x : Reader α} (h : Guarded ranges long x s) :
    Guarded ranges long (x >>= fun a =>
      Reader.expect .endOfString >>= fun _ => pure a) s :=
  .bind h fun _ _ _ => .expect_bind fun _ _ => .pure _

end Guarded

namespace Reader

/-- An operand that a token has to end is guarded, if the operand is, and
what follows is. -/
theorem guarded_closed {β : Type} {n : Nat} {s : Cursor}
    (hoperand : ∀ s, Grants ranges long s → Guarded ranges long (operand n) s)
    (kind : TokenKind) (hkind : kind ≠ .endOfString) (hs : Grants ranges long s)
    {g : Expr → String → Reader β}
    (hg : ∀ e text t, Grants ranges long t → Guarded ranges long (g e text) t) :
    Guarded ranges long (operand n >>= fun e => expect kind >>= g e) s := by
  refine .bind (hoperand s hs) fun e t he => .expect_bind ?_
  obtain ⟨ts, hts, -⟩ := (derives_of_budget n).1 _ _ _ he
  exact fun text hnext =>
    hg e text _ ((hs.behind hts).advance hnext hkind)

/-- Operands and steps fail over a number only as it may be. The
induction is on the budget, as it is in the recursion. -/
theorem guarded_of_grants (n : Nat) :
    (∀ s, Grants ranges long s → Guarded ranges long (operand n) s) ∧
      ∀ s p, Grants ranges long s → Guarded ranges long (steps n p) s := by
  induction n with
  | zero =>
    constructor
    · intro s _ f s' h
      cases h
      intro hf
      cases hf
    · intro s p _ f s' h
      cases h
      intro hf
      cases hf
  | succ n ih =>
    obtain ⟨ihOperand, ihSteps⟩ := ih
    constructor
    · intro s hs
      rcases hnext : s.next with ⟨kind, text⟩
      have htext : s.next.text = text := by rw [hnext]
      cases kind with
      | openRound =>
        exact .of_ranges ((hs.next hnext (by decide)).2.1 rfl) _
      | id =>
        intro f s' h
        rw [operand, peek_bind, hnext] at h
        dsimp only at h
        rw [goesOn_bind, advance_bind, htext] at h
        rcases hmeaning : (if (s.advance.next.kind == .dot ||
          s.advance.next.kind == .openSquare) = true then none
          else literal? text) with _ | v
        · rw [hmeaning] at h
          exact Guarded.bind (ihSteps _ _ (hs.advance hnext (by decide)))
            (fun _ _ _ => .pure _) f s' h
        · rw [hmeaning] at h
          cases h
      | openSquare =>
        intro f s' h
        rw [operand, peek_bind, hnext] at h
        dsimp only at h
        rw [advance_bind] at h
        refine guarded_closed ihOperand .closeSquare (by decide)
          (hs.advance hnext (by decide)) ?_ f s' h
        exact fun e text t ht => .bind (ihSteps _ _ ht) fun _ _ _ => .pure _
      | number =>
        intro f s' h
        rw [operand, peek_bind, hnext] at h
        dsimp only at h
        rw [advance_bind, htext] at h
        obtain ⟨hspells, -, hgrants⟩ := hs.next hnext (by decide)
        cases hv : numeral? text with
        | some v =>
          unfold numeral? at hv
          simp only [numberOf, hv] at h
          cases h
        | none =>
          have hlong := hgrants rfl (hspells.overlong rfl hv)
          unfold numeral? at hv
          simp only [numberOf, hv] at h
          cases h
          exact fun _ => Or.inr ⟨hlong, text, rfl⟩
      | string =>
        intro f s' h
        rw [operand, peek_bind, hnext] at h
        cases h
      | _ =>
        intro f s' h
        rw [operand, peek_bind, hnext] at h
        cases h
        intro hf
        cases hf
    · intro s p hs f s' h
      rw [steps, accept?_bind] at h
      split at h
      · next hkind =>
        have hnext : s.next = ⟨.openSquare, s.next.text⟩ := by rw [← hkind]
        simp only [Option.isSome_some, if_true] at h
        refine guarded_closed ihOperand .closeSquare (by decide)
          (hs.advance hnext (by decide)) ?_ f s' h
        exact fun e text t ht => ihSteps _ _ ht
      · simp only [Option.isSome_none, Bool.false_eq_true, if_false] at h
        rw [accept?_bind] at h
        split at h
        · next hkind =>
          have hnext : s.next = ⟨.dot, s.next.text⟩ := by rw [← hkind]
          simp only [Option.isSome_some, if_true] at h
          refine Guarded.expect_bind (fun text hname => ?_) f s' h
          exact ihSteps _ _
            ((hs.advance hnext (by decide)).advance hname (by decide))
        · cases h

variable {s : Cursor}

theorem guarded_expression (hs : Grants ranges long s) :
    Guarded ranges long expression s :=
  (guarded_of_grants _).1 s hs

theorem guarded_comparison (hs : Grants ranges long s) :
    Guarded ranges long comparison s := by
  refine .bind (guarded_expression hs) fun left t hleft => ?_
  obtain ⟨ts, hts, -⟩ := derives_of_expression hleft
  have ht := hs.behind hts
  intro f s' h
  rw [accept?_bind] at h
  split at h
  · next hkind =>
    have hnext : t.next = ⟨.comparison, t.next.text⟩ := by rw [← hkind]
    obtain ⟨op, hop⟩ := (ht.next hnext (by decide)).1.2 rfl
    dsimp only at h hop
    rw [hop] at h
    exact Guarded.bind (guarded_expression (ht.advance hnext (by decide)))
      (fun _ _ _ => .pure _) f s' h
  · cases h

theorem guarded_linked {n : Nat} (hs : Grants ranges long s) :
    Guarded ranges long (linked n) s := by
  induction n generalizing s with
  | zero =>
    intro f s' h
    cases h
    intro hf
    cases hf
  | succ n ih =>
    refine .bind ?_ fun found t hfound => ?_
    · intro f s' h
      rw [relation?, acceptName?_bind] at h
      split at h
      · cases h
      · simp only [Option.isSome_none, Bool.false_eq_true, if_false] at h
        rw [acceptName?_bind] at h
        split at h
        · cases h
        · cases h
    · rcases relation?_eq_ok hfound with ⟨rfl, rfl⟩ | ⟨r, rfl, hnext, rfl⟩
      · exact .pure _
      · have hrest := hs.advance hnext (by decide)
        refine .bind (guarded_comparison hrest) fun clause u hclause => ?_
        obtain ⟨ts, hts, -⟩ := derives_of_comparison hclause
        exact .bind (ih (hrest.behind hts)) fun _ _ _ => .pure _

theorem guarded_condition (hs : Grants ranges long s) :
    Guarded ranges long condition s := by
  refine .bind (guarded_comparison hs) fun clause t hclause => ?_
  obtain ⟨ts, hts, -⟩ := derives_of_comparison hclause
  intro f s' h
  rw [budget_bind] at h
  exact Guarded.bind (guarded_linked (hs.behind hts))
    (fun _ _ _ => .pure _) f s' h

end Reader

/-- A reader of all tokens of a markup that fails with refusals, and over
a number only as it may, fails in the ways of a grammar. -/
theorem Refusal.ofGrammar {f : Failure} (h : Refusal f)
    (hnumber : f.isNumeric = true → f.OfNumber ranges long) :
    f.OfGrammar ranges long := by
  cases h with
  | token => exact Or.inl ⟨_, rfl⟩
  | operand => exact Or.inl ⟨_, rfl⟩
  | overlong => exact Or.inr (hnumber rfl)
  | bound hbetween =>
    exact Or.inr
      (hnumber (Expr.isNumeric_of_between Value.shows_shown hbetween))

/-- The tokens of a markup grant what the markup permits. -/
theorem grants_of_scan {markup : String} {tokens : List Token}
    (hpermits : Permits ranges long markup.toList)
    (h : Token.scan markup = .ok tokens) :
    Grants ranges long (.ofTokens markup tokens) := by
  obtain ⟨ts, rfl, -, hspells⟩ := Token.spells_of_scan h
  refine fun t ht => ⟨hspells t ht, fun hkind => ?_, fun _ hlong => ?_⟩
  · exact hpermits.round (Token.mem_of_openRound h ht hkind)
  · obtain ⟨-, hplace⟩ := Token.infix_of_scan h ht
    exact hpermits.digits (hlong.overlongIn.of_part hplace)

/-- The strict grammar refuses an operand or fails over a number. -/
theorem Expr.ofGrammar_of_parseStrict {markup : String} {f : Failure}
    (hpermits : Permits ranges long markup.toList)
    (h : parseStrict markup = .error f) : f.OfGrammar ranges long := by
  unfold parseStrict at h
  split at h
  · next hscan =>
    have hs := grants_of_scan hpermits hscan
    refine (refusal_of_readTokens (fun t ht => (hs t ht).1) h).ofGrammar ?_
    exact Guarded.to_end (Reader.guarded_expression hs) f _ (Prod.ext h rfl)
  · cases h
    exact Or.inl ⟨_, rfl⟩

/-- The strict grammar refuses a condition or fails over a number. -/
theorem Condition.ofGrammar_of_parseStrict {markup : String} {f : Failure}
    (hpermits : Permits ranges long markup.toList)
    (h : parseStrict markup = .error f) : f.OfGrammar ranges long := by
  unfold parseStrict at h
  split at h
  · next hscan =>
    have hs := grants_of_scan hpermits hscan
    refine (refusal_of_readTokens (fun t ht => (hs t ht).1) h).ofGrammar ?_
    exact Guarded.to_end (Reader.guarded_condition hs) f _ (Prod.ext h rfl)
  · cases h
    exact Or.inl ⟨_, rfl⟩

-- =============================================================== modes

namespace Mode

/-- A mode fails in the ways of its grammars. -/
theorem ofGrammar_of_verdict {α : Type} {mode : Mode}
    {lenient strict : Except Failure α} {f : Failure}
    (hl : ∀ f, lenient = .error f → f.OfGrammar ranges long)
    (hs : ∀ f, strict = .error f → f.OfGrammar ranges long)
    (h : mode.verdict lenient strict = .error f) : f.OfGrammar ranges long := by
  unfold verdict at h
  split at h
  · exact hs f h
  · exact hl f h
  · split at h
    · exact hl f h
    · exact hs f h

theorem ofGrammar_of_expr {mode : Mode} {markup : String} {f : Failure}
    (hpermits : Permits ranges long markup.toList)
    (h : mode.expr markup = .error f) : f.OfGrammar ranges long :=
  ofGrammar_of_verdict
    (fun _ h => Or.inr (Expr.ofNumber_of_parseChars hpermits h))
    (fun _ => Expr.ofGrammar_of_parseStrict hpermits) h

theorem ofGrammar_of_condition {mode : Mode} {tag markup : String}
    {f : Failure} (hpermits : Permits ranges long markup.toList)
    (h : mode.condition tag markup = .error f) : f.OfGrammar ranges long :=
  ofGrammar_of_verdict
    (fun _ => Condition.ofGrammar_of_parseLenient hpermits)
    (fun _ => Condition.ofGrammar_of_parseStrict hpermits) h

end Mode

end

end Stencil
