/-
What markup can spell.

The constants in an expression that was read from markup are texts,
numbers, truth values and the like. An object has no spelling, and neither
have raw bytes. Ranges have one, with parentheses: markup without an
opening parenthesis spells no range, neither as a value nor with bounds
that are still to be found out. So whether ranges are spelled is a
parameter here, of which is only asked that a parenthesis in the markup
grants it.

Both grammars are gone through, the lenient one by the forms of operands,
the strict one by derivations.
-/
import Mathlib.Data.List.Basic
import Stencil.Condition.Lenient
import Stencil.Proofs.Markup.Refusal
import Stencil.Proofs.Number.Numeral
import Stencil.Proofs.Template.Verdict

namespace Stencil

-- ============================================================= spelled

/-- A value that markup can spell, a range only where ranges are. The
integers that are spelled can be written as well; whether there are larger
ones is another parameter. -/
def Value.Spelled (ranges large : Prop) : Value → Prop
  | .bytes _ | .object _ => False
  | .range _ _ => ranges
  | .int n => large ∨ Numeral.isWritable n = true
  | _ => True

mutual

/-- All constants of an expression are spelled, and its ranges. -/
def Expr.Spelled (ranges large : Prop) : Expr → Prop
  | .const v => v.Spelled ranges large
  | .path p => p.Spelled ranges large
  | .range first last =>
    ranges ∧ first.Spelled ranges large ∧ last.Spelled ranges large

/-- All constants of a path are spelled. -/
def Path.Spelled (ranges large : Prop) : Path → Prop
  | .root name => name.Spelled ranges large
  | .step path key _ => path.Spelled ranges large ∧ key.Spelled ranges large

end

/-- Both operands of a clause meet a condition. -/
def Clause.Meets (P : Expr → Prop) (c : Clause) : Prop :=
  P c.left ∧ P c.right

/-- All operands of a condition meet another one. -/
def Condition.Meets (P : Expr → Prop) (c : Condition) : Prop :=
  c.head.Meets P ∧ ∀ link ∈ c.tail, link.2.Meets P

theorem Clause.Meets.mono {P P' : Expr → Prop} (hP : ∀ e, P e → P' e)
    {c : Clause} (h : c.Meets P) : c.Meets P' :=
  ⟨hP _ h.1, hP _ h.2⟩

theorem Condition.Meets.mono {P P' : Expr → Prop} (hP : ∀ e, P e → P' e)
    {c : Condition} (h : c.Meets P) : c.Meets P' :=
  ⟨h.1.mono hP, fun link hlink => (h.2 link hlink).mono hP⟩

theorem Condition.Meets.and {P P' : Expr → Prop} {c : Condition}
    (h : c.Meets P) (h' : c.Meets P') : c.Meets fun e => P e ∧ P' e :=
  ⟨⟨⟨h.1.1, h'.1.1⟩, ⟨h.1.2, h'.1.2⟩⟩, fun link hlink =>
    ⟨⟨(h.2 link hlink).1, (h'.2 link hlink).1⟩,
      ⟨(h.2 link hlink).2, (h'.2 link hlink).2⟩⟩⟩

/-- All constants of a clause are spelled. -/
abbrev Clause.Spelled (ranges large : Prop) (c : Clause) : Prop :=
  c.Meets (Expr.Spelled ranges large)

/-- All constants of a condition are spelled. -/
abbrev Condition.Spelled (ranges large : Prop) (c : Condition) : Prop :=
  c.Meets (Expr.Spelled ranges large)

/-- The clause of an `else` branch has no operands of its own. -/
theorem Condition.otherwise_spelled {ranges large : Prop} :
    Condition.otherwise.Spelled ranges large :=
  ⟨⟨trivial, trivial⟩, fun _ h => by cases h⟩

theorem literal?_spelled {ranges large : Prop} {word : String} {v : Value}
    (h : literal? word = some v) : v.Spelled ranges large := by
  have hwords : ∀ e ∈ literalWords, e.2.Spelled ranges large := by
    simp [literalWords, Value.Spelled]
  obtain ⟨before, after, hsplit, -⟩ := List.lookup_eq_some_iff.1 h
  refine hwords (word, v) ?_
  rw [hsplit]
  exact List.mem_append_right _ (List.mem_cons_self ..)

/-- Between two operands there is a range, known or open. -/
theorem Expr.between_cases {display : Value → Except Failure String}
    {a b e : Expr}
    (h : between display a b = .ok e) :
    (∃ first stop, e = .const (.range first stop)) ∨ e = .range a b := by
  unfold between at h
  split at h
  · next v w =>
    cases hrange : Value.rangeBetween display v w with
    | error f =>
      rw [hrange] at h
      cases h
    | ok r =>
      rw [hrange] at h
      cases h
      obtain ⟨m, -, hrange⟩ := outcome_bind_eq_ok.1 hrange
      obtain ⟨n, -, hrange⟩ := outcome_bind_eq_ok.1 hrange
      cases hrange
      exact Or.inl ⟨_, _, rfl⟩
  · cases h
    exact Or.inr rfl

/-- Where ranges are spelled, two spelled operands make a spelled one. -/
theorem Expr.between_spelled {ranges large : Prop}
    {display : Value → Except Failure String} {first last e : Expr}
    (hranges : ranges)
    (hfirst : first.Spelled ranges large) (hlast : last.Spelled ranges large)
    (h : Expr.between display first last = .ok e) : e.Spelled ranges large := by
  rcases Expr.between_cases h with ⟨m, n, rfl⟩ | rfl
  · exact hranges
  · exact ⟨hranges, hfirst, hlast⟩

-- ============================================================= places

section

variable {cs : List Char}

/-- A group of a path stands in the path. -/
theorem Segment.infix_of_mem_group {inner : List Char}
    (h : .group inner ∈ scan cs) : inner <:+: cs := by
  fun_induction scan cs with
  | case1 => cases h
  | case2 d rest hd i after hg ih =>
    rw [eq_of_closeGroup hg]
    rcases List.mem_cons.1 h with h | h
    · cases h
      exact ⟨[d], ']' :: after, rfl⟩
    · exact (ih h).trans ⟨d :: i ++ [']'], [], by simp⟩
  | case3 d rest hd hg ih => exact List.infix_cons (ih h)
  | case4 d rest hd hw ih =>
    rcases List.mem_cons.1 h with h | h
    · cases h
    · rw [← takeWord_append_dropWord (d :: rest)]
      exact (ih h).trans (List.suffix_append _ _).isInfix
  | case5 d rest hd hw ih => exact List.infix_cons (ih h)

/-- A piece of a condition stands in the condition. -/
theorem Fragment.infix_of_mem_scan {piece : Fragment}
    (h : piece ∈ scan cs) : piece.text <:+: cs := by
  fun_induction scan cs with
  | case1 => cases h
  | case2 d rest hd ih => exact List.infix_cons (ih h)
  | case3 d rest hd ho ih =>
    rw [← List.takeWhile_append_dropWhile (p := isOperatorChar) (l := rest),
      ← List.cons_append]
    rcases List.mem_cons.1 h with rfl | h
    · exact (List.prefix_append _ _).isInfix
    · exact (ih h).trans (List.suffix_append _ _).isInfix
  | case4 d rest hd ho n ih =>
    rw [← takeOperand_append_dropOperand n rest, ← List.cons_append]
    rcases List.mem_cons.1 h with rfl | h
    · have htext : (ofOperand (d :: takeOperand n rest)).text =
          d :: takeOperand n rest := by
        unfold ofOperand
        split <;> rfl
      rw [htext]
      exact (List.prefix_append _ _).isInfix
    · exact (ih h).trans (List.suffix_append _ _).isInfix

end

/-- The pieces of the clauses are pieces of the condition. -/
theorem Condition.mem_of_mem_splitClauses {pieces : List Fragment}
    {piece : Fragment}
    (h : piece ∈ (splitClauses pieces).1 ∨
      ∃ link ∈ (splitClauses pieces).2, piece ∈ link.2) :
    piece ∈ pieces := by
  induction pieces with
  | nil =>
    rcases h with h | ⟨_, hlink, _⟩
    · cases h
    · cases hlink
  | cons f rest ih =>
    simp only [splitClauses] at h
    split at h
    · rcases h with h | ⟨link, hlink, h⟩
      · cases h
      · rcases List.mem_cons.1 hlink with rfl | hlink
        · exact List.mem_cons_of_mem _ (ih (Or.inl h))
        · exact List.mem_cons_of_mem _ (ih (Or.inr ⟨link, hlink, h⟩))
    · rcases h with h | h
      · rcases List.mem_cons.1 h with rfl | h
        · exact List.mem_cons_self ..
        · exact List.mem_cons_of_mem _ (ih (Or.inl h))
      · exact List.mem_cons_of_mem _ (ih (Or.inr h))

-- ============================================================= lenient

namespace Expr

variable {ranges large : Prop}

/-- A decimal is a float. -/
theorem exists_float_of_decimal? {cs : List Char} {v : Value}
    (h : decimal? cs = some v) : ∃ x, v = .float x := by
  simp only [decimal?] at h
  split at h
  · split at h
    · obtain ⟨x, -, rfl⟩ := Option.map_eq_some_iff.1 h
      exact ⟨x, rfl⟩
    · cases h
  · cases h

/-- An integer that is read is one that can be written. -/
theorem exists_int_of_readInteger {cs : List Char} {e : Expr}
    (h : readInteger cs = .ok e) :
    ∃ n, e = .const (.int n) ∧ Numeral.isWritable n = true := by
  unfold readInteger at h
  split at h
  · next hread =>
    cases h
    exact ⟨_, rfl, Numeral.isWritable_of_integer? hread⟩
  · cases h

/-- The other values that are written out: nil for nothing, quoted texts,
decimals and literal words. -/
theorem Form.value_cases {markup : List Char} {v : Value}
    (h : Form.of markup = .value v) :
    v = .nil ∨
      (∃ inner, unquote? (Text.trim markup) = some inner ∧
        v = .text (String.ofList inner)) ∨
      (∃ x, decimal? (Text.trim markup) = some (.float x) ∧ v = .float x) ∨
      literal? (String.ofList (Text.trim markup)) = some v := by
  unfold Form.of Form.ofTrimmed at h
  split at h
  · cases h
    exact Or.inl rfl
  · split at h
    · next inner hinner =>
      cases h
      exact Or.inr (Or.inl ⟨inner, hinner, rfl⟩)
    · split at h
      · cases h
      · split at h
        · cases h
        · split at h
          · next hplain =>
            cases h
            unfold plain? at hplain
            split at hplain
            · next hdec =>
              cases hplain
              obtain ⟨x, rfl⟩ := exists_float_of_decimal? hdec
              exact Or.inr (Or.inr (Or.inl ⟨x, hdec, rfl⟩))
            · exact Or.inr (Or.inr (Or.inr hplain))
          · cases h

/-- A value that is written out is spelled. -/
theorem Form.spelled_of_value {markup : List Char} {v : Value}
    (h : Form.of markup = .value v) : v.Spelled ranges large := by
  rcases value_cases h with rfl | ⟨inner, -, rfl⟩ | ⟨x, -, rfl⟩ | hword
  · trivial
  · trivial
  · trivial
  · exact literal?_spelled hword

/-- Markup of a range starts with a parenthesis. -/
theorem Form.mem_of_range {markup first last : List Char}
    (h : Form.of markup = .range first last) : '(' ∈ markup := by
  have hbounds := bounds?_of_range h
  cases htrim : Text.trim markup with
  | nil =>
    rw [htrim] at hbounds
    cases hbounds
  | cons c rest =>
    rw [htrim] at hbounds
    unfold bounds? at hbounds
    split at hbounds
    · next heq =>
      cases heq
      exact (Text.infix_trim _).subset (htrim ▸ List.mem_cons_self ..)
    · cases hbounds

/-- A group of a path stands in its markup. -/
theorem Form.infix_of_mem_group {markup inner : List Char}
    {segments : List Segment} (h : Form.of markup = .path segments)
    (hgroup : .group inner ∈ segments) : inner <:+: markup := by
  rw [segments_of_path h] at hgroup
  exact (Segment.infix_of_mem_group hgroup).trans (Text.infix_trim _)

/-- A path of segments has the constants of its segments. -/
theorem pathOf_spelled {segments : List (Segment × Expr)}
    (h : ∀ s ∈ segments, s.2.Spelled ranges large) :
    (pathOf segments).Spelled ranges large := by
  cases segments with
  | nil => trivial
  | cons root steps =>
    obtain ⟨hroot, hsteps⟩ := List.forall_mem_cons.1 h
    have hfold (p : Path) (hp : p.Spelled ranges large) :
        (steps.foldl stepOf p).Spelled ranges large := by
      clear h
      induction steps generalizing p with
      | nil => exact hp
      | cons s steps ih =>
        obtain ⟨hs, hrest⟩ := List.forall_mem_cons.1 hsteps
        apply ih hrest
        obtain ⟨segment, e⟩ := s
        cases segment <;> exact ⟨hp, hs⟩
    exact hfold _ hroot

/-- What the lenient grammar reads is spelled. -/
theorem parseChars_spelled {markup : List Char} {e : Expr}
    (hround : '(' ∈ markup → ranges) (h : parseChars markup = .ok e) :
    e.Spelled ranges large := by
  induction hn : markup.length using Nat.strongRecOn
    generalizing markup e with
  | ind n ih =>
    subst hn
    rw [parseChars_eq] at h
    split at h
    · obtain ⟨n, rfl, hwritable⟩ := exists_int_of_readInteger h
      exact Or.inr hwritable
    · next hform =>
      cases h
      exact Form.spelled_of_value hform
    · next hform =>
      have hranges := hround (Form.mem_of_range hform)
      obtain ⟨hfirst, hlast⟩ := Form.length_bounds_lt hform
      obtain ⟨a, ha, h⟩ := outcome_bind_eq_ok.1 h
      obtain ⟨b, hb, h⟩ := outcome_bind_eq_ok.1 h
      exact between_spelled hranges (ih _ hfirst (fun _ => hranges) ha rfl)
        (ih _ hlast (fun _ => hranges) hb rfl) h
    · next segments hform =>
      obtain ⟨exprs, hexprs, h⟩ := outcome_bind_eq_ok.1 h
      cases h
      refine pathOf_spelled ?_
      rintro ⟨_, key⟩ hs
      obtain ⟨segment, hsegment, hread⟩ :=
        exists_of_mem_mapM hexprs key (List.of_mem_zip hs).2
      cases segment with
      | word w =>
        cases hread
        trivial
      | group inner =>
        refine ih _ (Form.length_group_lt hform hsegment) ?_ hread rfl
        have hgroup := Form.infix_of_mem_group hform hsegment
        exact fun hc => hround (hgroup.subset hc)

end Expr

namespace Condition

variable {ranges large : Prop}

/-- A clause of pieces has the constants of its operands. -/
theorem clauseOf_spelled {tag markup : String} {pieces : List Fragment}
    {clause : Clause} (hround : ∀ p ∈ pieces, '(' ∈ p.text → ranges)
    (h : clauseOf tag markup pieces = .ok clause) :
    clause.Spelled ranges large := by
  have hoperand {piece : Option Fragment} {e : Expr}
      (hpiece : ∀ p ∈ piece, p ∈ pieces) (he : operandOf piece = .ok e) :
      e.Spelled ranges large := by
    cases piece with
    | none =>
      cases he
      trivial
    | some p =>
      exact Expr.parseChars_spelled (hround p (hpiece p rfl)) he
  cases pieces with
  | nil => cases h
  | cons p rest =>
    have hp : ∀ q ∈ some p, q ∈ p :: rest := by
      intro q hq
      obtain rfl := Option.some.inj hq
      exact List.mem_cons_self ..
    simp only [clauseOf] at h
    split at h
    · cases h
    · obtain ⟨left, hleft, h⟩ := outcome_bind_eq_ok.1 h
      cases rest with
      | nil =>
        cases h
        exact ⟨hoperand hp hleft, trivial⟩
      | cons op rest =>
        obtain ⟨right, hright, h⟩ := outcome_bind_eq_ok.1 h
        obtain ⟨operator, -, h⟩ := outcome_bind_eq_ok.1 h
        cases h
        refine ⟨hoperand hp hleft, hoperand ?_ hright⟩
        intro q hq
        have hmem := List.mem_of_mem_head? hq
        exact List.mem_cons_of_mem _ (List.mem_cons_of_mem _ hmem)

/-- A chain has the constants of its clauses. -/
theorem assemble_spelled {f : List Fragment → Except Failure Clause}
    {first : List Fragment} {later : List (Relation × List Fragment)}
    (hf : ∀ pieces clause, (pieces = first ∨ ∃ l ∈ later, pieces = l.2) →
      f pieces = .ok clause → clause.Spelled ranges large)
    {c : Condition} (h : assemble f first later = .ok c) :
    c.Spelled ranges large := by
  induction later generalizing first c with
  | nil =>
    obtain ⟨clause, hclause, h⟩ := outcome_bind_eq_ok.1 h
    cases h
    exact ⟨hf _ _ (Or.inl rfl) hclause, fun link hlink => by cases hlink⟩
  | cons next later ih =>
    obtain ⟨rest, hrest, h⟩ := outcome_bind_eq_ok.1 h
    obtain ⟨clause, hclause, h⟩ := outcome_bind_eq_ok.1 h
    cases h
    have hlater : rest.Spelled ranges large := by
      refine ih (fun pieces clause hpieces => hf pieces clause ?_) hrest
      rcases hpieces with rfl | ⟨l, hl, rfl⟩
      · exact Or.inr ⟨next, List.mem_cons_self .., rfl⟩
      · exact Or.inr ⟨l, List.mem_cons_of_mem _ hl, rfl⟩
    refine ⟨hf _ _ (Or.inl rfl) hclause, ?_⟩
    rintro link (_ | ⟨_, hlink⟩)
    · exact hlater.1
    · exact hlater.2 link hlink

/-- What the lenient grammar reads as a condition is spelled. -/
theorem parseLenient_spelled {tag markup : String} {c : Condition}
    (hround : '(' ∈ markup.toList → ranges)
    (h : parseLenient tag markup = .ok c) : c.Spelled ranges large := by
  refine assemble_spelled (fun pieces clause hpieces => ?_) h
  refine clauseOf_spelled fun p hp hc => hround ?_
  refine (Fragment.infix_of_mem_scan (mem_of_mem_splitClauses ?_)).subset hc
  rcases hpieces with rfl | ⟨l, hl, rfl⟩
  · exact Or.inl hp
  · exact Or.inr ⟨l, hl, hp⟩

end Condition

-- ============================================================== strict

section

variable {ranges large : Prop}

/-- What a phrase spells: an operand its constants, and steps add theirs
to those of the path they start from. -/
def Phrase.Spelled (ranges large : Prop) : Phrase → Prop
  | .operand e => e.Spelled ranges large
  | .steps start path =>
    start.Spelled ranges large → path.Spelled ranges large

/-- What is derived from tokens is spelled, if a parenthesis among them
grants ranges. -/
theorem Derives.spelled {phrase : Phrase} {ts : List Token}
    (h : Derives phrase ts)
    (hround : ∀ t ∈ ts, t.kind = .openRound → ranges) :
    phrase.Spelled ranges large := by
  induction h with
  | literal hv => exact literal?_spelled hv
  | name _ _ ih =>
    exact ih (fun t ht => hround t (List.mem_cons_of_mem _ ht)) trivial
  | bracketed _ _ ihe ihp =>
    refine ihp (fun t ht => hround t ?_) (ihe fun t ht => hround t ?_)
    · simp [ht]
    · simp [ht]
  | string => trivial
  | @number text v hv =>
    unfold numeral? at hv
    split at hv
    · obtain ⟨x, -, rfl⟩ := Option.map_eq_some_iff.1 hv
      trivial
    · obtain ⟨n, hn, rfl⟩ := Option.map_eq_some_iff.1 hv
      exact Or.inr (Numeral.isWritable_of_integer? hn)
  | range _ _ he ihfirst ihlast =>
    have hranges := hround _ (List.mem_cons_self ..) rfl
    exact Expr.between_spelled hranges (ihfirst fun _ _ _ => hranges)
      (ihlast fun _ _ _ => hranges) he
  | done => exact id
  | key _ ih =>
    refine fun hp => ih (fun t ht => hround t ?_) ⟨hp, trivial⟩
    simp [ht]
  | index _ _ ihe ihq =>
    refine fun hp => ihq (fun t ht => hround t ?_)
      ⟨hp, ihe fun t ht => hround t ?_⟩
    · simp [ht]
    · simp [ht]

theorem DerivesClause.spelled {clause : Clause} {ts : List Token}
    (h : DerivesClause clause ts)
    (hround : ∀ t ∈ ts, t.kind = .openRound → ranges) :
    clause.Spelled ranges large := by
  cases h with
  | single he => exact ⟨he.spelled hround, trivial⟩
  | compare hleft _ hright =>
    refine ⟨hleft.spelled fun t ht => hround t ?_,
      hright.spelled fun t ht => hround t ?_⟩
    · simp [ht]
    · simp [ht]

theorem DerivesLinked.spelled {later : List (Relation × Clause)}
    {ts : List Token} (h : DerivesLinked later ts)
    (hround : ∀ t ∈ ts, t.kind = .openRound → ranges) :
    ∀ link ∈ later, link.2.Spelled ranges large := by
  induction h with
  | nil => exact fun link hlink => by cases hlink
  | cons hclause _ ih =>
    rintro link (_ | ⟨_, hlink⟩)
    · refine hclause.spelled fun t ht => hround t ?_
      simp [ht]
    · refine ih (fun t ht => hround t ?_) link hlink
      simp [ht]

/-- The text of a token is that of its kind, and stands in the markup. -/
theorem Token.infix_of_scan {markup : String} {tokens : List Token}
    (h : scan markup = .ok tokens) {t : Token} (ht : t ∈ tokens) :
    Fits t.kind t.text.toList ∧ t.text.toList <:+: markup.toList := by
  unfold scan at h
  split at h
  · next ts hscan =>
    cases h
    obtain ⟨htext, hsound, -⟩ := scanAfter_place hscan
    rw [← Placed.map_token_place markup.toList (ts ++ [endOfString])] at ht
    obtain ⟨p, hp, rfl⟩ := List.mem_map.1 ht
    obtain ⟨-, hfits⟩ := hsound.of_mem p hp
    refine ⟨hfits, ?_⟩
    rw [← htext]
    have hchars : p.token.text.toList <:+: p.chars :=
      (List.suffix_append _ _).isInfix
    exact hchars.trans (List.infix_of_mem_flatten (List.mem_map_of_mem hp))
  · cases h

/-- A token that opens a parenthesis stands in the markup. -/
theorem Token.mem_of_openRound {markup : String} {tokens : List Token}
    (h : scan markup = .ok tokens) {t : Token} (ht : t ∈ tokens)
    (hkind : t.kind = .openRound) : '(' ∈ markup.toList := by
  obtain ⟨hfits, hplace⟩ := infix_of_scan h ht
  rw [hkind] at hfits
  exact hplace.subset (hfits ▸ List.mem_singleton.2 rfl)

/-- What the strict grammar reads is spelled. -/
theorem Expr.parseStrict_spelled {markup : String} {e : Expr}
    (hround : '(' ∈ markup.toList → ranges)
    (h : parseStrict markup = .ok e) : e.Spelled ranges large := by
  unfold parseStrict at h
  split at h
  · next hscan =>
    obtain ⟨ts, rfl, hends, -⟩ := Token.spells_of_scan hscan
    refine (derives_of_readTokens h hends).spelled fun t ht hkind => ?_
    exact hround (Token.mem_of_openRound hscan
      (List.mem_append_left _ ht) hkind)
  · cases h

/-- What the strict grammar reads as a condition is spelled. -/
theorem Condition.parseStrict_spelled {markup : String} {c : Condition}
    (hround : '(' ∈ markup.toList → ranges)
    (h : parseStrict markup = .ok c) : c.Spelled ranges large := by
  unfold parseStrict at h
  split at h
  · next hscan =>
    obtain ⟨ts, rfl, hends, -⟩ := Token.spells_of_scan hscan
    have hgranted (t : Token) (ht : t ∈ ts) (hkind : t.kind = .openRound) :
        ranges :=
      hround (Token.mem_of_openRound hscan (List.mem_append_left _ ht) hkind)
    obtain ⟨us, vs, rfl, hclause, hlinked⟩ := derives_of_readTokens h hends
    exact ⟨hclause.spelled fun t ht => hgranted t (List.mem_append_left _ ht),
      hlinked.spelled fun t ht => hgranted t (List.mem_append_right _ ht)⟩
  · cases h

end

-- =============================================================== modes

namespace Mode

variable {ranges large : Prop}

/-- An operand that is read in some mode is spelled. -/
theorem expr_spelled {mode : Mode} {markup : String} {e : Expr}
    (hround : '(' ∈ markup.toList → ranges)
    (h : mode.expr markup = .ok e) : e.Spelled ranges large := by
  rcases verdict_eq_ok h with h | h
  · exact Expr.parseChars_spelled hround h
  · exact Expr.parseStrict_spelled hround h

/-- A condition that is read in some mode is spelled. -/
theorem condition_spelled {mode : Mode} {tag markup : String}
    {c : Condition} (hround : '(' ∈ markup.toList → ranges)
    (h : mode.condition tag markup = .ok c) : c.Spelled ranges large := by
  rcases verdict_eq_ok h with h | h
  · exact Condition.parseLenient_spelled hround h
  · exact Condition.parseStrict_spelled hround h

end Mode

end Stencil
