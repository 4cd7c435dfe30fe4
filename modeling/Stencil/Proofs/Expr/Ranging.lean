/-
Ranges as they are written: two operands in parentheses, two dots between
them, and blanks anywhere around these.

The strict grammar reads the bounds where they stand, so the range is that
between the operands its bounds are alone. The lenient grammar looks for
the bounds without reading them: a bound ends at a blank, and the first
one at two dots. So it finds the same bounds where none holds a blank, and
where the first holds no two dots or a blank keeps the dots behind it
apart from those in it. Then both grammars make the same range of the
bounds, or fail over the same one.
-/
import Stencil.Proofs.Expr.Concord
import Stencil.Proofs.Markup.Joining

namespace Stencil

open Text

/-- A range as it is written: its bounds, and what stands around them. -/
structure RangeText where
  /-- What stands behind the opening parenthesis. -/
  opening : String
  first : String
  /-- What stands in front of the dots. -/
  before : String
  /-- What stands behind the dots. -/
  after : String
  last : String
  /-- What stands in front of the closing parenthesis. -/
  closing : String
  deriving DecidableEq, Repr

namespace RangeText

/-- The markup of a range. -/
def markup (r : RangeText) : String :=
  "(" ++ r.opening ++ r.first ++ r.before ++ ".." ++ r.after ++ r.last ++
    r.closing ++ ")"

/-- Only blanks stand around the bounds. -/
def Spaced (r : RangeText) : Prop :=
  ∀ gap ∈ [r.opening, r.before, r.after, r.closing],
    gap.toList.all Token.isSkipped = true

/-- The bounds can be found without reading them: they hold no blanks, and
the first one holds no two dots unless there is a blank before or after
the dots between the bounds. The same goes for the ranges in the bounds. -/
structure Clear (r : RangeText) : Prop where
  first : IsUnbroken r.first.toList
  last : IsUnbroken r.last.toList
  dots : r.before = "" → r.after = "" → HasNoDots r.first.toList
  inFirst : Placed.RangesClear (Token.places r.first)
  inLast : Placed.RangesClear (Token.places r.last)

variable {r : RangeText} {a b : Expr}

/-- The markup of a range, character by character. -/
theorem toList_markup (r : RangeText) :
    r.markup.toList =
      '(' :: (r.opening.toList ++ r.first.toList ++ r.before.toList) ++
        ['.', '.'] ++ (r.after.toList ++ r.last.toList ++ r.closing.toList) ++
        [')'] := by
  simp [markup, String.toList_append]

-- ============================================================== strict

theorem scanAfter_openRound (previous : Option Token) (rest : List Char) :
    Token.scanAfter previous ('(' :: rest) =
      (Token.scanAfter (some ⟨.openRound, "("⟩) rest).map
        (⟨.openRound, "("⟩ :: ·) := by
  have hmatch : Token.firstMatch? ('(' :: rest) =
      some ⟨.token .openRound, Token.lengthOfWord "("⟩ := rfl
  exact Token.scanAfter_spelled "(" (by decide) hmatch rfl rfl

theorem scanAfter_dotdot (previous : Option Token) (rest : List Char) :
    Token.scanAfter previous ('.' :: '.' :: rest) =
      (Token.scanAfter (some ⟨.dotdot, ".."⟩) rest).map
        (⟨.dotdot, ".."⟩ :: ·) := by
  have hmatch : Token.firstMatch? ('.' :: '.' :: rest) =
      some ⟨.token .dotdot, Token.lengthOfWord ".."⟩ := rfl
  exact Token.scanAfter_spelled ".." (by decide) hmatch rfl rfl

theorem scanAfter_closeRound (previous : Option Token) :
    Token.scanAfter previous [')'] = .ok [⟨.closeRound, ")"⟩] := by
  have hmatch : Token.firstMatch? [')'] =
      some ⟨.token .closeRound, Token.lengthOfWord ")"⟩ := rfl
  have hscan : Token.scanAfter previous [')'] =
      (Token.scanAfter (some ⟨.closeRound, ")"⟩) []).map
        (⟨.closeRound, ")"⟩ :: ·) :=
    Token.scanAfter_spelled ")" (by decide) hmatch rfl rfl
  rw [hscan, Token.scanAfter]
  rfl

/-- The tokens of a range are those of its bounds, and the punctuation. -/
theorem scan_markup (hspaced : r.Spaced)
    (ha : Expr.parseStrict r.first = .ok a)
    (hb : Expr.parseStrict r.last = .ok b) :
    ∃ ts us, Derives (.operand a) ts ∧ Derives (.operand b) us ∧
      Token.scan r.markup = .ok (⟨.openRound, "("⟩ :: (ts ++
        ⟨.dotdot, ".."⟩ :: (us ++ [⟨.closeRound, ")"⟩])) ++
          [.endOfString]) := by
  obtain ⟨us, t, -, hfirst, -, -, hjoin⟩ := Expr.scan_of_parseStrict ha
  obtain ⟨vs, u, -, hlast, -, -, hjoin'⟩ := Expr.scan_of_parseStrict hb
  refine ⟨us ++ [t], vs ++ [u], hfirst, hlast, ?_⟩
  have hgap : ∀ gap ∈ [r.opening, r.before, r.after, r.closing],
      ∀ previous cs, Token.scanAfter previous (gap.toList ++ cs) =
        Token.scanAfter previous cs :=
    fun gap hmem => Token.scanAfter_gap (hspaced gap hmem)
  have hopen : Token.Awaits (some ⟨.openRound, "("⟩) := Token.awaits_some rfl
  have hdots : Token.Awaits (some ⟨.dotdot, ".."⟩) := Token.awaits_some rfl
  have hbefore : ∀ rest, LeavesOperand
      (r.before.toList ++ '.' :: '.' :: rest) := by
    intro rest
    refine LeavesOperand.gap ?_ (hspaced r.before (by simp))
    rintro _ ⟨⟩
    exact Or.inr (Or.inr ⟨rfl, rfl⟩)
  have hclosing : LeavesOperand (r.closing.toList ++ [')']) := by
    refine LeavesOperand.gap ?_ (hspaced r.closing (by simp))
    rintro _ ⟨⟩
    exact Or.inr (Or.inl rfl)
  have hchars : r.markup.toList = '(' :: (r.opening.toList ++
      (r.first.toList ++ (r.before.toList ++ '.' :: '.' ::
        (r.after.toList ++ (r.last.toList ++
          (r.closing.toList ++ [')'])))))) := by
    simp [toList_markup]
  rw [Token.scan, hchars, scanAfter_openRound, hgap _ (by simp),
    hjoin _ _ hopen (hbefore _), hgap _ (by simp), scanAfter_dotdot,
    hgap _ (by simp), hjoin' _ _ hdots hclosing, hgap _ (by simp),
    scanAfter_closeRound]
  simp [Except.map]

open Reader in
/-- The strict grammar makes a range of what it reads the bounds as. -/
theorem parseStrict_markup (hspaced : r.Spaced)
    (ha : Expr.parseStrict r.first = .ok a)
    (hb : Expr.parseStrict r.last = .ok b) :
    Expr.parseStrict r.markup = Expr.between Value.shown a b := by
  obtain ⟨ts, us, hfirst, hlast, hscan⟩ := scan_markup hspaced ha hb
  unfold Expr.parseStrict
  rw [hscan]
  dsimp only
  generalize htokens : (⟨.openRound, "("⟩ :: (ts ++
    ⟨.dotdot, ".."⟩ :: (us ++ [⟨.closeRound, ")"⟩])) : List Token) = tokens
  have hs := Cursor.rest_ofTokens r.markup (tokens ++ [.endOfString])
  generalize hcursor : Cursor.ofTokens r.markup (tokens ++ [.endOfString]) = s
    at hs
  have hs' : s.rest = ⟨.openRound, "("⟩ :: (ts ++
      ⟨.dotdot, ".."⟩ :: (us ++ ⟨.closeRound, ")"⟩ :: [.endOfString])) := by
    rw [hs, ← htokens]
    simp
  have hrest := Cursor.advance_rest_eq hs'
  have hlength : ts.length < s.tokens.length ∧
      us.length < s.tokens.length := by
    have hle := length_le_of_rest (hs'.trans (List.append_nil _).symm)
    simp only [List.length_cons, List.length_append] at hle
    omega
  have hread : operand s.tokens.length s.advance = _ :=
    hfirst.readTo hrest hlength.1 (endsPath_cons (by decide) _ _)
  have hread' : operand s.tokens.length (s.advance.past ts).advance = _ :=
    hlast.readTo (Cursor.advance_rest_eq (Cursor.rest_past hrest)) hlength.2
      (endsPath_cons (by decide) _ _)
  have hrange : expression s =
      (Expr.between Value.shown a b, s.past tokens) := by
    rw [expression, budget_bind, operand_range hs' hread hread', htokens]
  rw [Expr.readTokens, hcursor, bind_apply, hrange]
  cases Expr.between Value.shown a b with
  | error f => rfl
  | ok e =>
    dsimp only
    rw [expect_bind_of_rest (Cursor.rest_past hs)]
    rfl

-- ============================================================= lenient

/-- Around an unbroken text there is nothing. -/
theorem gaps_of_unbroken {before cs after : List Char}
    (h : IsUnbroken (before ++ cs ++ after))
    (hbefore : before.all isBlank = true)
    (hafter : after.all isBlank = true) : before = [] ∧ after = [] := by
  have hnil : ∀ gap : List Char, gap.all isBlank = true →
      gap.any isBlank = false → gap = [] := by
    intro gap hall hany
    cases gap with
    | nil => rfl
    | cons c gap =>
      have hc := List.all_eq_true.1 hall c (List.mem_cons_self ..)
      simp [hc] at hany
  simp only [IsUnbroken, List.any_append, Bool.or_eq_false_iff] at h
  exact ⟨hnil _ hbefore h.1.1, hnil _ hafter h.2⟩

/-- An unbroken operand is written as it stands. -/
theorem written_of_unbroken {text : String} {e : Expr}
    (h : Expr.parseStrict text = .ok e) (hunbroken : IsUnbroken text.toList)
    (hclear : Placed.RangesClear (Token.places text)) :
    Written true (.operand e) text.toList := by
  obtain ⟨before, cs, after, htext, hbefore, hafter, hwritten⟩ :=
    Expr.exists_written h hclear
  rw [htext] at hunbroken ⊢
  obtain ⟨rfl, rfl⟩ := gaps_of_unbroken hunbroken hbefore hafter
  simpa using hwritten

/-- Between blanks, the lenient grammar finds clear bounds. -/
theorem form_markup (hspaced : r.Spaced) (hclear : r.Clear)
    (hfirst : Written true (.operand a) r.first.toList)
    (hlast : Written true (.operand b) r.last.toList) :
    Expr.Form.of r.markup.toList = .range r.first.toList r.last.toList := by
  have hblank : ∀ gap ∈ [r.opening, r.before, r.after, r.closing],
      gap.toList.all isBlank = true := by
    intro gap hmem
    refine List.all_eq_true.2 fun c hc => isBlank_of_isSkipped ?_
    exact List.all_eq_true.1 (hspaced gap hmem) c hc
  have hempty : ∀ s : String, s.toList = [] → s = "" :=
    fun s hs => String.toList_inj.1 hs
  obtain ⟨hend, hedges⟩ := hfirst.edges
  obtain ⟨hne, hstart⟩ := hedges a rfl
  obtain ⟨hend', hedges'⟩ := hlast.edges
  obtain ⟨hne', hstart'⟩ := hedges' b rfl
  have hbounds := Expr.bounds?_written (hblank r.opening (by simp))
    (hblank r.before (by simp)) (hblank r.after (by simp))
    (hblank r.closing (by simp)) hclear.first
    (fun h₂ h₃ => hclear.dots (hempty _ h₂) (hempty _ h₃)) hclear.last
    ⟨hne, hstart, hend⟩ ⟨hne', hstart', hend'⟩
  have htrim : trim r.markup.toList = r.markup.toList := by
    have hedge : StartsSolid r.markup.toList ∧ EndsSolid r.markup.toList := by
      rw [toList_markup]
      refine ⟨?_, endsSolid_snoc _ (by decide)⟩
      rintro _ ⟨⟩
      decide
    have hne : r.markup.toList ≠ [] := by simp [toList_markup]
    have htrim : trim ([] ++ r.markup.toList ++ []) = r.markup.toList :=
      trim_of_edges rfl hne hedge.1 hedge.2 rfl
    rwa [List.nil_append, List.append_nil] at htrim
  rw [← toList_markup] at hbounds
  rw [Expr.Form.of, htrim, Expr.ofTrimmed_of_bounds hbounds]

/-- Both grammars make the same range of clear bounds, or fail over the
same bound. -/
theorem parse_markup (hspaced : r.Spaced) (hclear : r.Clear)
    (ha : Expr.parseStrict r.first = .ok a)
    (hb : Expr.parseStrict r.last = .ok b) :
    Expr.parse r.markup = Expr.parseStrict r.markup ∧
      Expr.parseStrict r.markup = Expr.between Value.shown a b := by
  have hfirst := written_of_unbroken ha hclear.first hclear.inFirst
  have hlast := written_of_unbroken hb hclear.last hclear.inLast
  have hread := hfirst.means [] [] rfl rfl
  have hread' := hlast.means [] [] rfl rfl
  rw [List.nil_append, List.append_nil] at hread hread'
  have hstrict := parseStrict_markup hspaced ha hb
  refine ⟨?_, hstrict⟩
  rw [hstrict, Expr.parse, Expr.parseChars_eq,
    form_markup hspaced hclear hfirst hlast]
  dsimp only
  rw [hread, hread']
  rfl

/-- A blank keeps the dots in a key apart from those between the bounds. -/
theorem parse_markup_key :
    Expr.parse "(a['b..c'] ..\t-2)" = Expr.parseStrict "(a['b..c'] ..\t-2)" ∧
      Expr.parseStrict "(a['b..c'] ..\t-2)" = .ok (.range
        (.path (.step (.root (.const (.text "a"))) (.const (.text "b..c"))
          none)) (.const (.int (-2)))) := by
  have ha : Expr.parseStrict "a['b..c']" = .ok (.path
      (.step (.root (.const (.text "a"))) (.const (.text "b..c")) none)) := by
    decide +kernel
  have hb : Expr.parseStrict "-2" = .ok (.const (.int (-2))) := by
    decide +kernel
  have hclear : ∀ text, (∀ p ∈ Token.places text, p.token.kind ≠ .openRound) →
      Placed.RangesClear (Token.places text) :=
    fun _ => Placed.rangesClear_of_kinds
  exact parse_markup (r := ⟨"", "a['b..c']", " ", "\t", "-2", ""⟩)
    (by unfold Spaced; decide)
    ⟨by unfold IsUnbroken; decide, by unfold IsUnbroken; decide,
      fun hbefore => absurd hbefore (by decide),
      hclear _ (by decide +kernel), hclear _ (by decide +kernel)⟩
    ha hb

/-- Without a blank, the dots in the quotes are taken for those between the
bounds. -/
theorem exists_parse_markup_ne :
    ∃ r : RangeText, ∃ a b e, r.Spaced ∧
      Expr.parseStrict r.first = .ok a ∧ Expr.parseStrict r.last = .ok b ∧
      Expr.parseStrict r.markup = .ok e ∧ Expr.parse r.markup ≠ .ok e := by
  refine ⟨⟨"", "'a..b'", "", "", "2", ""⟩, .const (.text "a..b"),
    .const (.int 2), .const (.range 0 3), by unfold Spaced; decide,
    by decide +kernel, by decide +kernel, by decide +kernel, ?_⟩
  decide +kernel

end RangeText

end Stencil
