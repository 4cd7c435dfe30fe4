/-
Conditions that can be read back from their text.

The text of a condition is its clauses with their linking words between
them, and single blanks around everything. A condition has one as long as
its integers have few enough digits. Both grammars get back from it what it
was made from, as far as its operands are plain and no operand is a lone
linking word, which neither grammar could tell from one that links.

For the lenient grammar every operand, operator and linking word is one
piece, since each ends in front of a blank. For the strict grammar the
tokens of the clauses follow one another, and the word `contains` compares
exactly where an operand stands in front of it. Each clause gives the two
grammars what they need (`Clause.Legible`), and one induction along the
links does it for the chain.
-/
import Stencil.Proofs.Condition.Concord
import Stencil.Proofs.Expr.Legibility
import Stencil.Proofs.Markup.Acceptance

namespace Stencil

open Text

-- ============================================================= erasing

/-- A clause without the command hints of its paths. -/
def Clause.erase : Clause → Clause
  | .compare left operator right =>
    .compare left.erase operator right.erase
  | .otherwise => .otherwise

/-- A condition without the command hints of its paths. -/
def Condition.erase (c : Condition) : Condition :=
  ⟨c.head.erase, c.tail.map fun l => (l.1, l.2.erase)⟩

-- =============================================================== plain

/-- An operand of a condition that its text shows: it is plain, and no
lone linking word. -/
def Expr.PlainOperand (e : Expr) : Prop :=
  e.Plain ∧ ∀ r : Relation, e ≠ .path (.root (.const (.text r.word)))

/-- A clause of plain operands. Without an operator it has only one. -/
def Clause.Plain : Clause → Prop
  | .compare left none right => left.PlainOperand ∧ right = .const .nil
  | .compare left (some _) right => left.PlainOperand ∧ right.PlainOperand
  | .otherwise => False

/-- A condition of plain clauses. -/
def Condition.Plain (c : Condition) : Prop :=
  c.head.Plain ∧ ∀ l ∈ c.tail, l.2.Plain

-- ============================================================= operands

/-- Only a name is written as a linking word. -/
theorem Written.eq_word {loose : Bool} {e : Expr} {cs : List Char}
    (h : Written loose (.operand e) cs)
    (hword : relationWords.contains (String.ofList cs) = true) :
    e = .path (.root (.const (.text (String.ofList cs)))) := by
  have hletters : ∀ c ∈ cs, isWord c = true ∧ isDigit c = false := by
    intro c hc
    apply isWord_of_relation hword
    rwa [String.toList_ofList]
  cases h with
  | literal _ hv =>
    rcases List.mem_cons.1 (List.contains_iff_mem.1 hword) with heq | hmem
    · rw [heq] at hv
      cases hv
    · rw [List.mem_singleton.1 hmem] at hv
      cases hv
  | @name _ word more p hname _ hsteps =>
    cases more with
    | nil =>
      rw [List.append_nil]
      generalize hcs : ([] : List Char) = cs at hsteps
      cases hsteps with
      | done => rfl
      | key => simp at hcs
      | index => simp at hcs
    | cons c more =>
      have hc := (hletters c (by simp)).1
      rcases hsteps.head_steps c rfl with hblank | rfl | rfl
      · have hdashed := isDashedWord_of_isBlank hblank
        simp [isDashedWord, hc] at hdashed
      · exact absurd hc (by decide)
      · exact absurd hc (by decide)
  | bracketed =>
    exact absurd (hletters '[' (List.mem_cons_self ..)).1 (by decide)
  | @string _ q body hq =>
    have hc := (hletters q (List.mem_cons_self ..)).1
    rcases hq with rfl | rfl
    · exact absurd hc (by decide)
    · exact absurd hc (by decide)
  | number hnumeral _ =>
    obtain ⟨minus, whole, part, rfl, -, hwhole, -⟩ := hnumeral
    obtain ⟨hne, hall⟩ := Bool.and_eq_true_iff.1 hwhole
    cases whole with
    | nil => cases hne
    | cons d ds =>
      have hdigit := (Bool.and_eq_true_iff.1 hall).1
      exact absurd hdigit (by simp [(hletters d (by simp)).2])
  | range =>
    exact absurd (hletters '(' (by simp)).1 (by decide)

/-- An operand that is no lone linking word is not written as one. -/
theorem Expr.PlainOperand.not_word {e : Expr} (h : e.PlainOperand)
    {cs : List Char} (hcs : e.erase.Legible cs) :
    relationWords.contains (String.ofList cs) = false := by
  cases hword : relationWords.contains (String.ofList cs) with
  | false => rfl
  | true =>
    have herase := (hcs.written false).eq_word hword
    obtain ⟨r, hr⟩ : ∃ r : Relation, String.ofList cs = r.word := by
      rcases List.mem_cons.1 (List.contains_iff_mem.1 hword) with heq | hmem
      · exact ⟨.and, heq⟩
      · exact ⟨.or, List.mem_singleton.1 hmem⟩
    rw [hr] at herase
    cases e with
    | path p =>
      have hp := Path.eq_of_erase_root (Expr.path.inj herase)
      exact absurd (congrArg Expr.path hp) (h.2 r)
    | _ => cases herase

-- ============================================================== pieces

/-- Outside brackets a text ends in front of nothing, or of a blank. -/
def EndsClauseText (rest : List Char) : Prop :=
  rest = [] ∨ ∃ more, rest = ' ' :: more

theorem EndsClauseText.isBorder {rest : List Char}
    (h : EndsClauseText rest) : IsBorder rest := by
  intro c hc
  rcases h with rfl | ⟨more, rfl⟩
  · cases hc
  · obtain rfl := Option.some.inj hc
    exact Or.inl (by decide)

theorem EndsClauseText.endsWord {rest : List Char}
    (h : EndsClauseText rest) : Token.EndsWord rest := by
  intro c hc
  rcases h with rfl | ⟨more, rfl⟩
  · cases hc
  · exact Or.inl (Option.some.inj hc).symm

namespace Fragment

/-- One blank is no part of any piece. -/
theorem scan_space (rest : List Char) : scan (' ' :: rest) = scan rest := by
  have hblank : [' '].all isBlank = true := rfl
  exact scan_gap hblank rest

/-- A legible operand that is no linking word is one piece. -/
theorem scan_legible {e : Expr} {cs rest : List Char} (h : e.Legible cs)
    (hword : relationWords.contains (String.ofList cs) = false)
    (hrest : IsBorder rest) :
    scan (cs ++ rest) = ⟨.operand, cs⟩ :: scan rest := by
  have hwritten := h.written false
  have hkind : ofOperand cs = ⟨.operand, cs⟩ := by
    rw [ofOperand, if_neg (by rw [hword]; exact Bool.false_ne_true)]
  rw [← hkind]
  exact scan_operand (hwritten.edges.2 e rfl).1
    (hwritten.tracked tracks fun h => Bool.noConfusion h) hrest

/-- An operator between blanks is one piece, and no linking word. -/
theorem scan_operator_text (op : Operator) :
    ∃ kind : FragmentKind, kind ≠ .keyword ∧
      ∀ rest, scan (op.text.toList ++ ' ' :: rest) =
        ⟨kind, op.text.toList⟩ :: scan rest := by
  have hsign : op.text ∈ Token.comparisonWords → ∀ rest,
      scan (op.text.toList ++ ' ' :: rest) =
        ⟨.operator, op.text.toList⟩ :: scan rest := by
    intro hmem rest
    obtain ⟨hne, hsigns⟩ := isOperatorChar_of_comparison hmem
    rw [scan_operator hne hsigns, scan_space]
    intro c hc
    obtain rfl := Option.some.inj hc
    decide
  cases op with
  | contains =>
    refine ⟨.operand, by decide, fun rest => ?_⟩
    have hborder : IsBorder (' ' :: rest) :=
      EndsClauseText.isBorder (Or.inr ⟨rest, rfl⟩)
    have hpass := tracks.solid 0 Token.isName_contains.isSolid
    rw [← scan_space rest]
    exact scan_operand (by decide) hpass hborder
  | order direction =>
    refine ⟨.operator, by decide, hsign ?_⟩
    cases direction <;> decide
  | _ => exact ⟨.operator, by decide, hsign (by decide)⟩

end Fragment

-- ============================================================= clauses

open Token in
/-- A text that both grammars read as a clause: it is cut into pieces that
make the clause, and scanned into tokens that derive it. -/
structure Clause.Legible (clause : Clause) (cs : List Char) : Prop where
  solid : ∃ c more, cs = c :: more ∧ isBlank c = false
  pieces : ∃ fs, (∀ f ∈ fs, f.kind ≠ .keyword) ∧
    (∀ tag markup, Condition.clauseOf tag markup fs = .ok clause) ∧
    ∀ rest, EndsClauseText rest →
      Fragment.scan (cs ++ rest) = fs ++ Fragment.scan rest
  scanned : ∃ ts last, DerivesClause clause ts ∧
    ∀ previous rest, Awaits previous → EndsClauseText rest →
      scanAfter previous (cs ++ rest) =
        (scanAfter (some last) rest).map (ts ++ ·)

/-- A legible operand starts with no blank. -/
theorem Expr.Legible.solid {e : Expr} {cs : List Char} (h : e.Legible cs) :
    ∃ c more, cs = c :: more ∧ isBlank c = false := by
  obtain ⟨hne, hstart⟩ := (h.written false).edges.2 e rfl
  obtain ⟨c, more, rfl⟩ := List.exists_cons_of_ne_nil hne
  exact ⟨c, more, rfl, hstart c rfl⟩

/-- In front of what starts with no blank, a blank is skipped. -/
theorem Token.scanAfter_space_of_solid {previous : Option Token}
    {cs rest : List Char}
    (h : ∃ c more, cs = c :: more ∧ isBlank c = false) :
    scanAfter previous (' ' :: (cs ++ rest)) =
      scanAfter previous (cs ++ rest) := by
  obtain ⟨c, more, rfl, hc⟩ := h
  apply scanAfter_space
  intro d hd
  obtain rfl := Option.some.inj hd
  cases hskip : isSkipped c with
  | false => rfl
  | true => exact absurd (isBlank_of_isSkipped hskip) (by simp [hc])

/-- A legible operand is a legible clause. -/
theorem Clause.legible_single {e : Expr} {cs : List Char}
    (h : e.Legible cs)
    (hword : relationWords.contains (String.ofList cs) = false) :
    (Clause.single e).Legible cs where
  solid := h.solid
  pieces := by
    refine ⟨[⟨.operand, cs⟩], by simp, ?_, fun rest hrest =>
      Fragment.scan_legible h hword hrest.isBorder⟩
    intro tag markup
    have hmeans := (h.written false).means [] [] rfl rfl
    rw [List.nil_append, List.append_nil] at hmeans
    show (do return Clause.single (← Expr.parseChars cs) :
      Except Failure Clause) = _
    rw [hmeans]
    rfl
  scanned := by
    obtain ⟨ts, last, hderive, -, hscan⟩ := h.scanned
    exact ⟨ts, last, .single hderive, fun previous rest hprevious hrest =>
      hscan previous rest hprevious hrest.endsWord⟩

/-- Two legible operands with an operator between them are a legible
clause. -/
theorem Clause.legible_compare {left right : Expr} {cs ds : List Char}
    (op : Operator) (hleft : left.Legible cs) (hright : right.Legible ds)
    (hword : relationWords.contains (String.ofList cs) = false)
    (hword' : relationWords.contains (String.ofList ds) = false) :
    (Clause.compare left (some op) right).Legible
      (cs ++ ' ' :: (op.text.toList ++ ' ' :: ds)) where
  solid := by
    obtain ⟨c, more, rfl, hc⟩ := hleft.solid
    exact ⟨c, _, rfl, hc⟩
  pieces := by
    obtain ⟨kind, hkind, hscan⟩ := Fragment.scan_operator_text op
    refine ⟨[⟨.operand, cs⟩, ⟨kind, op.text.toList⟩, ⟨.operand, ds⟩],
      by simp [hkind], ?_, ?_⟩
    · intro tag markup
      have hmeans := (hleft.written false).means [] [] rfl rfl
      have hmeans' := (hright.written false).means [] [] rfl rfl
      rw [List.nil_append, List.append_nil] at hmeans hmeans'
      have hoperator : Condition.operatorOf ⟨kind, op.text.toList⟩ =
          .ok op := by
        rw [Condition.operatorOf, String.ofList_toList, Operator.ofText?_text]
      show (do
        let left ← Expr.parseChars cs
        let right ← Expr.parseChars ds
        let op ← Condition.operatorOf ⟨kind, op.text.toList⟩
        return .compare left (some op) right : Except Failure Clause) = _
      rw [hmeans, hmeans', hoperator]
      rfl
    · intro rest hrest
      have hborder : EndsClauseText
          (' ' :: (op.text.toList ++ ' ' :: (ds ++ rest))) := Or.inr ⟨_, rfl⟩
      calc Fragment.scan (cs ++ ' ' :: (op.text.toList ++ ' ' :: ds) ++ rest)
          = Fragment.scan (cs ++
              ' ' :: (op.text.toList ++ ' ' :: (ds ++ rest))) := by simp
        _ = ⟨.operand, cs⟩ :: ⟨kind, op.text.toList⟩ ::
              Fragment.scan (ds ++ rest) := by
            rw [Fragment.scan_legible hleft hword hborder.isBorder,
              Fragment.scan_space, hscan]
        _ = _ := by
            rw [Fragment.scan_legible hright hword' hrest.isBorder]
            rfl
  scanned := by
    obtain ⟨ts, last, hderive, hends, hscan⟩ := hleft.scanned
    obtain ⟨us, last', hderive', -, hscan'⟩ := hright.scanned
    refine ⟨ts ++ ⟨.comparison, op.text⟩ :: us, last',
      .compare hderive op.ofText?_text hderive', ?_⟩
    intro previous rest hprevious hrest
    have hborder : EndsClauseText
        (' ' :: (op.text.toList ++ ' ' :: (ds ++ rest))) := Or.inr ⟨_, rfl⟩
    have hawaits : Token.Awaits (some ⟨.comparison, op.text⟩) :=
      Token.awaits_some rfl
    have hsolid : ∃ c more, op.text.toList = c :: more ∧
        isBlank c = false := by
      cases op with
      | order direction => cases direction <;> exact ⟨_, _, rfl, by decide⟩
      | _ => exact ⟨_, _, rfl, by decide⟩
    calc Token.scanAfter previous
          (cs ++ ' ' :: (op.text.toList ++ ' ' :: ds) ++ rest)
        = Token.scanAfter previous
            (cs ++ ' ' :: (op.text.toList ++ ' ' :: (ds ++ rest))) := by simp
      _ = (Token.scanAfter (some last)
            (op.text.toList ++ ' ' :: (ds ++ rest))).map (ts ++ ·) := by
          rw [hscan previous _ hprevious hborder.endsWord,
            Token.scanAfter_space_of_solid hsolid]
      _ = _ := by
          rw [Token.scanAfter_operator (hends hword),
            Token.scanAfter_space_of_solid hright.solid,
            hscan' _ rest hawaits hrest.endsWord]
          cases Token.scanAfter (some last') rest with
          | error c => rfl
          | ok zs => simp [Except.map]

/-- The text of a plain clause that can be written is legible. -/
theorem Clause.Plain.legible {print : Value → String}
    (hprint : Prints print) {clause : Clause} (h : clause.Plain)
    (hw : clause.isWritable Value.isWritable = true) :
    clause.erase.Legible (clause.text print).toList := by
  cases clause with
  | otherwise => cases h
  | compare left operator right =>
    cases operator with
    | none =>
      obtain ⟨hleft, rfl⟩ := h
      have hlegible := hleft.1.legible hprint (Bool.and_eq_true_iff.1 hw).1
      exact legible_single hlegible (hleft.not_word hlegible)
    | some op =>
      obtain ⟨hleft, hright⟩ := h
      obtain ⟨hw, hw'⟩ := Bool.and_eq_true_iff.1 hw
      have hlegible := hleft.1.legible hprint hw
      have hlegible' := hright.1.legible hprint hw'
      have htext : ((Clause.compare left (some op) right).text
          print).toList = (left.wording print).toList ++
            ' ' :: (op.text.toList ++
              ' ' :: (right.wording print).toList) := by
        show (left.wording print ++ " " ++ op.text ++ " " ++
          right.wording print).toList = _
        simp
      rw [htext]
      exact legible_compare op hlegible hlegible' (hleft.not_word hlegible)
        (hright.not_word hlegible')

-- ============================================================== chains

/-- The text of what is linked to a clause. -/
def linkedText (print : Value → String) (tail : List (Relation × Clause)) :
    List Char :=
  tail.flatMap fun l =>
    ' ' :: (l.1.word.toList ++ ' ' :: (l.2.text print).toList)

/-- The text of a condition is that of its first clause and of what is
linked to it. -/
theorem Condition.toList_text {print : Value → String} {c : Condition}
    (h : c.isOtherwise = false) :
    (c.text print).toList =
      (c.head.text print).toList ++ linkedText print c.tail := by
  have hjoin : ∀ (cs : List Char) (parts : List (List Char)),
      [' '].intercalate (cs :: parts) = cs ++ parts.flatMap (' ' :: ·) := by
    intro cs parts
    induction parts generalizing cs with
    | nil => simp [List.intercalate_singleton]
    | cons ds parts ih =>
      rw [List.intercalate_cons_cons, ih]
      simp
  rw [Condition.text, h, if_neg Bool.false_ne_true,
    String.toList_intercalate, Condition.links]
  simp only [List.map_cons, List.map_map]
  show [' '].intercalate _ = _
  rw [hjoin, linkedText, List.flatMap_map]
  congr 2
  funext l
  simp

theorem endsClauseText_linkedText (print : Value → String)
    (tail : List (Relation × Clause)) :
    EndsClauseText (linkedText print tail) := by
  cases tail with
  | nil => exact Or.inl rfl
  | cons l tail => exact Or.inr ⟨_, rfl⟩

/-- A linking word between blanks is one piece. -/
theorem Fragment.scan_relation_text (r : Relation) (rest : List Char) :
    scan (r.word.toList ++ ' ' :: rest) =
      ⟨.keyword, r.word.toList⟩ :: scan rest := by
  have hname : r.word.toList.all isDashedWord = true := by
    cases r <;> decide
  have hpass := tracks.solid 0 (isSolid_of_all hname)
  have hborder : IsBorder (' ' :: rest) :=
    EndsClauseText.isBorder (Or.inr ⟨rest, rfl⟩)
  have hkind : ofOperand r.word.toList = ⟨.keyword, r.word.toList⟩ := by
    cases r <;> decide
  have hne : r.word.toList ≠ [] := by
    cases r <;> decide
  rw [← hkind, ← scan_space rest]
  exact scan_operand hne hpass hborder

/-- A linking word between blanks is a name, whatever stands in front. -/
theorem Token.scanAfter_relation_text (previous : Option Token)
    (r : Relation) (rest : List Char) :
    scanAfter previous (' ' :: (r.word.toList ++ ' ' :: rest)) =
      (scanAfter (some ⟨.id, r.word⟩) (' ' :: rest)).map
        (⟨.id, r.word⟩ :: ·) := by
  have hname : IsName r.word.toList := by
    cases r with
    | and => exact ⟨'a', ['n', 'd'], [], rfl, by decide, by decide,
        by decide, Or.inl rfl⟩
    | or => exact ⟨'o', ['r'], [], rfl, by decide, by decide, by decide,
        Or.inl rfl⟩
  have hsolid : ∃ c more, r.word.toList = c :: more ∧
      isBlank c = false := by
    cases r <;> exact ⟨_, _, rfl, by decide⟩
  have hends : EndsWord (' ' :: rest) :=
    EndsClauseText.endsWord (Or.inr ⟨rest, rfl⟩)
  have hother : r.word.toList = "contains".toList → Awaits previous := by
    cases r <;> exact fun h => absurd h (by decide)
  rw [scanAfter_space_of_solid hsolid, scanAfter_name hname hends hother,
    String.ofList_toList]

section

variable {print : Value → String}

/-- The linked clauses of plain conditions are cut apart and put together
again. -/
theorem Condition.splitClauses_linkedText (hprint : Prints print)
    {tail : List (Relation × Clause)} (h : ∀ l ∈ tail, l.2.Plain)
    (hw : ∀ l ∈ tail, l.2.isWritable Value.isWritable = true) :
    ∃ laters, splitClauses (Fragment.scan (linkedText print tail)) =
        ([], laters) ∧
      ∀ tag markup first head, clauseOf tag markup first = .ok head →
        assemble (clauseOf tag markup) first laters =
          .ok ⟨head, tail.map fun l => (l.1, l.2.erase)⟩ := by
  induction tail with
  | nil =>
    refine ⟨[], ?_, fun tag markup first head hhead => ?_⟩
    · show splitClauses (Fragment.scan []) = _
      rw [Fragment.scan]
      rfl
    · rw [assemble, hhead]
      rfl
  | cons l tail ih =>
    obtain ⟨hl, htail⟩ := List.forall_mem_cons.1 h
    obtain ⟨hlw, htailw⟩ := List.forall_mem_cons.1 hw
    obtain ⟨laters, hsplit, hassemble⟩ := ih htail htailw
    obtain ⟨fs, hkinds, hclause, hscan⟩ := (hl.legible hprint hlw).pieces
    have hpieces := hscan _ (endsClauseText_linkedText print tail)
    refine ⟨(l.1, fs) :: laters, ?_, fun tag markup first head hhead => ?_⟩
    · calc splitClauses (Fragment.scan (linkedText print (l :: tail)))
          = splitClauses (Fragment.scan (' ' :: (l.1.word.toList ++
              ' ' :: ((l.2.text print).toList ++
                linkedText print tail)))) := by simp [linkedText]
        _ = ([], (l.1, fs) :: laters) := by
            rw [Fragment.scan_space, Fragment.scan_relation_text,
              splitClauses_keyword, hpieces, splitClauses_append hkinds,
              hsplit, List.append_nil]
    · rw [assemble, hassemble tag markup fs _ (hclause tag markup), hhead]
      rfl

/-- The linked clauses of plain conditions are scanned into tokens that
derive them. -/
theorem Token.scanAfter_linkedText (hprint : Prints print)
    {tail : List (Relation × Clause)} (h : ∀ l ∈ tail, l.2.Plain)
    (hw : ∀ l ∈ tail, l.2.isWritable Value.isWritable = true) :
    ∃ ts, DerivesLinked (tail.map fun l => (l.1, l.2.erase)) ts ∧
      ∀ previous, scanAfter previous (linkedText print tail) = .ok ts := by
  induction tail with
  | nil =>
    refine ⟨[], .nil, fun previous => ?_⟩
    show scanAfter previous [] = _
    rw [scanAfter]
  | cons l tail ih =>
    obtain ⟨hl, htail⟩ := List.forall_mem_cons.1 h
    obtain ⟨hlw, htailw⟩ := List.forall_mem_cons.1 hw
    obtain ⟨us, hlinked, hrest⟩ := ih htail htailw
    have hlegible := hl.legible hprint hlw
    obtain ⟨ts, last, hderive, hscan⟩ := hlegible.scanned
    have hawaits : Awaits (some ⟨.id, l.1.word⟩) := by
      refine awaits_some ?_
      cases l.1 <;> rfl
    have htokens := hscan _ _ hawaits (endsClauseText_linkedText print tail)
    refine ⟨⟨.id, l.1.word⟩ :: (ts ++ us), .cons hderive hlinked,
      fun previous => ?_⟩
    calc scanAfter previous (linkedText print (l :: tail))
        = scanAfter previous (' ' :: (l.1.word.toList ++
            ' ' :: ((l.2.text print).toList ++
              linkedText print tail))) := by simp [linkedText]
      _ = .ok (⟨.id, l.1.word⟩ :: (ts ++ us)) := by
          rw [scanAfter_relation_text,
            scanAfter_space_of_solid hlegible.solid, htokens, hrest]
          rfl

end

-- =========================================================== read back

mutual

/-- Of a plain path only the integers can be in the way of writing it. -/
theorem Path.Plain.isWritable_eq (store : Store) :
    (p : Path) → p.Plain →
    p.isWritable store.isWritable = p.isWritable Value.isWritable
  | .root (.const (.text _)), _ => rfl
  | .step p key _, h => by
    rw [Path.isWritable, Path.Plain.isWritable_eq store p h.1,
      Expr.PlainKey.isWritable_eq store key h.2, Path.isWritable]

/-- Of a plain key only the integers can be in the way of writing it. -/
theorem Expr.PlainKey.isWritable_eq (store : Store) :
    (key : Expr) → key.PlainKey →
    key.isWritable store.isWritable = key.isWritable Value.isWritable
  | .const (.text _), _ | .const (.int _), _ | .const .nil, _
  | .const (.bool _), _ => rfl
  | .path p, h => Path.Plain.isWritable_eq store p h.1

end

/-- Of a plain operand only the integers can be in the way of writing
it. -/
theorem Expr.Plain.isWritable_eq {e : Expr} (h : e.Plain) (store : Store) :
    e.isWritable store.isWritable = e.isWritable Value.isWritable := by
  cases e with
  | const v =>
    cases v with
    | nil | bool | probe | int | text => rfl
    | _ => cases h
  | path p => exact Path.Plain.isWritable_eq store p h.1
  | range => cases h

/-- Of a plain clause only the integers can be in the way of writing
it. -/
theorem Clause.Plain.isWritable_eq {clause : Clause} (h : clause.Plain)
    (store : Store) :
    clause.isWritable store.isWritable =
      clause.isWritable Value.isWritable := by
  cases clause with
  | otherwise => cases h
  | compare left operator right =>
    cases operator with
    | none =>
      show (left.isWritable _ && true) = (left.isWritable _ && true)
      rw [h.1.1.isWritable_eq store]
    | some op =>
      show (left.isWritable _ && right.isWritable _) =
        (left.isWritable _ && right.isWritable _)
      rw [h.1.1.isWritable_eq store, h.2.1.isWritable_eq store]

namespace Condition

/-- A plain condition belongs to no `else` branch. -/
theorem Plain.isOtherwise_eq {c : Condition} (h : c.Plain) :
    c.isOtherwise = false := by
  obtain ⟨head, tail⟩ := c
  cases head with
  | compare => rfl
  | otherwise => cases h.1

/-- The text of a plain condition whose integers can be written is read
back by both grammars, as the condition without its command hints. -/
theorem Plain.parse_eq {print : Value → String} (hprint : Prints print)
    {c : Condition} (h : c.Plain)
    (hw : c.isWritable Value.isWritable = true) (tag : String) :
    parseLenient tag (c.text print) = .ok c.erase ∧
      parseStrict (c.text print) = .ok c.erase := by
  have htext : (c.text print).toList = _ := toList_text h.isOtherwise_eq
  have hends := endsClauseText_linkedText print c.tail
  obtain ⟨hhead, htail⟩ : c.head.isWritable Value.isWritable = true ∧
      ∀ l ∈ c.tail, l.2.isWritable Value.isWritable = true := by
    simpa [isWritable, h.isOtherwise_eq, links] using hw
  have hlegible := h.1.legible hprint hhead
  constructor
  · obtain ⟨fs, hkinds, hclause, hpieces⟩ := hlegible.pieces
    obtain ⟨laters, hsplit, hassemble⟩ :=
      splitClauses_linkedText hprint h.2 htail
    rw [parseLenient, htext, hpieces _ hends, splitClauses_append hkinds,
      hsplit, List.append_nil]
    exact hassemble tag _ fs _ (hclause tag _)
  · obtain ⟨ts, last, hderive, hscan⟩ := hlegible.scanned
    obtain ⟨us, hlinked, hrest⟩ :=
      Token.scanAfter_linkedText hprint h.2 htail
    have htokens : Token.scan (c.text print) =
        .ok (ts ++ us ++ [.endOfString]) := by
      rw [Token.scan, htext, hscan none _ Token.awaits_none hends, hrest]
      rfl
    rw [parseStrict, htokens]
    exact readTokens_of_derives ⟨ts, us, rfl, hderive, hlinked⟩

/-- A plain condition has a text exactly when its integers can be written,
and both grammars read the text back, for every tag, as the condition
without its command hints. -/
theorem parse_text {c : Condition} (h : c.Plain) (store : Store)
    (tag : String) :
    (c.isWritable Value.isWritable = true →
      ∃ text, store.conditionText c = .ok text ∧
        parseLenient tag text = .ok c.erase ∧
        parseStrict text = .ok c.erase) ∧
    (c.isWritable Value.isWritable = false →
      store.conditionText c = .error .tooManyDigits) := by
  have hstore : c.isWritable store.isWritable =
      c.isWritable Value.isWritable := by
    have hlinks : ∀ l ∈ c.links, l.2.isWritable store.isWritable =
        l.2.isWritable Value.isWritable := by
      intro l hl
      rcases List.mem_cons.1 hl with rfl | hl
      · exact h.1.isWritable_eq store
      · obtain ⟨l', hl', rfl⟩ := List.mem_map.1 hl
        exact (h.2 l' hl').isWritable_eq store
    have hall : (c.links.all fun l => l.2.isWritable store.isWritable) =
        c.links.all fun l => l.2.isWritable Value.isWritable := by
      rw [Bool.eq_iff_iff, List.all_eq_true, List.all_eq_true]
      exact forall₂_congr fun l hl => by rw [hlinks l hl]
    rw [isWritable, isWritable, hall]
  rw [Store.conditionText, hstore]
  constructor
  · intro hw
    rw [hw]
    exact ⟨_, rfl, h.parse_eq store.prints hw tag⟩
  · intro hw
    rw [hw]
    rfl

/-- The least integer of too many digits is plain, and a condition of it
has no text. -/
theorem conditionText_overlong :
    let c : Condition := .ofClause (.single (.const (.int (10 ^ 4300))))
    c.Plain ∧ Store.empty.conditionText c = .error .tooManyDigits := by
  intro c
  have hlong : Numeral.isWritable (10 ^ 4300) = false := by
    rw [Bool.eq_false_iff, Ne, Numeral.isWritable_iff]
    decide +kernel
  have htext : ∀ n : Int, Numeral.isWritable n = false →
      Store.empty.conditionText (.ofClause (.single (.const (.int n)))) =
        .error .tooManyDigits := by
    intro n hn
    have hw : isWritable Store.empty.isWritable
        (.ofClause (.single (.const (.int n)))) = false := by
      show (false || ((Numeral.isWritable n && true) && true)) = false
      rw [hn]
      rfl
    rw [Store.conditionText, hw]
    rfl
  exact ⟨⟨⟨⟨trivial, fun r h => by cases h⟩, rfl⟩, nofun⟩, htext _ hlong⟩

/-- A hint that is forgotten, a literal word as a root, a negative key,
brackets in quotes and `contains` as a name are all read back. -/
theorem parse_text_chain :
    let c : Condition :=
      ⟨.compare
        (.path (.step (.step (.root (.const (.text "a-b?")))
          (.const (.text "size")) (some .size))
          (.path (.step (.root (.const (.text "nil")))
            (.const (.int (-1))) none)) none))
        (some .contains) (.const (.text "it's [and]")),
      [(.or, .single (.path (.root (.const (.text "contains"))))),
        (.and, .compare (.const (.probe .empty)) (some .unequal)
          (.const .nil))]⟩
    c.Plain ∧ c.isWritable Value.isWritable = true ∧
      Store.empty.conditionText c =
        .ok ("a-b?['size'][nil[-1]] contains \"it's [and]\" or contains " ++
          "and empty != nil") ∧
      ∃ text, Store.empty.conditionText c = .ok text ∧
        Condition.parseLenient "if" text = .ok c.erase ∧
        Condition.parseStrict text = .ok c.erase := by
  intro c
  have hname : IsName "a-b?".toList :=
    ⟨'a', ['-', 'b'], ['?'], by decide, by decide, by decide, by decide,
      Or.inr rfl⟩
  have hroot : IsName "nil".toList :=
    ⟨'n', ['i', 'l'], [], by decide, by decide, by decide, by decide,
      Or.inl rfl⟩
  have hleft : Path.Plain (.step (.step (.root (.const (.text "a-b?")))
      (.const (.text "size")) (some .size))
      (.path (.step (.root (.const (.text "nil")))
        (.const (.int (-1))) none)) none) :=
    ⟨⟨hname, (by decide : '\'' ∉ "size".toList)⟩, ⟨hroot, trivial⟩,
      fun _ h => by cases h⟩
  have hcontains : Path.Plain (.root (.const (.text "contains"))) :=
    Token.isName_contains
  have hplain : c.Plain := by
    refine ⟨⟨⟨⟨hleft, fun _ h => by cases h⟩, fun _ h => by cases h⟩,
      ⟨'"', by decide +kernel⟩, fun _ h => by cases h⟩, ?_⟩
    refine List.forall_mem_cons.2 ⟨⟨⟨⟨hcontains, ?_⟩, ?_⟩, rfl⟩,
      List.forall_mem_singleton.2
        ⟨⟨trivial, fun _ h => by cases h⟩, trivial, fun _ h => by cases h⟩⟩
    · rintro word h
      cases h
      rfl
    · intro r
      cases r <;> decide
  have hw : c.isWritable Value.isWritable = true := by decide +kernel
  have htext : c.text (fun v => (Store.empty.datum v).print) =
      "a-b?['size'][nil[-1]] contains \"it's [and]\" or contains " ++
        "and empty != nil" := by decide +kernel
  refine ⟨hplain, hw, ?_, (parse_text hplain Store.empty "if").1 hw⟩
  rw [← htext]
  rfl

end Condition

end Stencil
