/-
The two grammars of conditions agree on well-spaced markup.

The lenient grammar cuts a condition into pieces before it looks at any of
them, the strict grammar reads tokens. Where the strict one has read a
condition, each of its operands, operators and linking words is one piece,
provided that the pieces are told apart: a `IsBorder` has to follow every
operand. Well-spaced tokens see to that, and the pieces then come out in
the order of the derivation. The induction is along the linked clauses,
with the layout of what is still to come as its invariant.
-/
import Stencil.Proofs.Markup.Spacing

namespace Stencil

open Text

-- ============================================================== pieces

/-- A text in front of which an operand outside all brackets ends. -/
def IsBorder (cs : List Char) : Prop :=
  ∀ c ∈ cs.head?, isBlank c = true ∨ Fragment.isOperatorChar c = true

/-- What starts with a gap that is there is a border. -/
theorem isBorder_gap {gap : List Char} (hgap : gap.all isBlank = true)
    (hne : gap ≠ []) (rest : List Char) : IsBorder (gap ++ rest) := by
  obtain ⟨c, cs, rfl⟩ := List.exists_cons_of_ne_nil hne
  intro d hd
  obtain rfl := Option.some.inj hd
  exact Or.inl (List.all_eq_true.1 hgap c (List.mem_cons_self ..))

/-- Placed tokens behind a gap are a border. -/
theorem isBorder_text {ps : List Placed} (h : Placed.Clean ps)
    (hgap : ∀ p ∈ ps.head?, p.gap ≠ []) : IsBorder (Placed.text ps) := by
  cases ps with
  | nil => exact nofun
  | cons p ps =>
    rw [Placed.text_cons, List.append_assoc]
    exact isBorder_gap (h.1 p (List.mem_cons_self ..)).1 (hgap p rfl) _

namespace Fragment

/-- Blanks are no part of any piece. -/
theorem scan_gap {gap : List Char} (hgap : gap.all isBlank = true)
    (rest : List Char) : scan (gap ++ rest) = scan rest := by
  induction gap with
  | nil => rfl
  | cons c cs ih =>
    rw [List.all_cons, Bool.and_eq_true] at hgap
    rw [List.cons_append, scan, if_pos hgap.1, ih hgap.2]

/-- A character that a scan outside brackets passes is no blank and no
sign of comparison. -/
theorem passed_head {c : Char} {cs : List Char} {n : Nesting}
    (h : (c :: cs).foldlM step .outside = some n) :
    isBlank c = false ∧ isOperatorChar c = false ∧
      cs.foldlM step (Nesting.outside.next c) = some n := by
  obtain ⟨m, hm, hcs⟩ := Option.bind_eq_some_iff.1 h
  simp only [step] at hm
  split at hm
  · cases hm
  · next hstops =>
    obtain rfl := Option.some.inj hm
    simpa [Nesting.stops, Nesting.isOpen, Nesting.outside, and_assoc] using
      And.intro hstops hcs

/-- In front of a border an operand outside all brackets goes no further. -/
theorem operand_border {rest : List Char} (h : IsBorder rest) :
    takeOperand .outside rest = [] ∧ dropOperand .outside rest = rest := by
  cases rest with
  | nil => exact ⟨rfl, rfl⟩
  | cons d rest =>
    have hstops : Nesting.outside.stops d = true := by
      rcases h d rfl with h | h
      · simp [Nesting.stops, Nesting.isOpen, Nesting.outside, h]
      · simp [Nesting.stops, Nesting.isOpen, Nesting.outside, h]
    rw [takeOperand, dropOperand, if_pos hstops, if_pos hstops]
    exact ⟨rfl, rfl⟩

/-- A text that a scan passes is one piece, in front of a border. -/
theorem scan_operand {cs rest : List Char} (hne : cs ≠ [])
    (hpass : cs.foldlM step .outside = some .outside)
    (hborder : IsBorder rest) :
    scan (cs ++ rest) = ofOperand cs :: scan rest := by
  obtain ⟨c, cs, rfl⟩ := List.exists_cons_of_ne_nil hne
  obtain ⟨hblank, hop, hcs⟩ := passed_head hpass
  obtain ⟨htake, hdrop⟩ := operand_append hcs rest
  obtain ⟨hnothing, hall⟩ := operand_border hborder
  rw [List.cons_append, scan, if_neg (by simp [hblank]),
    if_neg (by simp [hop])]
  dsimp only
  rw [htake, hdrop, hnothing, hall, List.append_nil]

/-- A sign of comparison is no blank. -/
theorem isBlank_of_isOperatorChar {c : Char} (h : isOperatorChar c = true) :
    isBlank c = false := by
  simp only [isOperatorChar, Bool.or_eq_true, beq_iff_eq] at h
  rcases h with ((rfl | rfl) | rfl) | rfl <;> decide

/-- Signs of comparison are one piece, in front of anything else. -/
theorem scan_operator {cs rest : List Char} (hne : cs ≠ [])
    (hcs : ∀ c ∈ cs, isOperatorChar c = true)
    (hrest : ∀ c ∈ rest.head?, isOperatorChar c = false) :
    scan (cs ++ rest) = ⟨.operator, cs⟩ :: scan rest := by
  obtain ⟨c, cs, rfl⟩ := List.exists_cons_of_ne_nil hne
  obtain ⟨hc, hcs⟩ := List.forall_mem_cons.1 hcs
  have hends : rest.takeWhile isOperatorChar = [] ∧
      rest.dropWhile isOperatorChar = rest := by
    cases rest with
    | nil => exact ⟨rfl, rfl⟩
    | cons d rest => simp [hrest d rfl]
  rw [List.cons_append, scan, if_neg (by simp [isBlank_of_isOperatorChar hc]),
    if_pos hc, List.takeWhile_append_of_pos hcs,
    List.dropWhile_append_of_pos hcs, hends.1, hends.2, List.append_nil]

end Fragment

-- ============================================================ operands

/-- A name that links is written with letters only. -/
theorem isWord_of_relation {word : String}
    (h : relationWords.contains word = true) {c : Char}
    (hc : c ∈ word.toList) : isWord c = true ∧ isDigit c = false := by
  have hall : (relationWords.all fun w => w.toList.all fun c =>
      isWord c && !isDigit c) = true := by
    decide +kernel
  simp only [List.all_eq_true, Bool.and_eq_true, Bool.not_eq_true'] at hall
  exact hall word (List.contains_iff_mem.1 h) c hc

/-- Only names, and words that compare, are written with letters only. -/
theorem Fits.kind_of_letters {kind : TokenKind} {cs : List Char}
    (h : Fits kind cs) (hne : kind ≠ .endOfString)
    (hletters : ∀ c ∈ cs, isWord c = true ∧ isDigit c = false) :
    kind = .id ∨ kind = .comparison := by
  cases kind with
  | id => exact Or.inl rfl
  | comparison => exact Or.inr rfl
  | endOfString => exact absurd rfl hne
  | string =>
    obtain ⟨q, inner, rfl, hq, -⟩ := h
    have hword := (hletters q (by simp)).1
    rcases hq with rfl | rfl
    · exact absurd hword (by decide)
    · exact absurd hword (by decide)
  | number =>
    obtain ⟨minus, whole, part, rfl, -, hwhole, -⟩ := h
    simp only [Numeral.isDigits, Bool.and_eq_true, Bool.not_eq_true',
      List.isEmpty_eq_false_iff, List.all_eq_true] at hwhole
    obtain ⟨d, ds, rfl⟩ := List.exists_cons_of_ne_nil hwhole.1
    have hdigit := hwhole.2 d (List.mem_cons_self ..)
    exact absurd (hletters d (by simp)).2 (by simp [hdigit])
  | _ =>
    -- any other text has a character that is no letter
    obtain rfl := h
    exact absurd (hletters _ (List.mem_cons_self ..)).1 (by decide)

/-- The texts of placed tokens are parts of what they stand in. -/
theorem Placed.mem_body {ps : List Placed} {p : Placed} (hp : p ∈ ps)
    {c : Char} (hc : c ∈ p.token.text.toList) : c ∈ body ps := by
  cases ps with
  | nil => cases hp
  | cons q qs =>
    rcases List.mem_cons.1 hp with rfl | hp
    · exact List.mem_append_left _ hc
    · exact List.mem_append_right _
        (List.mem_flatMap.2 ⟨p, hp, List.mem_append_right _ hc⟩)

/-- An operand that is written as a linking word is a name. -/
theorem Derives.eq_name {e : Expr} {ps : List Placed}
    (h : Derives (.operand e) (ps.map Placed.token))
    (hclean : Placed.Clean ps)
    (hword : relationWords.contains (String.ofList (Placed.body ps)) = true) :
    ps.map Placed.token = [⟨.id, String.ofList (Placed.body ps)⟩] := by
  have hkinds : ∀ t ∈ ps.map Placed.token, t.kind = .id ∨
      t.kind = .comparison := by
    intro t ht
    obtain ⟨p, hp, rfl⟩ := List.mem_map.1 ht
    refine (hclean.1 p hp).2.kind_of_letters (h.kind_ne _ ht) fun c hc => ?_
    refine isWord_of_relation hword ?_
    rw [String.toList_ofList]
    exact Placed.mem_body hp hc
  have hname : ∀ word, ps.map Placed.token = [⟨.id, word⟩] →
      [(⟨.id, word⟩ : Token)] = [⟨.id, String.ofList (Placed.body ps)⟩] := by
    intro word hps
    obtain ⟨gap, qs, rfl, hqs⟩ := Placed.of_map_cons hps
    obtain rfl : qs = [] := List.map_eq_nil_iff.1 hqs
    show _ = [(⟨.id, String.ofList (word.toList ++ [])⟩ : Token)]
    rw [List.append_nil, String.ofList_toList]
  generalize hts : ps.map Placed.token = ts at h hkinds
  cases h with
  | literal => exact hname _ hts
  | name _ hsteps =>
    cases hsteps with
    | done => exact hname _ hts
    | @key d => exact absurd (hkinds ⟨.dot, d⟩ (by simp)) (by simp)
    | @index a => exact absurd (hkinds ⟨.openSquare, a⟩ (by simp)) (by simp)
  | @bracketed a => exact absurd (hkinds ⟨.openSquare, a⟩ (by simp)) (by simp)
  | @range a => exact absurd (hkinds ⟨.openRound, a⟩ (by simp)) (by simp)
  | @string text => exact absurd (hkinds ⟨.string, text⟩ (by simp)) (by simp)
  | @number text => exact absurd (hkinds ⟨.number, text⟩ (by simp)) (by simp)

/-- The comparison operators are made of signs of comparison. -/
theorem isOperatorChar_of_comparison {text : String}
    (h : text ∈ Token.comparisonWords) : text.toList ≠ [] ∧
      ∀ c ∈ text.toList, Fragment.isOperatorChar c = true := by
  have hall : (Token.comparisonWords.all fun w => !w.toList.isEmpty &&
      w.toList.all Fragment.isOperatorChar) = true := by
    decide
  simp only [List.all_eq_true, Bool.and_eq_true, Bool.not_eq_true',
    List.isEmpty_eq_false_iff] at hall
  exact hall text h

/-- What may come after an operand of a clause: a linking word, a
comparison, or the end. -/
def Follows : List Placed → Prop
  | [] => False
  | q :: qs => q.token.kind = .id ∨ q.token.kind = .comparison ∨
      (q.token = .endOfString ∧ qs = [])

/-- Behind a lone linking word nothing that ends an operand is allowed. -/
theorem Follows.not_laid_word {qs : List Placed} (h : Follows qs) :
    laid ⟨0, .word⟩ qs = false := by
  cases qs with
  | nil => cases h
  | cons q qs =>
    rcases h with h | h | ⟨h, -⟩
    · simp [laid, Stand.allows, h]
    · simp [laid, Stand.allows, h]
    · simp [laid, Stand.allows, h, Token.endOfString]

/-- What follows an operand, and is laid there, is a border. -/
theorem Follows.isBorder {qs : List Placed} (h : Follows qs)
    (hclean : Placed.Clean qs) (hlaid : laid ⟨0, .begun⟩ qs = true) :
    IsBorder (Placed.text qs) := by
  cases qs with
  | nil => cases h
  | cons q qs =>
    obtain ⟨hgap, hfits⟩ := hclean.1 q (List.mem_cons_self ..)
    have hallows := (Bool.and_eq_true_iff.1 hlaid).1
    simp only [Stand.allows, bne_self_eq_false, Bool.false_eq_true,
      if_false] at hallows
    rw [Placed.text_cons, List.append_assoc]
    by_cases hne : q.gap = []
    · rw [hne, List.nil_append]
      rcases h with h | h | ⟨h, rfl⟩
      · rw [h, hne] at hallows
        cases hallows
      · rw [h] at hallows hfits
        rw [hne] at hallows
        rcases hfits with hfits | hfits
        · rw [String.ofList_toList] at hfits
          obtain ⟨hne, hsigns⟩ := isOperatorChar_of_comparison hfits
          obtain ⟨c, cs, hcs⟩ := List.exists_cons_of_ne_nil hne
          rw [hcs]
          intro d hd
          obtain rfl : c = d := Option.some.inj hd
          exact Or.inr (hsigns c (by simp [hcs]))
        · rw [String.toList_inj.1 hfits] at hallows
          cases hallows
      · rw [h]
        intro c hc
        cases hc
    · exact isBorder_gap hgap hne _

/-- An operand of a clause is one piece, and it means the same there. -/
theorem Derives.scan {e : Expr} {ps qs : List Placed}
    (h : Derives (.operand e) (ps.map Placed.token))
    (hclean : Placed.Clean (ps ++ qs))
    (hlaid : laid ⟨0, .due⟩ (ps ++ qs) = true) (hqs : Follows qs) :
    Fragment.scan (Placed.text (ps ++ qs)) =
        ⟨.operand, Placed.body ps⟩ :: Fragment.scan (Placed.text qs) ∧
      Expr.parseChars (Placed.body ps) = .ok e ∧
      laid ⟨0, .begun⟩ qs = true := by
  obtain ⟨hops, hops'⟩ := Bool.and_eq_true_iff.1
    ((laid_append _ _ _).symm.trans hlaid)
  have hps : Placed.Clean ps := hclean.part (List.prefix_append ..).isInfix
  have hqsClean : Placed.Clean qs :=
    hclean.part (List.suffix_append ..).isInfix
  have hbegun : (ps.map Placed.token).foldl Stand.next ⟨0, .due⟩ =
      ⟨0, .begun⟩ := by
    rcases h.foldl_next_operand with hbegun | ⟨word, -, -, hword⟩
    · exact hbegun
    · rw [hword, hqs.not_laid_word] at hops'
      cases hops'
  rw [hbegun] at hops'
  have hwritten : Written false (.operand e) (Placed.body ps) :=
    h.written rfl hps fun _ => hops
  have hkind : Fragment.ofOperand (Placed.body ps) =
      ⟨.operand, Placed.body ps⟩ := by
    unfold Fragment.ofOperand
    split
    · next hword =>
      rw [h.eq_name hps hword, List.foldl_cons, Stand.next_name,
        if_pos hword] at hbegun
      cases hbegun
    · rfl
  refine ⟨?_, ?_, hops'⟩
  · rw [Placed.text_append, Placed.text_eq ps, List.append_assoc,
      Fragment.scan_gap hps.lead, ← hkind]
    exact Fragment.scan_operand (hwritten.edges.2 e rfl).1
      (hwritten.tracked Fragment.tracks nofun)
      (hqs.isBorder hqsClean hops')
  · have hmeans := hwritten.means [] [] rfl rfl
    rwa [List.nil_append, List.append_nil] at hmeans

-- ============================================================= clauses

/-- An operand starts with no sign of comparison. -/
theorem Derives.head_text {e : Expr} {ps : List Placed}
    (h : Derives (.operand e) (ps.map Placed.token))
    (hclean : Placed.Clean ps) (hlaid : laid ⟨0, .due⟩ ps = true)
    (qs : List Placed) :
    ∀ c ∈ (Placed.text (ps ++ qs)).head?,
      Fragment.isOperatorChar c = false := by
  have hwritten : Written false (.operand e) (Placed.body ps) :=
    h.written rfl hclean fun _ => hlaid
  obtain ⟨c, cs, hbody⟩ := List.exists_cons_of_ne_nil
    (hwritten.edges.2 e rfl).1
  have hpass := hwritten.tracked Fragment.tracks (d := 0) nofun
  rw [hbody] at hpass
  obtain ⟨-, hc, -⟩ := Fragment.passed_head hpass
  have hgap := hclean.lead
  rw [Placed.text_append, Placed.text_eq ps, hbody]
  generalize Placed.lead ps = gap at hgap
  intro d hd
  cases gap with
  | nil =>
    obtain rfl : c = d := Option.some.inj hd
    exact hc
  | cons b gap =>
    obtain rfl : b = d := Option.some.inj hd
    have hblank := List.all_eq_true.1 hgap b (List.mem_cons_self ..)
    cases hop : Fragment.isOperatorChar b with
    | false => rfl
    | true =>
      exact absurd hblank (by simp [Fragment.isBlank_of_isOperatorChar hop])

/-- What compares is one piece: signs of comparison for themselves, and
the word between its gaps. -/
theorem scan_comparison {gap : List Char} {text : String}
    {qs : List Placed}
    (hsound : Placed.Sound (⟨gap, ⟨.comparison, text⟩⟩ :: qs))
    (hclean : Placed.Clean (⟨gap, ⟨.comparison, text⟩⟩ :: qs))
    (hhead : ∀ c ∈ (Placed.text qs).head?,
      Fragment.isOperatorChar c = false) :
    ∃ kind : FragmentKind, kind ≠ .keyword ∧
      Fragment.scan (Placed.text (⟨gap, ⟨.comparison, text⟩⟩ :: qs)) =
        ⟨kind, text.toList⟩ :: Fragment.scan (Placed.text qs) := by
  obtain ⟨hgap, hfits⟩ := hclean.1 _ (List.mem_cons_self ..)
  rw [Placed.text_cons, List.append_assoc, Fragment.scan_gap hgap]
  rcases hfits with hfits | hfits
  · rw [String.ofList_toList] at hfits
    obtain ⟨hne, hsigns⟩ := isOperatorChar_of_comparison hfits
    exact ⟨.operator, nofun, Fragment.scan_operator hne hsigns hhead⟩
  · obtain rfl : text = "contains" := String.toList_inj.1 hfits
    have hborder := isBorder_text hclean.tail (hsound.2.2.1 rfl)
    have hpass := Fragment.tracks.solid 0 Token.isName_contains.isSolid
    exact ⟨.operand, nofun,
      Fragment.scan_operand (by decide) hpass hborder⟩

/-- A clause is cut into the pieces that it is read from. -/
theorem DerivesClause.scan {clause : Clause} {ps qs : List Placed}
    (h : DerivesClause clause (ps.map Placed.token))
    (hsound : Placed.Sound (ps ++ qs)) (hclean : Placed.Clean (ps ++ qs))
    (hlaid : laid ⟨0, .due⟩ (ps ++ qs) = true) (hqs : Follows qs) :
    ∃ fs, Fragment.scan (Placed.text (ps ++ qs)) =
        fs ++ Fragment.scan (Placed.text qs) ∧
      (∀ f ∈ fs, f.kind ≠ .keyword) ∧
      (∀ tag markup, Condition.clauseOf tag markup fs = .ok clause) ∧
      laid ⟨0, .begun⟩ qs = true := by
  generalize hts : ps.map Placed.token = ts at h
  cases h with
  | @single e _ hderive =>
    subst hts
    obtain ⟨hscan, hparse, hrest⟩ := hderive.scan hclean hlaid hqs
    refine ⟨[⟨.operand, Placed.body ps⟩], hscan, by simp, ?_, hrest⟩
    intro tag markup
    show (do return Clause.single (← Expr.parseChars (Placed.body ps)) :
      Except Failure Clause) = _
    rw [hparse]
    rfl
  | @compare left right op text ts us hleft hop hright =>
    obtain ⟨xs, gap, ys, rfl, rfl, rfl⟩ := Placed.of_map_append hts
    rw [List.append_assoc, List.cons_append] at hsound hclean hlaid ⊢
    obtain ⟨hscan, hparse, hmiddle⟩ := hleft.scan hclean hlaid
      (Or.inr (Or.inl rfl))
    have hclean' := hclean.split.2
    have hlaid' : laid ⟨0, .due⟩ (ys ++ qs) = true :=
      (Bool.and_eq_true_iff.1 hmiddle).2
    have hhead := hright.head_text hclean'.tail.split.1
      (Bool.and_eq_true_iff.1 ((laid_append _ _ _).symm.trans hlaid')).1 qs
    obtain ⟨kind, hkind, hscan'⟩ := scan_comparison hsound.of_append hclean'
      hhead
    obtain ⟨hscan'', hparse', hrest⟩ := hright.scan hclean'.tail hlaid' hqs
    refine ⟨[⟨.operand, Placed.body xs⟩, ⟨kind, text.toList⟩,
      ⟨.operand, Placed.body ys⟩], ?_, by simp [hkind], ?_, hrest⟩
    · rw [hscan, hscan', hscan'']
      rfl
    · intro tag markup
      have hoperator : Condition.operatorOf ⟨kind, text.toList⟩ = .ok op := by
        rw [Condition.operatorOf, String.ofList_toList, hop]
      show (do
        let left ← Expr.parseChars (Placed.body xs)
        let right ← Expr.parseChars (Placed.body ys)
        let op ← Condition.operatorOf ⟨kind, text.toList⟩
        return .compare left (some op) right : Except Failure Clause) = _
      rw [hparse, hparse', hoperator]
      rfl

-- ============================================================== chains

namespace Condition

/-- Pieces without a linking word belong to the first clause. -/
theorem splitClauses_append {fs : List Fragment}
    (h : ∀ f ∈ fs, f.kind ≠ .keyword) (gs : List Fragment) :
    splitClauses (fs ++ gs) =
      (fs ++ (splitClauses gs).1, (splitClauses gs).2) := by
  induction fs with
  | nil => rfl
  | cons f fs ih =>
    obtain ⟨hf, hfs⟩ := List.forall_mem_cons.1 h
    rw [List.cons_append, splitClauses, ih hfs]
    simp [hf]

/-- A linking word starts a clause of its own. -/
theorem splitClauses_keyword (r : Relation) (fs : List Fragment) :
    splitClauses (⟨.keyword, r.word.toList⟩ :: fs) =
      ([], (r, (splitClauses fs).1) :: (splitClauses fs).2) := by
  rw [splitClauses, String.ofList_toList, Relation.ofWord?_word]
  rfl

end Condition

/-- After a clause comes a linking word, or the end. -/
theorem DerivesLinked.follows {later : List (Relation × Clause)}
    {ts : List Token} (h : DerivesLinked later ts) {qs : List Placed}
    (hqs : qs.map Placed.token = ts ++ [.endOfString]) : Follows qs := by
  cases h with
  | nil =>
    obtain ⟨gap, rs, rfl, hrs⟩ := Placed.of_map_cons hqs
    exact Or.inr (Or.inr ⟨rfl, List.map_eq_nil_iff.1 hrs⟩)
  | cons _ _ =>
    obtain ⟨gap, rs, rfl, -⟩ := Placed.of_map_cons hqs
    exact Or.inl rfl

/-- Behind a linking word an operand is due, behind a gap. -/
theorem laid_due_of_linked {ps : List Placed}
    (h : laid ⟨0, .linked⟩ ps = true) :
    laid ⟨0, .due⟩ ps = true ∧ ∀ p ∈ ps.head?, p.gap ≠ [] := by
  cases ps with
  | nil => exact ⟨rfl, nofun⟩
  | cons p ps =>
    obtain ⟨hallows, hrest⟩ := Bool.and_eq_true_iff.1 h
    refine ⟨hrest, fun q hq => ?_⟩
    obtain rfl : p = q := Option.some.inj hq
    simpa [Stand.allows] using hallows

/-- A linking word is one piece, in front of a gap. -/
theorem scan_relation {gap : List Char} {r : Relation} {ps : List Placed}
    (hclean : Placed.Clean (⟨gap, ⟨.id, r.word⟩⟩ :: ps))
    (hgap : ∀ p ∈ ps.head?, p.gap ≠ []) :
    Fragment.scan (Placed.text (⟨gap, ⟨.id, r.word⟩⟩ :: ps)) =
      ⟨.keyword, r.word.toList⟩ :: Fragment.scan (Placed.text ps) := by
  obtain ⟨hblank, hname⟩ := hclean.1 _ (List.mem_cons_self ..)
  have hne : r.word.toList ≠ [] := by
    cases r <;> decide
  have hpass := Fragment.tracks.solid 0 (IsName.isSolid hname)
  have hkind : Fragment.ofOperand r.word.toList =
      ⟨.keyword, r.word.toList⟩ := by
    cases r <;> decide
  rw [Placed.text_cons, List.append_assoc, Fragment.scan_gap hblank, ← hkind]
  exact Fragment.scan_operand hne hpass (isBorder_text hclean.tail hgap)

/-- The clauses that are linked to a first one are cut and read as they
were derived. -/
theorem DerivesLinked.scan {later : List (Relation × Clause)}
    {ts : List Token} (h : DerivesLinked later ts) {qs : List Placed}
    (hqs : qs.map Placed.token = ts ++ [.endOfString])
    (hsound : Placed.Sound qs) (hclean : Placed.Clean qs)
    (hlaid : laid ⟨0, .begun⟩ qs = true) :
    ∃ laters, Condition.splitClauses (Fragment.scan (Placed.text qs)) =
        ([], laters) ∧
      ∀ tag markup first head,
        Condition.clauseOf tag markup first = .ok head →
        Condition.assemble (Condition.clauseOf tag markup) first laters =
          .ok ⟨head, later⟩ := by
  induction h generalizing qs with
  | nil =>
    obtain ⟨gap, rs, rfl, hrs⟩ := Placed.of_map_cons hqs
    obtain rfl := List.map_eq_nil_iff.1 hrs
    have hgap := (hclean.1 _ (List.mem_cons_self ..)).1
    refine ⟨[], ?_, fun tag markup first head hhead => ?_⟩
    · rw [Placed.text_cons, List.append_assoc, Fragment.scan_gap hgap]
      show Condition.splitClauses (Fragment.scan []) = _
      rw [Fragment.scan]
      rfl
    · rw [Condition.assemble, hhead]
      rfl
  | @cons r clause later ts us hclause hlater ih =>
    obtain ⟨gap, rs, rfl, hrs⟩ := Placed.of_map_cons hqs
    obtain ⟨ps, qs, rfl, rfl, hrest⟩ := List.map_eq_append_iff.1
      (hrs.trans (List.append_assoc ..))
    obtain ⟨hdue, hgap⟩ := laid_due_of_linked (Bool.and_eq_true_iff.1 hlaid).2
    obtain ⟨fs, hscan, hkinds, hclauseOf, hbegun⟩ := hclause.scan
      hsound.2.2.2 hclean.tail hdue (hlater.follows hrest)
    have hsound' : Placed.Sound ((⟨gap, ⟨.id, r.word⟩⟩ :: ps) ++ qs) := hsound
    obtain ⟨laters, hsplit, hassemble⟩ := ih hrest hsound'.of_append
      hclean.tail.split.2 hbegun
    refine ⟨(r, fs) :: laters, ?_, fun tag markup first head hhead => ?_⟩
    · rw [scan_relation hclean hgap, Condition.splitClauses_keyword, hscan,
        Condition.splitClauses_append hkinds, hsplit, List.append_nil]
    · rw [Condition.assemble, hassemble tag markup fs clause
        (hclauseOf tag markup), hhead]
      rfl

-- ============================================================ agreement

namespace Condition

/-- Where the strict grammar reads a condition from well-spaced markup,
the lenient grammar reads the same condition, for every tag. -/
theorem parseLenient_of_parseStrict {markup : String} {c : Condition}
    (h : parseStrict markup = .ok c) (hspaced : WellSpaced markup)
    (tag : String) : parseLenient tag markup = .ok c := by
  obtain ⟨hlaid, hclear⟩ := hspaced
  rw [parseStrict] at h
  rw [Token.places] at hlaid hclear
  cases hscan : Token.scan markup with
  | error e =>
    rw [hscan] at h
    cases h
  | ok tokens =>
    rw [hscan] at h hlaid hclear
    rw [Token.scan] at hscan
    cases hafter : Token.scanAfter none markup.toList with
    | error c =>
      rw [hafter] at hscan
      cases hscan
    | ok ts =>
      rw [hafter] at hscan
      obtain rfl := Except.ok.inj hscan
      obtain ⟨htext, hsound, hkinds⟩ := Token.scanAfter_place hafter
      obtain ⟨us, vs, rfl, hhead, htail⟩ := derives_of_readTokens h hkinds
      have hmap := Placed.map_token_place markup.toList
        (us ++ vs ++ [.endOfString])
      dsimp only at hlaid hclear
      generalize Placed.place markup.toList (us ++ vs ++ [.endOfString]) =
        places at htext hsound hmap hlaid hclear
      obtain ⟨ps, qs, rfl, rfl, hqs⟩ := List.map_eq_append_iff.1
        (hmap.trans (List.append_assoc ..))
      have hclean : Placed.Clean (ps ++ qs) := ⟨hsound.of_mem, hclear⟩
      obtain ⟨fs, hcut, hwords, hclauseOf, hbegun⟩ := hhead.scan hsound hclean
        hlaid (htail.follows hqs)
      obtain ⟨laters, hsplit, hassemble⟩ := htail.scan hqs hsound.of_append
        hclean.split.2 hbegun
      rw [parseLenient, ← htext, hcut, splitClauses_append hwords, hsplit,
        List.append_nil]
      exact hassemble tag _ fs c.head (hclauseOf tag _)

/-- A chain of three clauses is such a condition. -/
theorem parseLenient_of_parseStrict_chain :
    ∃ c, parseStrict "a.b=='x' and c contains d[ 0 ] or [ e ].f" = .ok c ∧
      WellSpaced "a.b=='x' and c contains d[ 0 ] or [ e ].f" ∧
      parseLenient "if" "a.b=='x' and c contains d[ 0 ] or [ e ].f" =
        .ok c := by
  have hspaced : WellSpaced "a.b=='x' and c contains d[ 0 ] or [ e ].f" :=
    ⟨by decide +kernel, Placed.rangesClear_of_kinds (by decide +kernel)⟩
  have hread : (parseStrict
      "a.b=='x' and c contains d[ 0 ] or [ e ].f").toOption ≠ none := by
    decide +kernel
  cases h : parseStrict "a.b=='x' and c contains d[ 0 ] or [ e ].f" with
  | error e => exact absurd (congrArg Except.toOption h) hread
  | ok c => exact ⟨c, rfl, hspaced, parseLenient_of_parseStrict h hspaced _⟩

/-- Elsewhere the grammars part: where blanks break an operand, or are
missing around a linking word or in front of the word `contains`; where an
operand is a linking word; and where the dots of a range cannot be told
from those inside its first bound, or a bound holds a blank. -/
theorem parseLenient_ne_parseStrict :
    ["a .b", "a. b", "a [0]", "'a'and 'b'", "'a' and'b'",
        "'a'contains 'b'", "a == and", "or == 1", "('a..b'..2)",
        "(1..'a b')", "(a[ 1 ]..2)"].all (fun markup =>
      (parseStrict markup).toOption.isSome &&
        (parseLenient "if" markup).toOption !=
          (parseStrict markup).toOption) = true := by
  decide +kernel

end Condition

end Stencil
