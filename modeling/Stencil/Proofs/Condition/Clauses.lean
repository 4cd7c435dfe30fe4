/-
Which conditions the lenient grammar accepts, and what it makes of them.

The linking words cut the pieces of a markup into clauses in one way only
(`cuts_iff`): the clauses hold no linking words, and with the words between
them they are the pieces again. After that every clause is on its own. It
is faulty, or it reads as one clause of the chain, and a chain is read when
each of its clauses is; the clauses and their links then stand in the chain
as they stand in the markup, although the chain is built from its end.

There is one more way to fail. It is no fault of a clause if an operand is
a range whose bound is no integer, or an integer of too many digits
(`parseLenient_of_overlong`). Which of several failures is reported depends
on the order of reading, so such markup is left out.
-/
import Mathlib.Data.List.Forall2
import Stencil.Proofs.Condition.Concord
import Stencil.Proofs.Expr.Numeric

namespace Stencil

/-- Every text that is looked up as an operator and found is the text of
what was found. -/
theorem Operator.ofText?_eq_some_iff {text : String} {op : Operator} :
    ofText? text = some op ↔ op.text = text := by
  constructor
  · intro h
    have hmem : (text, op) ∈ spellings := by
      obtain ⟨front, back, hsplit, -⟩ := List.lookup_eq_some_iff.1 h
      rw [hsplit]
      simp
    revert hmem
    simp only [spellings, List.mem_cons, Prod.mk.injEq, List.not_mem_nil,
      or_false]
    rintro (⟨rfl, rfl⟩ | ⟨rfl, rfl⟩ | ⟨rfl, rfl⟩ | ⟨rfl, rfl⟩ | ⟨rfl, rfl⟩ |
      ⟨rfl, rfl⟩ | ⟨rfl, rfl⟩ | ⟨rfl, rfl⟩) <;> rfl
  · rintro rfl
    exact ofText?_text op

/-- A keyword of a condition is one of the linking words. -/
theorem Fragment.exists_word_of_mem_scan {cs : List Char} {f : Fragment}
    (hf : f ∈ scan cs) (hkind : f.kind = .keyword) :
    ∃ r : Relation, f = ⟨.keyword, r.word.toList⟩ := by
  fun_induction scan cs with
  | case1 => cases hf
  | case2 _ _ _ ih => exact ih hf
  | case3 _ _ _ _ ih =>
    rcases List.mem_cons.1 hf with rfl | hf
    · cases hkind
    · exact ih hf
  | case4 c rest _ _ n ih =>
    rcases List.mem_cons.1 hf with rfl | hf
    · unfold ofOperand at hkind ⊢
      split at hkind
      · next hword =>
        rw [if_pos hword]
        rw [List.contains_iff_mem] at hword
        simp only [relationWords, List.mem_cons, List.not_mem_nil,
          or_false] at hword
        rcases hword with hword | hword
        · refine ⟨.and, ?_⟩
          rw [← String.toList_ofList (l := c :: takeOperand n rest), hword]
          rfl
        · refine ⟨.or, ?_⟩
          rw [← String.toList_ofList (l := c :: takeOperand n rest), hword]
          rfl
      · cases hkind
    · exact ih hf

namespace Condition

-- ============================================================== cutting

/-- Clauses with the linking words between them. -/
def joined (first : List Fragment)
    (later : List (Relation × List Fragment)) : List Fragment :=
  first ++ later.flatMap fun x => ⟨.keyword, x.1.word.toList⟩ :: x.2

/-- Pieces are cut into clauses at their linking words. -/
structure Cuts (pieces first : List Fragment)
    (later : List (Relation × List Fragment)) : Prop where
  joined : joined first later = pieces
  first_free : ∀ f ∈ first, f.kind ≠ .keyword
  later_free : ∀ x ∈ later, ∀ f ∈ x.2, f.kind ≠ .keyword

/-- A cut is found by going through the pieces. -/
theorem Cuts.splitClauses_eq {pieces first : List Fragment}
    {later : List (Relation × List Fragment)}
    (h : Cuts pieces first later) : splitClauses pieces = (first, later) := by
  obtain ⟨rfl, hfirst, hlater⟩ := h
  induction later generalizing first with
  | nil =>
    rw [Condition.joined, splitClauses_append hfirst]
    simp [splitClauses]
  | cons x later ih =>
    obtain ⟨hx, hlater⟩ := List.forall_mem_cons.1 hlater
    rw [Condition.joined, splitClauses_append hfirst, List.flatMap_cons,
      List.cons_append, splitClauses_keyword]
    have hrest : splitClauses (x.2 ++ later.flatMap fun x =>
        ⟨.keyword, x.1.word.toList⟩ :: x.2) = (x.2, later) := ih hx hlater
    rw [hrest, List.append_nil]

/-- Pieces whose keywords are linking words are cut by going through
them. -/
theorem cuts_splitClauses {pieces : List Fragment}
    (h : ∀ f ∈ pieces, f.kind = .keyword →
      ∃ r : Relation, f = ⟨.keyword, r.word.toList⟩) :
    Cuts pieces (splitClauses pieces).1 (splitClauses pieces).2 := by
  induction pieces with
  | nil => exact ⟨rfl, nofun, nofun⟩
  | cons f rest ih =>
    obtain ⟨hf, hrest⟩ := List.forall_mem_cons.1 h
    obtain ⟨hjoined, hfirst, hlater⟩ := ih hrest
    by_cases hkind : f.kind = .keyword
    · obtain ⟨r, rfl⟩ := hf hkind
      rw [splitClauses_keyword]
      exact ⟨congrArg (_ :: ·) hjoined, nofun,
        List.forall_mem_cons.2 ⟨hfirst, hlater⟩⟩
    · rw [show f :: rest = [f] ++ rest from rfl,
        splitClauses_append (List.forall_mem_singleton.2 hkind)]
      exact ⟨congrArg (f :: ·) hjoined,
        List.forall_mem_cons.2 ⟨hkind, hfirst⟩, hlater⟩

/-- The pieces of a condition are cut into clauses in one way. -/
theorem cuts_iff (cs : List Char) {first : List Fragment}
    {later : List (Relation × List Fragment)} :
    Cuts (Fragment.scan cs) first later ↔
      first = (splitClauses (Fragment.scan cs)).1 ∧
        later = (splitClauses (Fragment.scan cs)).2 := by
  constructor
  · intro h
    rw [h.splitClauses_eq]
    exact ⟨rfl, rfl⟩
  · rintro ⟨rfl, rfl⟩
    exact cuts_splitClauses fun f hf => Fragment.exists_word_of_mem_scan hf

-- ============================================================== clauses

/-- Pieces that spell no clause: there are none, or they start with a run
of comparison characters, or the text of the second one is not the text of
an operator. -/
inductive Faulty : List Fragment → Prop
  | empty : Faulty []
  | operatorFirst {f : Fragment} (rest : List Fragment)
      (kind : f.kind = .operator) : Faulty (f :: rest)
  | unknownOperator (f : Fragment) {g : Fragment} (rest : List Fragment)
      (unknown : ∀ op : Operator, op.text ≠ String.ofList g.text) :
      Faulty (f :: g :: rest)

/-- The clause that pieces spell: an operand, an operator and another
operand. What is missing at the end is nil, and what comes after it is
ignored. -/
inductive Spells : List Fragment → Clause → Prop
  | single {f : Fragment} {left : Expr}
      (start : f.kind ≠ .operator)
      (left_eq : Expr.parse (String.ofList f.text) = .ok left) :
      Spells [f] (.single left)
  | unfinished {f g : Fragment} {left : Expr} {op : Operator}
      (start : f.kind ≠ .operator)
      (left_eq : Expr.parse (String.ofList f.text) = .ok left)
      (op_eq : op.text = String.ofList g.text) :
      Spells [f, g] (.compare left (some op) (.const .nil))
  | whole {f g h : Fragment} (ignored : List Fragment)
      {left right : Expr} {op : Operator}
      (start : f.kind ≠ .operator)
      (left_eq : Expr.parse (String.ofList f.text) = .ok left)
      (op_eq : op.text = String.ofList g.text)
      (right_eq : Expr.parse (String.ofList h.text) = .ok right) :
      Spells (f :: g :: h :: ignored) (.compare left (some op) right)

/-- Pieces that spell a clause are not faulty. -/
theorem Spells.not_faulty {pieces : List Fragment} {clause : Clause}
    (h : Spells pieces clause) : ¬ Faulty pieces := by
  intro hfaulty
  cases h with
  | single start =>
    cases hfaulty with
    | operatorFirst _ kind => exact start kind
  | unfinished start _ op_eq =>
    cases hfaulty with
    | operatorFirst _ kind => exact start kind
    | unknownOperator _ _ unknown => exact unknown _ op_eq
  | whole _ start _ op_eq =>
    cases hfaulty with
    | operatorFirst _ kind => exact start kind
    | unknownOperator _ _ unknown => exact unknown _ op_eq

theorem operandOf_some (f : Fragment) :
    operandOf (some f) = Expr.parse (String.ofList f.text) := by
  rw [operandOf, Expr.parse, String.toList_ofList]

theorem operatorOf_eq_ok_iff {f : Fragment} {op : Operator} :
    operatorOf f = .ok op ↔ op.text = String.ofList f.text := by
  rw [← Operator.ofText?_eq_some_iff, operatorOf]
  split
  · next h => simp [h]
  · next h => simp [h]

variable {tag markup : String}

/-- Pieces that are read as a clause spell it. -/
theorem spells_of_clauseOf {pieces : List Fragment} {clause : Clause}
    (h : clauseOf tag markup pieces = .ok clause) :
    Spells pieces clause := by
  cases pieces with
  | nil => cases h
  | cons f rest =>
    rw [clauseOf] at h
    split at h
    · cases h
    · next hkind =>
      have start : f.kind ≠ .operator := by simpa using hkind
      obtain ⟨left, hleft, h⟩ := outcome_bind_eq_ok.1 h
      rw [operandOf_some] at hleft
      cases rest with
      | nil =>
        cases h
        exact .single start hleft
      | cons g rest =>
        obtain ⟨right, hright, h⟩ := outcome_bind_eq_ok.1 h
        obtain ⟨op, hop, h⟩ := outcome_bind_eq_ok.1 h
        cases h
        rw [operatorOf_eq_ok_iff] at hop
        cases rest with
        | nil =>
          cases hright
          exact .unfinished start hleft hop
        | cons h ignored =>
          rw [List.head?_cons, operandOf_some] at hright
          exact .whole ignored start hleft hop hright

/-- Pieces that are refused are faulty, if no number is in the way. -/
theorem faulty_of_clauseOf {pieces : List Fragment} {f : Failure}
    (h : clauseOf tag markup pieces = .error f)
    (hf : f.isNumeric = false) : Faulty pieces := by
  have hoperand {piece : Option Fragment} : operandOf piece ≠ .error f := by
    intro hpiece
    cases piece with
    | none => cases hpiece
    | some p =>
      have hnumber := (Expr.ofNumber_of_parseChars .always hpiece).isNumeric
      rw [hf] at hnumber
      cases hnumber
  cases pieces with
  | nil => exact .empty
  | cons p rest =>
    rw [clauseOf] at h
    split at h
    · next hkind => exact .operatorFirst rest (by simpa using hkind)
    · rcases outcome_bind_eq_error.1 h with h | ⟨left, -, h⟩
      · exact absurd h hoperand
      · cases rest with
        | nil => cases h
        | cons g rest =>
          rcases outcome_bind_eq_error.1 h with h | ⟨right, -, h⟩
          · exact absurd h hoperand
          · rcases outcome_bind_eq_error.1 h with h | ⟨op, -, h⟩
            · refine .unknownOperator p rest fun op hop => ?_
              rw [operatorOf_eq_ok_iff.2 hop] at h
              cases h
            · cases h

-- =============================================================== chains

/-- In a chain that is put together every clause is read, in its place and
with its link. -/
theorem forall₂_of_assemble_eq_ok
    {g : List Fragment → Except Failure Clause} {first : List Fragment}
    {later : List (Relation × List Fragment)} {c : Condition}
    (h : assemble g first later = .ok c) :
    List.Forall₂ (fun pieces link =>
        link.1 = pieces.1 ∧ g pieces.2 = .ok link.2)
      ((none, first) :: later.map fun x => (some x.1, x.2)) c.links := by
  induction later generalizing first c with
  | nil =>
    obtain ⟨clause, hclause, h⟩ := outcome_bind_eq_ok.1 h
    cases h
    exact .cons ⟨rfl, hclause⟩ .nil
  | cons x later ih =>
    obtain ⟨rest, hrest, h⟩ := outcome_bind_eq_ok.1 h
    obtain ⟨clause, hclause, h⟩ := outcome_bind_eq_ok.1 h
    cases h
    obtain ⟨⟨-, hhead⟩, htail⟩ := List.forall₂_cons.1 (ih hrest)
    exact .cons ⟨rfl, hclause⟩ (.cons ⟨rfl, hhead⟩ htail)

/-- Where the links of a chain are spelled one by one, none of the clauses
is faulty. -/
theorem not_faulty_of_forall₂ {first : List Fragment}
    {later : List (Relation × List Fragment)}
    {links : List (Option Relation × Clause)}
    (h : List.Forall₂ (fun pieces link =>
        link.1 = pieces.1 ∧ Spells pieces.2 link.2)
      ((none, first) :: later.map fun x => (some x.1, x.2)) links) :
    ∀ pieces ∈ first :: later.map Prod.snd, ¬ Faulty pieces := by
  have hand := h.imp fun pieces link hlink =>
    (⟨hlink.2.not_faulty, hlink⟩ : ¬ Faulty pieces.2 ∧ _)
  have hall := ((List.forall₂_and_left _ _).1 hand).1
  intro pieces hpieces
  rcases List.mem_cons.1 hpieces with rfl | hpieces
  · exact hall _ (List.mem_cons_self ..)
  · obtain ⟨x, hx, rfl⟩ := List.mem_map.1 hpieces
    exact hall (some x.1, x.2)
      (List.mem_cons_of_mem _ (List.mem_map_of_mem hx))

/-- The lenient grammar takes a condition apart at its linking words, which
can be done in one way. It refuses the condition exactly if one of the
clauses is faulty, and otherwise reads it as the chain of what the clauses
spell, in their order and with their linking words; if no number is
in the way. -/
theorem parseLenient_reads_clauses
    (hnumber : ∀ f, parseLenient tag markup = .error f →
      f.isNumeric = false) :
    ∃ first later,
      (∀ first' later',
        Cuts (Fragment.scan markup.toList) first' later' ↔
          first' = first ∧ later' = later) ∧
      ((∃ e, parseLenient tag markup = .error (.malformed e)) ↔
        ∃ pieces ∈ first :: later.map Prod.snd, Faulty pieces) ∧
      ((∀ pieces ∈ first :: later.map Prod.snd, ¬ Faulty pieces) →
        ∃ c, parseLenient tag markup = .ok c ∧
          List.Forall₂ (fun pieces link =>
              link.1 = pieces.1 ∧ Spells pieces.2 link.2)
            ((none, first) :: later.map fun x => (some x.1, x.2))
            c.links) := by
  refine ⟨_, _, fun _ _ => cuts_iff markup.toList, ?_⟩
  cases h : parseLenient tag markup with
  | ok c =>
    have hspells := (forall₂_of_assemble_eq_ok h).imp
      fun (pieces : Option Relation × List Fragment) link hlink =>
        (⟨hlink.1, spells_of_clauseOf hlink.2⟩ :
          link.1 = pieces.1 ∧ Spells pieces.2 link.2)
    refine ⟨iff_of_false nofun ?_, fun _ => ⟨c, rfl, hspells⟩⟩
    rintro ⟨pieces, hpieces, hfaulty⟩
    exact not_faulty_of_forall₂ hspells pieces hpieces hfaulty
  | error f =>
    obtain ⟨pieces, hpieces, hpart⟩ := exists_of_assemble_eq_error h
    have hfaulty := faulty_of_clauseOf hpart (hnumber f h)
    have hmem : pieces ∈ (splitClauses (Fragment.scan markup.toList)).1 ::
        (splitClauses (Fragment.scan markup.toList)).2.map Prod.snd := by
      rcases hpieces with rfl | ⟨x, hx, rfl⟩
      · exact List.mem_cons_self ..
      · exact List.mem_cons_of_mem _ (List.mem_map_of_mem hx)
    refine ⟨iff_of_true ?_ ⟨pieces, hmem, hfaulty⟩,
      fun hnone => absurd hfaulty (hnone pieces hmem)⟩
    rcases ofGrammar_of_parseLenient .always h with ⟨e, rfl⟩ | hf
    · exact ⟨e, rfl⟩
    · have hf := hf.isNumeric
      rw [hnumber f h] at hf
      cases hf

/-- A row of digits is one piece, an operand. -/
theorem scan_of_isDigits {digits : List Char}
    (hdigits : Numeral.isDigits digits = true) :
    Fragment.scan digits = [⟨.operand, digits⟩] := by
  have hne : digits ≠ [] := by
    rintro rfl
    cases hdigits
  have hword : relationWords.contains (String.ofList digits) = false := by
    rw [← Bool.not_eq_true, List.contains_iff_mem]
    intro hmem
    simp only [relationWords, List.mem_cons, List.not_mem_nil,
      or_false] at hmem
    have hletters : digits = "and".toList ∨ digits = "or".toList :=
      hmem.imp (fun h => by rw [← h, String.toList_ofList])
        fun h => by rw [← h, String.toList_ofList]
    rcases hletters with rfl | rfl
    · exact absurd hdigits (by decide)
    · exact absurd hdigits (by decide)
  have hpass : digits.foldlM Fragment.step .outside = some .outside :=
    Fragment.tracks.solid 0 (isSolid_of_isDigits hdigits)
  have hscan : Fragment.scan (digits ++ []) =
      Fragment.ofOperand digits :: Fragment.scan [] :=
    Fragment.scan_operand hne hpass fun _ hc => by cases hc
  rw [List.append_nil, Fragment.ofOperand, hword] at hscan
  simpa [Fragment.scan] using hscan

/-- A row of too many digits has the form of an integer, and is none. -/
theorem parseChars_of_overlong {digits : List Char}
    (hdigits : Numeral.isDigits digits = true)
    (hlong : Numeral.maxDigits < digits.length) :
    Expr.parseChars digits =
      .error (.unreadableInteger (String.ofList digits)) := by
  have hinteger : Numeral.integer? digits = none :=
    (integer?_of_isDigits (Or.inl rfl) hdigits).trans
      (if_neg (Nat.not_le_of_lt hlong))
  rw [Expr.parseChars_eq, Expr.Form.of_isDigits hdigits]
  simp only [Expr.readInteger, hinteger]

/-- A row of too many digits is a clause without a fault and without a
range, and yet it is not read. -/
theorem parseLenient_of_overlong {digits : List Char}
    (hdigits : Numeral.isDigits digits = true)
    (hlong : Numeral.maxDigits < digits.length) :
    Cuts (Fragment.scan digits) [⟨.operand, digits⟩] [] ∧
      ¬ Faulty [⟨.operand, digits⟩] ∧
      parseLenient tag (String.ofList digits) =
        .error (.unreadableInteger (String.ofList digits)) := by
  have hscan := scan_of_isDigits hdigits
  have hclause : clauseOf tag (String.ofList digits)
      [⟨.operand, digits⟩] =
        .error (.unreadableInteger (String.ofList digits)) := by
    show (operandOf (some ⟨.operand, digits⟩) >>= _) = _
    rw [operandOf, parseChars_of_overlong hdigits hlong]
    rfl
  refine ⟨⟨hscan.symm, ?_, List.forall_mem_nil _⟩, ?_, ?_⟩
  · exact List.forall_mem_singleton.2 fun h => by cases h
  · rintro (_ | ⟨_, kind⟩)
    cases kind
  · rw [parseLenient, String.toList_ofList, hscan]
    show (clauseOf tag _ [⟨.operand, digits⟩] >>= _) = _
    rw [hclause]
    rfl

/-- One digit too many is enough. -/
theorem parseLenient_of_overlong_ones :
    let digits := List.replicate 4301 '1'
    Cuts (Fragment.scan digits) [⟨.operand, digits⟩] [] ∧
      ¬ Faulty [⟨.operand, digits⟩] ∧ '(' ∉ digits ∧
      ∀ c, parseLenient "if" (String.ofList digits) ≠ .ok c := by
  intro digits
  have hlength : Numeral.maxDigits < digits.length := by
    rw [List.length_replicate]
    decide
  have hdigits : Numeral.isDigits digits = true := by decide +kernel
  obtain ⟨hcuts, hsound, hread⟩ :=
    @parseLenient_of_overlong "if" digits hdigits hlength
  refine ⟨hcuts, hsound, fun hround => ?_, fun c hc => ?_⟩
  · cases List.eq_of_mem_replicate hround
  · cases hread.symm.trans hc

/-- An operator without an operand behind it, pieces that are ignored, and
a linking word in quotes, which links nothing. -/
theorem parseLenient_reads_clauses_unfinished :
    let markup := "a == and b contains 'x or y' z or c"
    let first : List Fragment :=
      [⟨.operand, "a".toList⟩, ⟨.operator, "==".toList⟩]
    let later : List (Relation × List Fragment) :=
      [(.and, [⟨.operand, "b".toList⟩, ⟨.operand, "contains".toList⟩,
        ⟨.operand, "'x or y'".toList⟩, ⟨.operand, "z".toList⟩]),
      (.or, [⟨.operand, "c".toList⟩])]
    (∀ f, parseLenient "if" markup = .error f → f.isNumeric = false) ∧
      Cuts (Fragment.scan markup.toList) first later ∧
      (¬ ∃ e, parseLenient "if" markup = .error (.malformed e)) ∧
      ∃ c, parseLenient "if" markup = .ok c ∧
        List.Forall₂ (fun pieces link =>
            link.1 = pieces.1 ∧ Spells pieces.2 link.2)
          ((none, first) :: later.map fun x => (some x.1, x.2)) c.links := by
  intro markup first later
  have hread : (parseLenient "if" markup).toOption ≠ none := by
    decide +kernel
  have hnumber : ∀ f, parseLenient "if" markup = .error f →
      f.isNumeric = false :=
    fun f h => absurd (congrArg Except.toOption h) hread
  have hcuts : Cuts (Fragment.scan markup.toList) first later :=
    ⟨by decide +kernel, by decide +kernel, by decide +kernel⟩
  have hsound : ∀ pieces ∈ first :: later.map Prod.snd, ¬ Faulty pieces := by
    refine List.forall_mem_cons.2 ⟨?_, List.forall_mem_cons.2
      ⟨?_, List.forall_mem_singleton.2 ?_⟩⟩
    · show ¬ Faulty [_, _]
      rintro (_ | ⟨_, kind⟩ | ⟨_, _, unknown⟩)
      · cases kind
      · exact unknown .equal rfl
    · rintro (_ | ⟨_, kind⟩ | ⟨_, _, unknown⟩)
      · cases kind
      · exact unknown .contains rfl
    · rintro (_ | ⟨_, kind⟩)
      cases kind
  obtain ⟨_, _, hunique, hrefused, haccepted⟩ :=
    parseLenient_reads_clauses hnumber
  obtain ⟨rfl, rfl⟩ := (hunique _ _).1 hcuts
  exact ⟨hnumber, hcuts, fun h => by
    obtain ⟨pieces, hpieces, hfaulty⟩ := hrefused.1 h
    exact hsound pieces hpieces hfaulty, haccepted hsound⟩

end Condition
end Stencil
