/-
The word `contains` behind an operand.

Whether `contains` compares is decided by the token in front of it alone.
That is right behind every operand but one kind: an operand that ends in
the name `and` or `or`, whether the name stands alone or behind a dot,
looks like a linking word, and `contains` is taken for a name there. The
markup is refused then, as no operand may follow another.

Everything else an operand may end in, a name, a string, a number or a
bracket, leads to the comparison of the two operands, each read as it is
read alone.
-/
import Stencil.Proofs.Condition.Concord
import Stencil.Proofs.Markup.Joining

namespace Stencil

namespace Token

/-- Whether the last token of a markup is one of the names that link. -/
def endsLinking (markup : String) : Bool :=
  match scan markup with
  | .ok tokens =>
    match tokens.dropLast.getLast? with
    | some t => t.kind == .id && relationWords.contains t.text
    | none => false
  | .error _ => false

/-- Whether a markup ends in a name that links is seen at its last
token. -/
theorem endsLinking_of_scan {markup : String} {us : List Token} {t : Token}
    (h : scan markup = .ok (us ++ [t] ++ [endOfString])) :
    endsLinking markup = (t.kind == .id && relationWords.contains t.text) := by
  unfold endsLinking
  rw [h]
  dsimp only
  rw [List.dropLast_concat, List.getLast?_concat]

/-- Of the tokens that an operand may end in, only the names that link are
written like linking words. -/
theorem endsOperand_eq {t : Token} (hends : t.kind.endsOperand = true)
    (hfits : Fits t.kind t.text.toList) :
    t.endsOperand = !(t.kind == .id && relationWords.contains t.text) := by
  rw [endsOperand, hends, Bool.true_and]
  cases hword : relationWords.contains t.text with
  | false => rw [Bool.and_false]
  | true =>
    have hend : t.kind ≠ .endOfString := by
      intro hkind
      rw [hkind] at hends
      cases hends
    rcases hfits.kind_of_letters hend fun c hc => isWord_of_relation hword hc
      with hkind | hkind
    · rw [hkind]
      rfl
    · rw [hkind] at hends
      cases hends

/-- The tokens of two operands with `contains` between them. -/
theorem scanAfter_containing {t : Token} (ht : t.endsOperand = true)
    {us : List Token} {cs : List Char} (hcs : scanAfter none cs = .ok us) :
    scanAfter (some t) (" contains ".toList ++ cs) =
      .ok (⟨.comparison, "contains"⟩ :: us) := by
  have hgap : " ".toList.all isSkipped = true := by decide
  have hafter : Awaits (some ⟨.comparison, "contains"⟩) := awaits_some rfl
  calc scanAfter (some t) (" contains ".toList ++ cs)
      = scanAfter (some t) (" ".toList ++
          (Operator.contains.text.toList ++ ' ' :: cs)) := rfl
    _ = (scanAfter (some ⟨.comparison, "contains"⟩) (' ' :: cs)).map
          (⟨.comparison, "contains"⟩ :: ·) := by
        rw [scanAfter_gap hgap, scanAfter_operator ht]
        rfl
    _ = (scanAfter (some ⟨.comparison, "contains"⟩) cs).map
          (⟨.comparison, "contains"⟩ :: ·) := by
        rw [show ' ' :: cs = " ".toList ++ cs from rfl, scanAfter_gap hgap]
    _ = .ok (⟨.comparison, "contains"⟩ :: us) := by
        rw [scanAfter_of_awaits awaits_none hafter hcs]
        rfl

/-- Behind a name that links, `contains` is a name, whatever follows. -/
theorem scanAfter_linking {t : Token} (ht : t.endsOperand = false)
    {us : List Token} {cs : List Char} (hcs : scanAfter none cs = .ok us) :
    ∃ vs, scanAfter (some t) (" contains ".toList ++ cs) =
      .ok (⟨.id, "contains"⟩ :: vs) := by
  have hgap : " ".toList.all isSkipped = true := by decide
  obtain ⟨vs, hvs⟩ := exists_scanAfter hcs (some ⟨.id, "contains"⟩)
  refine ⟨vs, ?_⟩
  calc scanAfter (some t) (" contains ".toList ++ cs)
      = scanAfter (some t) (" ".toList ++
          ("contains".toList ++ ' ' :: cs)) := rfl
    _ = (scanAfter (some ⟨.id, "contains"⟩) (' ' :: cs)).map
          (⟨.id, "contains"⟩ :: ·) := by
        rw [scanAfter_gap hgap,
          scanAfter_contains_awaited (awaits_some ht) (by decide)]
    _ = .ok (⟨.id, "contains"⟩ :: vs) := by
        rw [show ' ' :: cs = " ".toList ++ cs from rfl, scanAfter_gap hgap,
          hvs]
        rfl

end Token

namespace Condition

/-- An operand with another name behind it is no condition. -/
theorem readTokens_of_name {markup word : String} {e : Expr}
    {ts us : List Token} (h : Derives (.operand e) ts)
    (hword : ∀ r : Relation, word ≠ r.word) :
    readTokens markup (ts ++ ⟨.id, word⟩ :: us) =
      .error (.malformed
        (.unexpectedToken "end_of_string" "id" markup)) := by
  have hs := Cursor.rest_ofTokens markup (ts ++ ⟨.id, word⟩ :: us)
  have hrest := Cursor.rest_past hs
  have hclause := Reader.comparison_of_derives (.single h) hs
    ⟨endsPath_cons (by decide) _ _, by simp⟩
  have hnone := Reader.relation?_of_ne hrest fun r hr =>
    hword r (Token.mk.inj hr).2
  have hread : Reader.condition (.ofTokens markup (ts ++ ⟨.id, word⟩ :: us)) =
      (.ok (.ofClause (.single e)),
        (Cursor.ofTokens markup (ts ++ ⟨.id, word⟩ :: us)).past ts) := by
    rw [Reader.condition, bind_apply, hclause]
    dsimp only
    rw [Reader.budget_bind, Reader.linked, bind_apply, bind_apply, hnone]
    rfl
  rw [readTokens, bind_apply, hread]
  dsimp only
  rw [Reader.expect_bind, Cursor.next_eq hrest, if_neg (by simp)]
  rfl

/-- Two operands with `contains` between them are compared, unless the
first one ends in a name that links. Then the second word is refused. -/
theorem parseStrict_containing {left right : String} {e f : Expr}
    (he : Expr.parseStrict left = .ok e)
    (hf : Expr.parseStrict right = .ok f) :
    parseStrict (left ++ " contains " ++ right) =
      if Token.endsLinking left then
        .error (.malformed (.unexpectedToken "end_of_string" "id"
          (left ++ " contains " ++ right)))
      else .ok (.ofClause (.compare e (some .contains) f)) := by
  obtain ⟨us, t, hscan, hleft, hends, hfits, hjoin⟩ :=
    Expr.scan_of_parseStrict he
  obtain ⟨vs, u, hscan', hright, -⟩ := Expr.scan_of_parseStrict hf
  have hafter := Token.scanAfter_of_scan hscan'
  have hchars : (left ++ " contains " ++ right).toList =
      left.toList ++ (" contains ".toList ++ right.toList) := by
    simp [String.toList_append]
  have hblank : LeavesOperand (" contains ".toList ++ right.toList) := by
    rintro _ ⟨⟩
    exact Or.inl rfl
  have hlinks := Token.endsOperand_eq hends hfits
  rw [Token.endsLinking_of_scan hscan]
  unfold parseStrict Token.scan
  rw [hchars, hjoin none _ Token.awaits_none hblank]
  cases hlinking : t.kind == .id && relationWords.contains t.text with
  | true =>
    rw [hlinking] at hlinks
    obtain ⟨ws, hws⟩ := Token.scanAfter_linking hlinks hafter
    rw [hws]
    show readTokens _ (us ++ [t] ++ ⟨.id, "contains"⟩ :: ws ++ [_]) = _
    rw [List.append_assoc]
    refine readTokens_of_name hleft fun r => ?_
    cases r <;> decide
  | false =>
    rw [hlinking] at hlinks
    rw [Token.scanAfter_containing hlinks hafter]
    exact readTokens_of_derives ⟨_, [], (List.append_nil _).symm,
      .compare hleft rfl hright, .nil⟩

/-- Behind a literal, a number or a bracket, `contains` compares. -/
theorem parseStrict_containing_index :
    parseStrict "a [ 'and' ] contains (1..b.or)" =
      .ok (.ofClause (.compare
        (.path (.step (.root (.const (.text "a"))) (.const (.text "and")) none))
        (some .contains)
        (.range (.const (.int 1)) (.path
          (.step (.root (.const (.text "b"))) (.const (.text "or")) none))))) := by
  have he : Expr.parseStrict "a [ 'and' ]" = .ok (.path
      (.step (.root (.const (.text "a"))) (.const (.text "and")) none)) := by
    decide +kernel
  have hf : Expr.parseStrict "(1..b.or)" = .ok (.range (.const (.int 1))
      (.path (.step (.root (.const (.text "b"))) (.const (.text "or"))
        none))) := by
    decide +kernel
  have hends : Token.endsLinking "a [ 'and' ]" = false := by decide +kernel
  have hparse := parseStrict_containing he hf
  rwa [hends] at hparse

/-- Behind a key that is spelled like a linking word, `contains` is taken
for a name, and the condition is refused. -/
theorem parseStrict_containing_ne :
    ∃ left right e f, Expr.parseStrict left = .ok e ∧
      Expr.parseStrict right = .ok f ∧ relationWords.contains left = false ∧
      parseStrict (left ++ " contains " ++ right) ≠
        .ok (.ofClause (.compare e (some .contains) f)) := by
  refine ⟨"a.and", "b", .path (.step (.root (.const (.text "a")))
    (.const (.text "and")) none), .path (.root (.const (.text "b"))),
    by decide +kernel, by decide +kernel, by decide +kernel, ?_⟩
  decide +kernel

end Condition

end Stencil
