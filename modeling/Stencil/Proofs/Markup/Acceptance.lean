/-
The strict reader reads what its grammar derives.

A derivation tells the reader what to do at every token, as long as what
comes after does not look like more of a path: that is the only place
where the reader looks beyond what it has derived. So derived tokens are
read, with the meaning of their derivation. `Derivation` has the converse,
and as a reading has one answer, a row of tokens has one meaning.
-/
import Stencil.Proofs.Number.Numeral

namespace Stencil

-- ============================================================== cursors

namespace Cursor

variable {s : Cursor} {t : Token} {ts us : List Token}

/-- The cursor behind tokens that stand next. -/
def past (s : Cursor) (ts : List Token) : Cursor :=
  { s with position := s.position + ts.length }

theorem past_cons (s : Cursor) (t : Token) (ts : List Token) :
    s.past (t :: ts) = s.advance.past ts := by
  simp only [past, advance, List.length_cons]
  congr 1
  omega

theorem past_append (s : Cursor) (ts us : List Token) :
    s.past (ts ++ us) = (s.past ts).past us := by
  simp [past, Nat.add_assoc]

theorem rest_past (h : s.rest = ts ++ us) : (s.past ts).rest = us := by
  calc (s.past ts).rest
      = (s.tokens.drop s.position).drop ts.length := by
        rw [List.drop_drop]
        rfl
    _ = (ts ++ us).drop ts.length := by rw [← h]; rfl
    _ = us := List.drop_left

theorem next_eq (h : s.rest = t :: us) : s.next = t := by
  rw [next, h]
  rfl

theorem advance_rest_eq (h : s.rest = t :: us) : s.advance.rest = us := by
  rw [rest_advance, h]
  rfl

end Cursor

-- ============================================================== reading

/-- With the first of these tokens no path goes on. -/
def EndsPath (us : List Token) : Prop :=
  (us.headD .endOfString).kind ≠ .dot ∧
    (us.headD .endOfString).kind ≠ .openSquare

theorem endsPath_cons {kind : TokenKind}
    (h : kind ≠ .dot ∧ kind ≠ .openSquare) (text : String)
    (us : List Token) : EndsPath (⟨kind, text⟩ :: us) := h

theorem Derives.head_steps {p q : Path} {t : Token} {ts : List Token}
    (h : Derives (.steps p q) (t :: ts)) :
    t.kind = .dot ∨ t.kind = .openSquare := by
  cases h with
  | key => exact Or.inl rfl
  | index => exact Or.inr rfl

/-- What it is to read a phrase: from a cursor to a later one. -/
def Phrase.ReadTo (n : Nat) (s s' : Cursor) : Phrase → Prop
  | .operand e => Reader.operand n s = (.ok e, s')
  | .steps p q => Reader.steps n p s = (.ok q, s')

namespace Reader

theorem expect_bind_of_rest {β : Type} {kind : TokenKind} {text : String}
    {s : Cursor} {us : List Token} (h : s.rest = ⟨kind, text⟩ :: us)
    (f : String → Reader β) :
    (expect kind >>= f) s = f text s.advance := by
  rw [expect_bind, Cursor.next_eq h, if_pos rfl]

/-- A range is read from its bounds, and fails over them only after its
end. -/
theorem operand_range {a b c : String} {first last : Expr}
    {ts zs us : List Token} {n : Nat} {s : Cursor}
    (hs : s.rest = ⟨.openRound, a⟩ ::
      (ts ++ ⟨.dotdot, b⟩ :: (zs ++ ⟨.closeRound, c⟩ :: us)))
    (hfirst : operand n s.advance = (.ok first, s.advance.past ts))
    (hlast : operand n (s.advance.past ts).advance =
      (.ok last, (s.advance.past ts).advance.past zs)) :
    operand (n + 1) s = (Expr.between Value.shown first last,
      s.past (⟨.openRound, a⟩ ::
        (ts ++ ⟨.dotdot, b⟩ :: (zs ++ [⟨.closeRound, c⟩])))) := by
  have hdots := Cursor.rest_past (Cursor.advance_rest_eq hs)
  have hclose := Cursor.rest_past (Cursor.advance_rest_eq hdots)
  have hbetween : ∀ t : Cursor, between first last t =
      (Expr.between Value.shown first last, t) := by
    intro t
    rw [between]
    cases Expr.between Value.shown first last <;> rfl
  rw [operand, peek_bind, Cursor.next_eq hs]
  dsimp only
  rw [advance_bind, bind_apply, hfirst]
  dsimp only
  rw [expect_bind_of_rest hdots, bind_apply, hlast]
  dsimp only
  rw [expect_bind_of_rest hclose, hbetween, Cursor.past_cons,
    Cursor.past_append, Cursor.past_cons, Cursor.past_append]
  rfl

end Reader

open Reader in
/-- Derived tokens are read with the meaning of their derivation, if no
path goes on with what comes after them. -/
theorem Derives.readTo {phrase : Phrase} {ts : List Token}
    (h : Derives phrase ts) {n : Nat} {s : Cursor} {us : List Token}
    (hs : s.rest = ts ++ us) (hn : ts.length < n) (hus : EndsPath us) :
    phrase.ReadTo n s (s.past ts) := by
  induction h generalizing n s us with
  | @literal word v hword =>
    obtain ⟨n, rfl⟩ := Nat.exists_eq_add_one_of_ne_zero (Nat.ne_zero_of_lt hn)
    show operand (n + 1) s = _
    have hafter : s.advance.next.kind ≠ .dot ∧
        s.advance.next.kind ≠ .openSquare := by
      rw [Cursor.next, Cursor.advance_rest_eq hs]
      exact hus
    rw [operand, peek_bind, Cursor.next_eq hs]
    dsimp only
    rw [goesOn_bind, advance_bind, Cursor.next_eq hs,
      if_neg (by simpa using hafter), hword]
    rfl
  | @name word p ts hword hsteps ih =>
    obtain ⟨n, rfl⟩ := Nat.exists_eq_add_one_of_ne_zero (Nat.ne_zero_of_lt hn)
    show operand (n + 1) s = _
    have hrest := Cursor.advance_rest_eq hs
    have hmeaning : (if (s.advance.next.kind == .dot ||
        s.advance.next.kind == .openSquare) = true then none
        else literal? word) = none := by
      cases ts with
      | nil =>
        rw [hword rfl, ite_self]
      | cons t ts =>
        rw [Cursor.next_eq hrest, if_pos (by simpa using hsteps.head_steps)]
    have hread : steps n (.root (.const (.text word))) s.advance = _ :=
      ih hrest (Nat.lt_of_succ_lt_succ hn) hus
    rw [operand, peek_bind, Cursor.next_eq hs]
    dsimp only
    rw [goesOn_bind, advance_bind, Cursor.next_eq hs, hmeaning]
    dsimp only
    rw [bind_apply, hread, Cursor.past_cons]
    rfl
  | @bracketed a b e p ts zs hinner _ ihInner ihSteps =>
    obtain ⟨n, rfl⟩ := Nat.exists_eq_add_one_of_ne_zero (Nat.ne_zero_of_lt hn)
    show operand (n + 1) s = _
    simp only [List.length_cons, List.length_append] at hn
    have hrest : s.advance.rest = ts ++ ⟨.closeSquare, b⟩ :: (zs ++ us) := by
      rw [Cursor.advance_rest_eq hs]
      simp
    have hclose := Cursor.rest_past hrest
    have hread : operand n s.advance = _ :=
      ihInner hrest (by omega) (endsPath_cons (by decide) _ _)
    have hgo : steps n (.root e) (s.advance.past ts).advance = _ :=
      ihSteps (Cursor.advance_rest_eq hclose) (by omega) hus
    rw [operand, peek_bind, Cursor.next_eq hs]
    dsimp only
    rw [advance_bind, bind_apply, hread]
    dsimp only
    rw [expect_bind_of_rest hclose, bind_apply, hgo, Cursor.past_cons,
      Cursor.past_append, Cursor.past_cons]
    rfl
  | @string text =>
    obtain ⟨n, rfl⟩ := Nat.exists_eq_add_one_of_ne_zero (Nat.ne_zero_of_lt hn)
    show operand (n + 1) s = _
    rw [operand, peek_bind, Cursor.next_eq hs]
    dsimp only
    rw [advance_bind, Cursor.next_eq hs]
    rfl
  | @number text v hv =>
    obtain ⟨n, rfl⟩ := Nat.exists_eq_add_one_of_ne_zero (Nat.ne_zero_of_lt hn)
    show operand (n + 1) s = _
    rw [operand, peek_bind, Cursor.next_eq hs]
    dsimp only
    rw [advance_bind, Cursor.next_eq hs]
    unfold numeral? at hv
    simp only [numberOf, hv]
    rfl
  | @range a b c first last e ts zs hfirst hlast he ihFirst ihLast =>
    obtain ⟨n, rfl⟩ := Nat.exists_eq_add_one_of_ne_zero (Nat.ne_zero_of_lt hn)
    show operand (n + 1) s = _
    simp only [List.length_cons, List.length_append] at hn
    have hs' : s.rest = ⟨.openRound, a⟩ ::
        (ts ++ ⟨.dotdot, b⟩ :: (zs ++ ⟨.closeRound, c⟩ :: us)) := by
      simpa using hs
    have hrest := Cursor.advance_rest_eq hs'
    have hread : operand n s.advance = _ :=
      ihFirst hrest (by omega) (endsPath_cons (by decide) _ _)
    have hread' : operand n (s.advance.past ts).advance = _ :=
      ihLast (Cursor.advance_rest_eq (Cursor.rest_past hrest)) (by omega)
        (endsPath_cons (by decide) _ _)
    rw [operand_range hs' hread hread', he]
  | done p =>
    obtain ⟨n, rfl⟩ := Nat.exists_eq_add_one_of_ne_zero (Nat.ne_zero_of_lt hn)
    show steps (n + 1) p s = _
    have hafter : s.next.kind ≠ .dot ∧ s.next.kind ≠ .openSquare := by
      rw [Cursor.next, hs]
      exact hus
    rw [steps, accept?_bind, if_neg hafter.2]
    simp only [Option.isSome_none, Bool.false_eq_true, if_false]
    rw [accept?_bind, if_neg hafter.1]
    rfl
  | @key d word p q ts hsteps ih =>
    obtain ⟨n, rfl⟩ := Nat.exists_eq_add_one_of_ne_zero (Nat.ne_zero_of_lt hn)
    show steps (n + 1) p s = _
    have hname := Cursor.advance_rest_eq hs
    have hgo : steps n (.step p (.const (.text word))
        (Command.ofWord? word)) s.advance.advance = _ :=
      ih (Cursor.advance_rest_eq hname)
        (Nat.lt_of_succ_lt (Nat.lt_of_succ_lt_succ hn)) hus
    rw [steps, accept?_bind, Cursor.next_eq hs, if_neg (by simp)]
    simp only [Option.isSome_none, Bool.false_eq_true, if_false]
    rw [accept?_bind, Cursor.next_eq hs, if_pos rfl]
    simp only [Option.isSome_some, if_true]
    rw [expect_bind_of_rest hname, hgo, Cursor.past_cons, Cursor.past_cons]
  | @index a b e p q ts zs hinner _ ihInner ihSteps =>
    obtain ⟨n, rfl⟩ := Nat.exists_eq_add_one_of_ne_zero (Nat.ne_zero_of_lt hn)
    show steps (n + 1) p s = _
    simp only [List.length_cons, List.length_append] at hn
    have hrest : s.advance.rest = ts ++ ⟨.closeSquare, b⟩ :: (zs ++ us) := by
      rw [Cursor.advance_rest_eq hs]
      simp
    have hclose := Cursor.rest_past hrest
    have hread : operand n s.advance = _ :=
      ihInner hrest (by omega) (endsPath_cons (by decide) _ _)
    have hgo : steps n (.step p e none) (s.advance.past ts).advance = _ :=
      ihSteps (Cursor.advance_rest_eq hclose) (by omega) hus
    rw [steps, accept?_bind, Cursor.next_eq hs, if_pos rfl]
    simp only [Option.isSome_some, if_true]
    rw [bind_apply, hread]
    dsimp only
    rw [expect_bind_of_rest hclose, hgo, Cursor.past_cons, Cursor.past_append,
      Cursor.past_cons]

-- ============================================================ conditions

/-- With the first of these tokens neither a path nor a comparison goes
on. -/
def EndsClause (us : List Token) : Prop :=
  EndsPath us ∧ (us.headD .endOfString).kind ≠ .comparison

theorem DerivesLinked.endsClause {later : List (Relation × Clause)}
    {ts : List Token} (h : DerivesLinked later ts) :
    EndsClause (ts ++ [.endOfString]) := by
  cases h with
  | nil => simp [EndsClause, EndsPath, Token.endOfString]
  | cons => simp [EndsClause, EndsPath]

/-- The strict grammar of conditions: a clause, and what is linked to
it. -/
def DerivesChain (c : Condition) (ts : List Token) : Prop :=
  ∃ first rest, ts = first ++ rest ∧ DerivesClause c.head first ∧
    DerivesLinked c.tail rest

namespace Reader

variable {s : Cursor} {ts us : List Token}

theorem length_le_of_rest (h : s.rest = ts ++ us) :
    ts.length ≤ s.tokens.length := by
  have hle := congrArg List.length h
  simp only [Cursor.rest, List.length_drop, List.length_append] at hle
  omega

theorem budget_bind {β : Type} (f : Nat → Reader β) (s : Cursor) :
    (budget >>= f) s = f (s.tokens.length + 1) s := rfl

theorem expression_of_derives {e : Expr} (h : Derives (.operand e) ts)
    (hs : s.rest = ts ++ us) (hus : EndsPath us) :
    expression s = (.ok e, s.past ts) :=
  h.readTo hs (Nat.lt_succ_of_le (length_le_of_rest hs)) hus

/-- A derived clause is read. -/
theorem comparison_of_derives {clause : Clause}
    (h : DerivesClause clause ts) (hs : s.rest = ts ++ us)
    (hus : EndsClause us) : comparison s = (.ok clause, s.past ts) := by
  cases h with
  | @single e ts he =>
    have hrest := Cursor.rest_past hs
    have hafter : (s.past ts).next.kind ≠ .comparison := by
      rw [Cursor.next, hrest]
      exact hus.2
    rw [comparison, bind_apply, expression_of_derives he hs hus.1]
    dsimp only
    rw [accept?_bind, if_neg hafter]
    rfl
  | @compare left right op text ts zs hleft hop hright =>
    rw [List.append_assoc] at hs
    have hrest := Cursor.rest_past hs
    have hread := expression_of_derives hleft hs
      (endsPath_cons (by decide) _ _)
    have hread' := expression_of_derives hright
      (Cursor.advance_rest_eq hrest) hus.1
    rw [comparison, bind_apply, hread]
    dsimp only
    rw [accept?_bind, Cursor.next_eq hrest, if_pos rfl]
    dsimp only
    rw [bind_apply, hread', hop, Cursor.past_append, Cursor.past_cons]
    rfl

theorem relation?_of_word {r : Relation}
    (h : s.rest = ⟨.id, r.word⟩ :: us) :
    relation? s = (.ok (some r), s.advance) := by
  rw [relation?, acceptName?_bind, Cursor.next_eq h]
  cases r with
  | and => rfl
  | or =>
    rw [if_neg (by decide)]
    simp only [Option.isSome_none, Bool.false_eq_true, if_false]
    rw [acceptName?_bind, Cursor.next_eq h]
    rfl

/-- A token that is no linking word stays. -/
theorem relation?_of_ne {t : Token} (h : s.rest = t :: us)
    (hne : ∀ r : Relation, t ≠ ⟨.id, r.word⟩) :
    relation? s = (.ok none, s) := by
  have hand : t ≠ ⟨.id, "and"⟩ := hne .and
  have hor : t ≠ ⟨.id, "or"⟩ := hne .or
  rw [relation?, acceptName?_bind, Cursor.next_eq h, if_neg hand]
  simp only [Option.isSome_none, Bool.false_eq_true, if_false]
  rw [acceptName?_bind, Cursor.next_eq h, if_neg hor]
  rfl

/-- A derived chain is read to the end. -/
theorem linked_of_derives {later : List (Relation × Clause)}
    (h : DerivesLinked later ts) {n : Nat}
    (hs : s.rest = ts ++ [.endOfString]) (hn : ts.length < n) :
    linked n s = (.ok later, s.past ts) := by
  induction h generalizing n s with
  | nil =>
    obtain ⟨n, rfl⟩ := Nat.exists_eq_add_one_of_ne_zero (Nat.ne_zero_of_lt hn)
    rw [linked, bind_apply, relation?_of_ne hs nofun]
    rfl
  | @cons r clause later ts us hclause hlater ih =>
    obtain ⟨n, rfl⟩ := Nat.exists_eq_add_one_of_ne_zero (Nat.ne_zero_of_lt hn)
    simp only [List.length_cons, List.length_append] at hn
    have hrest : s.advance.rest = ts ++ (us ++ [.endOfString]) := by
      rw [Cursor.advance_rest_eq hs]
      simp
    have hread := comparison_of_derives hclause hrest hlater.endsClause
    have hgo := ih (Cursor.rest_past hrest) (n := n) (by omega)
    rw [linked, bind_apply, relation?_of_word hs]
    dsimp only
    rw [bind_apply, hread]
    dsimp only
    rw [bind_apply, hgo, Cursor.past_cons, Cursor.past_append]
    rfl

theorem condition_of_derives {c : Condition} (h : DerivesChain c ts)
    (hs : s.rest = ts ++ [.endOfString]) :
    condition s = (.ok c, s.past ts) := by
  obtain ⟨first, rest, rfl, hhead, htail⟩ := h
  rw [List.append_assoc] at hs
  have hrest := Cursor.rest_past hs
  have hread := comparison_of_derives hhead hs htail.endsClause
  have hgo := linked_of_derives htail hrest
    (Nat.lt_succ_of_le (length_le_of_rest hrest))
  rw [condition, bind_apply, hread]
  dsimp only
  rw [budget_bind, bind_apply, hgo, Cursor.past_append]
  rfl

end Reader

-- ========================================================= whole markups

section

variable {markup : String} {ts : List Token}

/-- All tokens are read as the operand that is derived from them. -/
theorem Expr.readTokens_of_derives {e : Expr}
    (h : Derives (.operand e) ts) :
    readTokens markup (ts ++ [.endOfString]) = .ok e := by
  have hs := Cursor.rest_ofTokens markup (ts ++ [.endOfString])
  have hread := Reader.expression_of_derives h hs (endsPath_cons (by decide) _ _)
  rw [readTokens, bind_apply, hread]
  dsimp only
  rw [Reader.expect_bind_of_rest (Cursor.rest_past hs)]
  rfl

/-- All tokens are read as the condition that is derived from them. -/
theorem Condition.readTokens_of_derives {c : Condition}
    (h : DerivesChain c ts) :
    readTokens markup (ts ++ [.endOfString]) = .ok c := by
  have hs := Cursor.rest_ofTokens markup (ts ++ [.endOfString])
  rw [readTokens, bind_apply, Reader.condition_of_derives h hs]
  dsimp only
  rw [Reader.expect_bind_of_rest (Cursor.rest_past hs)]
  rfl

/-- Tokens are derived as one operand at most. -/
theorem Derives.unique {e e' : Expr} (h : Derives (.operand e) ts)
    (h' : Derives (.operand e') ts) : e = e' :=
  Except.ok.inj (((Expr.readTokens_of_derives h :
    Expr.readTokens "" _ = _).symm.trans (Expr.readTokens_of_derives h')))

/-- Tokens are derived as one condition at most. -/
theorem DerivesChain.unique {c c' : Condition} (h : DerivesChain c ts)
    (h' : DerivesChain c' ts) : c = c' :=
  Except.ok.inj ((Condition.readTokens_of_derives h :
    Condition.readTokens "" _ = _).symm.trans
    (Condition.readTokens_of_derives h'))

/-- An operand is read exactly when it is derived. -/
theorem Expr.readTokens_eq_ok_iff {e : Expr}
    (h : ∀ t ∈ ts, t.kind ≠ .endOfString) :
    readTokens markup (ts ++ [.endOfString]) = .ok e ↔
      Derives (.operand e) ts :=
  ⟨fun hread => Expr.derives_of_readTokens hread h,
    Expr.readTokens_of_derives⟩

/-- A condition is read exactly when it is derived. -/
theorem Condition.readTokens_eq_ok_iff {c : Condition}
    (h : ∀ t ∈ ts, t.kind ≠ .endOfString) :
    readTokens markup (ts ++ [.endOfString]) = .ok c ↔
      DerivesChain c ts :=
  ⟨fun hread => Condition.derives_of_readTokens hread h,
    Condition.readTokens_of_derives⟩

end

end Stencil
