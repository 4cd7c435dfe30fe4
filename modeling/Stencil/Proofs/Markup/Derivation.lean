/-
What the strict reader has read.

The strict grammar is a grammar of tokens. `Derives` is this grammar for
operands and for the steps of paths, with the expression that each
production builds; `DerivesClause` and `DerivesLinked` go on to conditions.
A reader that answers has derived its answer from the tokens that it has
taken off the cursor. Where the reader looks ahead, the lemma on steps
keeps what it saw: after a path stands no token that would go on with it.
-/
import Stencil.Condition.Strict
import Stencil.Proofs.Sequence

namespace Stencil

-- ============================================================= grammar

/-- The number that the text of a token spells. -/
def numeral? (text : String) : Option Value :=
  if text.toList.contains '.' then
    (Numeral.float? text.toList).map Value.float
  else (Numeral.integer? text.toList).map Value.int

/-- What tokens are derived as: an operand, or the steps that lead from
one path to a longer one. -/
inductive Phrase
  | operand (e : Expr)
  | steps (start path : Path)

/-- The strict grammar of operands, with what its productions mean. -/
inductive Derives : Phrase → List Token → Prop
  | literal {word : String} {v : Value} : literal? word = some v →
      Derives (.operand (.const v)) [⟨.id, word⟩]
  | name {word : String} {p : Path} {ts : List Token} :
      (ts = [] → literal? word = none) →
      Derives (.steps (.root (.const (.text word))) p) ts →
      Derives (.operand (.path p)) (⟨.id, word⟩ :: ts)
  | bracketed {a b : String} {e : Expr} {p : Path} {ts us : List Token} :
      Derives (.operand e) ts → Derives (.steps (.root e) p) us →
      Derives (.operand (.path p))
        (⟨.openSquare, a⟩ :: (ts ++ ⟨.closeSquare, b⟩ :: us))
  | string {text : String} :
      Derives (.operand (.const (.text (Reader.unquoted text))))
        [⟨.string, text⟩]
  | number {text : String} {v : Value} : numeral? text = some v →
      Derives (.operand (.const v)) [⟨.number, text⟩]
  | range {a b c : String} {first last e : Expr} {ts us : List Token} :
      Derives (.operand first) ts → Derives (.operand last) us →
      Expr.between Value.shown first last = .ok e →
      Derives (.operand e)
        (⟨.openRound, a⟩ :: (ts ++ ⟨.dotdot, b⟩ :: (us ++ [⟨.closeRound, c⟩])))
  | done (p : Path) : Derives (.steps p p) []
  | key {d word : String} {p q : Path} {ts : List Token} :
      Derives (.steps
        (.step p (.const (.text word)) (Command.ofWord? word)) q) ts →
      Derives (.steps p q) (⟨.dot, d⟩ :: ⟨.id, word⟩ :: ts)
  | index {a b : String} {e : Expr} {p q : Path} {ts us : List Token} :
      Derives (.operand e) ts → Derives (.steps (.step p e none) q) us →
      Derives (.steps p q)
        (⟨.openSquare, a⟩ :: (ts ++ ⟨.closeSquare, b⟩ :: us))

/-- The strict grammar of clauses. -/
inductive DerivesClause : Clause → List Token → Prop
  | single {e : Expr} {ts : List Token} :
      Derives (.operand e) ts → DerivesClause (.single e) ts
  | compare {left right : Expr} {op : Operator} {text : String}
      {ts us : List Token} :
      Derives (.operand left) ts → Operator.ofText? text = some op →
      Derives (.operand right) us →
      DerivesClause (.compare left (some op) right)
        (ts ++ ⟨.comparison, text⟩ :: us)

/-- The strict grammar of what is linked to a clause. -/
inductive DerivesLinked : List (Relation × Clause) → List Token → Prop
  | nil : DerivesLinked [] []
  | cons {r : Relation} {clause : Clause}
      {later : List (Relation × Clause)} {ts us : List Token} :
      DerivesClause clause ts → DerivesLinked later us →
      DerivesLinked ((r, clause) :: later) (⟨.id, r.word⟩ :: (ts ++ us))

-- ============================================================= reading

namespace Reader

/-- A token that is no end stands in front of the rest. -/
theorem rest_eq_cons {s : Cursor} {t : Token} (h : s.next = t)
    (hkind : t.kind ≠ .endOfString) : s.rest = t :: s.advance.rest := by
  rw [Cursor.rest_advance]
  unfold Cursor.next at h
  cases hrest : s.rest with
  | nil =>
    rw [hrest] at h
    subst h
    exact absurd rfl hkind
  | cons t' rest =>
    rw [hrest] at h
    subst h
    rfl

section

variable {β : Type} {s s' : Cursor} {kind : TokenKind} {text : String}
  {b : β}

/-- Looking at the next token changes nothing. -/
theorem peek_bind (f : Token → Reader β) (s : Cursor) :
    (peek >>= f) s = f s.next s := rfl

/-- Passing the next token answers its text. -/
theorem advance_bind (f : String → Reader β) (s : Cursor) :
    (advance >>= f) s = f s.next.text s.advance := rfl

/-- An expected token is passed, any other one is refused. -/
theorem expect_bind (f : String → Reader β) (s : Cursor) :
    (expect kind >>= f) s =
      if s.next.kind = kind then f s.next.text s.advance
      else (.error (.malformed (.unexpectedToken kind.name s.next.kind.name
        s.markup)), s) := by
  have hexpect : expect kind s =
      (if s.next.kind == kind then advance else refuseToken kind.name :
        Reader String) s := rfl
  rw [bind_apply, hexpect]
  by_cases hkind : s.next.kind = kind
  · rw [if_pos hkind, if_pos (beq_iff_eq.2 hkind)]
    rfl
  · rw [if_neg hkind, if_neg (by simpa using hkind)]
    rfl

/-- An expected token is the next one, and it is passed. -/
theorem expect_bind_eq_ok {f : String → Reader β}
    (h : (expect kind >>= f) s = (.ok b, s')) :
    ∃ text, s.next = ⟨kind, text⟩ ∧ f text s.advance = (.ok b, s') := by
  rw [expect_bind] at h
  split at h
  · next hkind =>
    subst hkind
    exact ⟨s.next.text, rfl, h⟩
  · cases h

/-- A token of the kind is accepted and passed, any other one stays. -/
theorem accept?_bind (f : Option String → Reader β) (s : Cursor) :
    (accept? kind >>= f) s =
      if s.next.kind = kind then f (some s.next.text) s.advance
      else f none s := by
  have haccept : accept? kind s =
      (if s.next.kind == kind then some <$> advance else pure none :
        Reader (Option String)) s := by
    show (if s.next.kind == kind then _ else _ : Reader (Option String)) s = _
    cases s.next.kind == kind <;> rfl
  rw [bind_apply, haccept]
  by_cases hkind : s.next.kind = kind
  · rw [if_pos hkind, if_pos (beq_iff_eq.2 hkind)]
    rfl
  · rw [if_neg hkind, if_neg (by simpa using hkind)]
    rfl

/-- A name is accepted and passed, any other token stays. -/
theorem acceptName?_bind {name : String} (f : Option String → Reader β)
    (s : Cursor) :
    (acceptName? name >>= f) s =
      if s.next = ⟨.id, name⟩ then f (some s.next.text) s.advance
      else f none s := by
  have haccept : acceptName? name s =
      (if s.next.kind == .id && s.next.text == name then some <$> advance
        else pure none : Reader (Option String)) s := by
    show (if s.next.kind == .id && s.next.text == name then _ else _ :
      Reader (Option String)) s = _
    cases s.next.kind == .id && s.next.text == name <;> rfl
  have hiff : (s.next.kind == .id && s.next.text == name) = true ↔
      s.next = ⟨.id, name⟩ := by
    rw [Bool.and_eq_true, beq_iff_eq, beq_iff_eq]
    constructor
    · rintro ⟨hkind, htext⟩
      rw [← hkind, ← htext]
    · intro h
      rw [h]
      exact ⟨rfl, rfl⟩
  rw [bind_apply, haccept]
  by_cases hname : s.next = ⟨.id, name⟩
  · rw [if_pos hname, if_pos (hiff.2 hname)]
    rfl
  · rw [if_neg hname, if_neg (fun h => hname (hiff.1 h))]
    rfl

/-- Whether a path goes on depends on the token after its name. -/
theorem goesOn_bind (f : Bool → Reader β) (s : Cursor) :
    (goesOn >>= f) s = f (s.advance.next.kind == .dot ||
      s.advance.next.kind == .openSquare) s := by
  have hgoes : goesOn s = (.ok (s.advance.next.kind == .dot ||
      s.advance.next.kind == .openSquare), s) := by
    show (if s.advance.next.kind == .dot then _ else _ : Reader Bool) s = _
    cases s.advance.next.kind == .dot <;> rfl
  rw [bind_apply, hgoes]

/-- The text of a number token spells a number. -/
theorem numberOf_eq_ok {e : Expr} (h : numberOf text s = (.ok e, s')) :
    ∃ v, numeral? text = some v ∧ e = .const v ∧ s' = s := by
  cases hv : numeral? text with
  | none =>
    unfold numeral? at hv
    simp only [numberOf, hv] at h
    cases h
  | some v =>
    refine ⟨v, rfl, ?_⟩
    unfold numeral? at hv
    simp only [numberOf, hv] at h
    cases h
    exact ⟨rfl, rfl⟩

/-- A range is put together without looking at tokens. -/
theorem between_eq_ok {first last e : Expr}
    (h : between first last s = (.ok e, s')) :
    Expr.between Value.shown first last = .ok e ∧ s' = s := by
  unfold between at h
  cases he : Expr.between Value.shown first last with
  | error f =>
    rw [he] at h
    cases h
  | ok e' =>
    rw [he] at h
    cases h
    exact ⟨rfl, rfl⟩

end

-- ========================================================= derivations

/-- What has been read is derived from the tokens passed. The induction is
on the budget, for operands and steps together, as they read each other;
after steps no token stands that would go on with them. -/
theorem derives_of_budget (n : Nat) :
    (∀ s s' e, operand n s = (.ok e, s') →
      ∃ ts, s.rest = ts ++ s'.rest ∧ Derives (.operand e) ts) ∧
    ∀ s s' p q, steps n p s = (.ok q, s') →
      ∃ ts, s.rest = ts ++ s'.rest ∧ Derives (.steps p q) ts ∧
        s'.next.kind ≠ .dot ∧ s'.next.kind ≠ .openSquare := by
  induction n with
  | zero =>
    constructor
    · intro s s' e h
      cases h
    · intro s s' p q h
      cases h
  | succ n ih =>
    obtain ⟨ihOperand, ihSteps⟩ := ih
    constructor
    · intro s s' e h
      rw [operand, peek_bind] at h
      rcases hnext : s.next with ⟨kind, text⟩
      have htext : s.next.text = text := by rw [hnext]
      rw [hnext] at h
      cases kind with
      | id =>
        dsimp only at h
        rw [goesOn_bind, advance_bind, htext] at h
        have hword := rest_eq_cons hnext nofun
        rcases hmeaning : (if (s.advance.next.kind == .dot ||
          s.advance.next.kind == .openSquare) = true then none
          else literal? text) with _ | v
        · rw [hmeaning] at h
          obtain ⟨p, u, hp, h⟩ := bind_eq_ok.1 h
          cases h
          obtain ⟨ts, hts, hsteps, hdot, hsquare⟩ := ihSteps _ _ _ _ hp
          refine ⟨⟨.id, text⟩ :: ts, by rw [hword, hts]; rfl,
            .name ?_ hsteps⟩
          rintro rfl
          -- nothing was read after the name, so nothing goes on with it
          have hsame : s.advance.next = s'.next := by
            rw [Cursor.next, hts]
            rfl
          rw [if_neg] at hmeaning
          · exact hmeaning
          · simpa [hsame] using ⟨hdot, hsquare⟩
        · rw [hmeaning] at h
          cases h
          split at hmeaning
          · cases hmeaning
          · exact ⟨_, hword, .literal hmeaning⟩
      | openSquare =>
        dsimp only at h
        rw [advance_bind] at h
        obtain ⟨e, t, he, h⟩ := bind_eq_ok.1 h
        obtain ⟨b, hclose, h⟩ := expect_bind_eq_ok h
        obtain ⟨p, u, hp, h⟩ := bind_eq_ok.1 h
        cases h
        obtain ⟨ts, hts, hderive⟩ := ihOperand _ _ _ he
        obtain ⟨us, hus, hsteps, -⟩ := ihSteps _ _ _ _ hp
        refine ⟨⟨.openSquare, text⟩ :: (ts ++ ⟨.closeSquare, b⟩ :: us), ?_,
          .bracketed hderive hsteps⟩
        rw [rest_eq_cons hnext nofun, hts, rest_eq_cons hclose nofun, hus]
        simp
      | string =>
        dsimp only at h
        rw [advance_bind, htext] at h
        cases h
        exact ⟨_, rest_eq_cons hnext nofun, .string⟩
      | number =>
        dsimp only at h
        rw [advance_bind, htext] at h
        obtain ⟨v, hv, rfl, rfl⟩ := numberOf_eq_ok h
        exact ⟨_, rest_eq_cons hnext nofun, .number hv⟩
      | openRound =>
        dsimp only at h
        rw [advance_bind] at h
        obtain ⟨first, t, hfirst, h⟩ := bind_eq_ok.1 h
        obtain ⟨b, hdots, h⟩ := expect_bind_eq_ok h
        obtain ⟨last, u, hlast, h⟩ := bind_eq_ok.1 h
        obtain ⟨c, hclose, h⟩ := expect_bind_eq_ok h
        obtain ⟨he, rfl⟩ := between_eq_ok h
        obtain ⟨ts, hts, hderive⟩ := ihOperand _ _ _ hfirst
        obtain ⟨us, hus, hderive'⟩ := ihOperand _ _ _ hlast
        refine ⟨⟨.openRound, text⟩ :: (ts ++ ⟨.dotdot, b⟩ ::
          (us ++ [⟨.closeRound, c⟩])), ?_, .range hderive hderive' he⟩
        rw [rest_eq_cons hnext nofun, hts, rest_eq_cons hdots nofun, hus,
          rest_eq_cons hclose nofun]
        simp
      | _ =>
        obtain ⟨_, _, _, h⟩ := bind_eq_ok.1 h
        cases h
    · intro s s' p q h
      rw [steps, accept?_bind] at h
      split at h
      · next hkind =>
        have hnext : s.next = ⟨.openSquare, s.next.text⟩ := by
          rw [← hkind]
        simp only [Option.isSome_some, if_true] at h
        obtain ⟨e, t, he, h⟩ := bind_eq_ok.1 h
        obtain ⟨b, hclose, h⟩ := expect_bind_eq_ok h
        obtain ⟨ts, hts, hderive⟩ := ihOperand _ _ _ he
        obtain ⟨us, hus, hsteps, hends⟩ := ihSteps _ _ _ _ h
        refine ⟨⟨.openSquare, s.next.text⟩ ::
          (ts ++ ⟨.closeSquare, b⟩ :: us), ?_, .index hderive hsteps, hends⟩
        rw [rest_eq_cons hnext nofun, hts, rest_eq_cons hclose nofun, hus]
        simp
      · next hsquare =>
        simp only [Option.isSome_none, Bool.false_eq_true, if_false] at h
        rw [accept?_bind] at h
        split at h
        · next hkind =>
          have hnext : s.next = ⟨.dot, s.next.text⟩ := by
            rw [← hkind]
          simp only [Option.isSome_some, if_true] at h
          obtain ⟨word, hword, h⟩ := expect_bind_eq_ok h
          obtain ⟨ts, hts, hsteps, hends⟩ := ihSteps _ _ _ _ h
          refine ⟨⟨.dot, s.next.text⟩ :: ⟨.id, word⟩ :: ts, ?_,
            .key hsteps, hends⟩
          rw [rest_eq_cons hnext nofun, rest_eq_cons hword nofun, hts]
          simp
        · next hdot =>
          cases h
          exact ⟨[], rfl, .done _, hdot, hsquare⟩

variable {s s' : Cursor}

/-- An operand that has been read is derived from the tokens passed. -/
theorem derives_of_expression {e : Expr}
    (h : expression s = (.ok e, s')) :
    ∃ ts, s.rest = ts ++ s'.rest ∧ Derives (.operand e) ts := by
  obtain ⟨n, t, hbudget, h⟩ := bind_eq_ok.1 h
  cases hbudget
  exact (derives_of_budget _).1 _ _ _ h

/-- A comparison that has been read is derived from the tokens passed. -/
theorem derives_of_comparison {clause : Clause}
    (h : comparison s = (.ok clause, s')) :
    ∃ ts, s.rest = ts ++ s'.rest ∧ DerivesClause clause ts := by
  obtain ⟨left, t, hleft, h⟩ := bind_eq_ok.1 h
  obtain ⟨ts, hts, hderive⟩ := derives_of_expression hleft
  rw [accept?_bind] at h
  split at h
  · next hkind =>
    have hnext : t.next = ⟨.comparison, t.next.text⟩ := by
      rw [← hkind]
    obtain ⟨right, u, hright, h⟩ := bind_eq_ok.1 h
    obtain ⟨us, hus, hderive'⟩ := derives_of_expression hright
    revert h
    cases hop : Operator.ofText? t.next.text with
    | none => exact nofun
    | some op =>
      intro h
      cases h
      refine ⟨ts ++ ⟨.comparison, t.next.text⟩ :: us, ?_,
        .compare hderive hop hderive'⟩
      rw [hts, rest_eq_cons hnext nofun, hus]
      simp
  · cases h
    exact ⟨ts, hts, .single hderive⟩

/-- A linking word is passed, and nothing else is. -/
theorem relation?_eq_ok {found : Option Relation}
    (h : relation? s = (.ok found, s')) :
    (found = none ∧ s' = s) ∨
      ∃ r : Relation, found = some r ∧ s.next = ⟨.id, r.word⟩ ∧
        s' = s.advance := by
  rw [relation?, acceptName?_bind] at h
  split at h
  · next hnext =>
    cases h
    exact Or.inr ⟨.and, rfl, hnext, rfl⟩
  · simp only [Option.isSome_none, Bool.false_eq_true, if_false] at h
    rw [acceptName?_bind] at h
    split at h
    · next hnext =>
      cases h
      exact Or.inr ⟨.or, rfl, hnext, rfl⟩
    · cases h
      exact Or.inl ⟨rfl, rfl⟩

/-- What has been read of a chain is derived from the tokens passed. -/
theorem derives_of_linked {n : Nat} {later : List (Relation × Clause)}
    (h : linked n s = (.ok later, s')) :
    ∃ ts, s.rest = ts ++ s'.rest ∧ DerivesLinked later ts := by
  induction n generalizing s later with
  | zero => cases h
  | succ n ih =>
    obtain ⟨found, t, hfound, hgo⟩ := bind_eq_ok.1 h
    rcases relation?_eq_ok hfound with ⟨rfl, rfl⟩ | ⟨r, rfl, hnext, rfl⟩
    · cases hgo
      exact ⟨[], rfl, .nil⟩
    · obtain ⟨clause, u, hclause, hgo⟩ := bind_eq_ok.1 hgo
      obtain ⟨rest, v, hrest, hgo⟩ := bind_eq_ok.1 hgo
      cases hgo
      obtain ⟨ts, hts, hderive⟩ := derives_of_comparison hclause
      obtain ⟨us, hus, hderive'⟩ := ih hrest
      refine ⟨⟨.id, r.word⟩ :: (ts ++ us), ?_, .cons hderive hderive'⟩
      rw [rest_eq_cons hnext nofun, hts, hus]
      simp

end Reader

-- ========================================================= whole markups

/-- Derived tokens mark no end. -/
theorem Derives.kind_ne {phrase : Phrase} {ts : List Token}
    (h : Derives phrase ts) : ∀ t ∈ ts, t.kind ≠ .endOfString := by
  induction h with
  | literal => simp
  | name _ _ ih => simpa using ih
  | bracketed _ _ ihInner ihSteps =>
    simpa [or_imp, forall_and] using ⟨ihInner, ihSteps⟩
  | string => simp
  | number => simp
  | range _ _ _ ihFirst ihLast =>
    simpa [or_imp, forall_and] using ⟨ihFirst, ihLast⟩
  | done => simp
  | key _ ih => simpa using ih
  | index _ _ ihInner ihSteps =>
    simpa [or_imp, forall_and] using ⟨ihInner, ihSteps⟩

/-- The tokens of a clause mark no end. -/
theorem DerivesClause.kind_ne {clause : Clause} {ts : List Token}
    (h : DerivesClause clause ts) : ∀ t ∈ ts, t.kind ≠ .endOfString := by
  cases h with
  | single h => exact h.kind_ne
  | compare hleft _ hright =>
    simpa [or_imp, forall_and] using ⟨hleft.kind_ne, hright.kind_ne⟩

/-- The tokens of what is linked to a clause mark no end. -/
theorem DerivesLinked.kind_ne {later : List (Relation × Clause)}
    {ts : List Token} (h : DerivesLinked later ts) :
    ∀ t ∈ ts, t.kind ≠ .endOfString := by
  induction h with
  | nil => simp
  | cons hclause _ ih =>
    simpa [or_imp, forall_and] using ⟨hclause.kind_ne, ih⟩

/-- Tokens that were passed without an end are all there are, when an end
comes next. -/
theorem Reader.passed_all {s s' : Cursor} {tokens ts : List Token}
    (hs : s.rest = tokens ++ [.endOfString]) (hts : s.rest = ts ++ s'.rest)
    (hend : s'.next.kind = .endOfString)
    (htokens : ∀ t ∈ tokens, t.kind ≠ .endOfString)
    (hkinds : ∀ t ∈ ts, t.kind ≠ .endOfString) : ts = tokens := by
  have heq : tokens ++ [.endOfString] = ts ++ s'.rest := hs.symm.trans hts
  rcases List.append_eq_append_iff.1 heq with ⟨us, hus, hrest⟩ | ⟨us, hus, hrest⟩
  · cases us with
    | nil => simpa using hus
    | cons u us =>
      -- a token more than there are would be the end
      obtain rfl : Token.endOfString = u := (List.cons.inj hrest).1
      exact absurd rfl (hkinds .endOfString (by simp [hus]))
  · cases us with
    | nil => simpa using hus.symm
    | cons u us =>
      have hnext : s'.next = u := by
        rw [Cursor.next, hrest]
        rfl
      rw [hnext] at hend
      exact absurd hend (htokens u (by simp [hus]))

/-- An operand that all tokens spell is derived from them. -/
theorem Expr.derives_of_readTokens {markup : String} {tokens : List Token}
    {e : Expr} (h : readTokens markup (tokens ++ [.endOfString]) = .ok e)
    (htokens : ∀ t ∈ tokens, t.kind ≠ .endOfString) :
    Derives (.operand e) tokens := by
  rcases hrun : ((do
    let e ← Reader.expression
    let _ ← Reader.expect .endOfString
    return e : Reader Expr)
      (.ofTokens markup (tokens ++ [.endOfString]))) with ⟨v, t⟩
  obtain rfl : v = .ok e := (congrArg Prod.fst hrun).symm.trans h
  obtain ⟨e', s', he, hrun⟩ := bind_eq_ok.1 hrun
  obtain ⟨text, hend, hrun⟩ := Reader.expect_bind_eq_ok hrun
  cases hrun
  obtain ⟨ts, hts, hderive⟩ := Reader.derives_of_expression he
  have hall := Reader.passed_all rfl hts (by rw [hend]) htokens
    hderive.kind_ne
  exact hall ▸ hderive

/-- A condition that all tokens spell is derived from them. -/
theorem Condition.derives_of_readTokens {markup : String}
    {tokens : List Token} {c : Condition}
    (h : readTokens markup (tokens ++ [.endOfString]) = .ok c)
    (htokens : ∀ t ∈ tokens, t.kind ≠ .endOfString) :
    ∃ ts us, tokens = ts ++ us ∧ DerivesClause c.head ts ∧
      DerivesLinked c.tail us := by
  rcases hrun : ((do
    let c ← Reader.condition
    let _ ← Reader.expect .endOfString
    return c : Reader Condition)
      (.ofTokens markup (tokens ++ [.endOfString]))) with ⟨v, t⟩
  obtain rfl : v = .ok c := (congrArg Prod.fst hrun).symm.trans h
  obtain ⟨c', s', hc, hrun⟩ := bind_eq_ok.1 hrun
  obtain ⟨text, hend, hrun⟩ := Reader.expect_bind_eq_ok hrun
  cases hrun
  obtain ⟨head, u, hhead, hc⟩ := bind_eq_ok.1 hc
  obtain ⟨n, w, hbudget, hc⟩ := bind_eq_ok.1 hc
  cases hbudget
  obtain ⟨tail, x, htail, hc⟩ := bind_eq_ok.1 hc
  cases hc
  obtain ⟨ts, hts, hclause⟩ := Reader.derives_of_comparison hhead
  obtain ⟨us, hus, hlinked⟩ := Reader.derives_of_linked htail
  rw [hus, ← List.append_assoc] at hts
  have hkinds : ∀ t ∈ ts ++ us, t.kind ≠ .endOfString := by
    simpa [or_imp, forall_and] using ⟨hclause.kind_ne, hlinked.kind_ne⟩
  have hall := Reader.passed_all rfl hts (by rw [hend]) htokens hkinds
  exact ⟨ts, us, hall.symm, hclause, hlinked⟩

end Stencil
