/-
Why the strict reader refuses tokens.

The strict reader accepts exactly what its grammar derives, and what it
refuses it refuses for a reason: a token that was not the one wanted, a
token with which no operand starts, an integer of too many digits, or a
bound of a range that is no integer (`Refusal`). It never runs out of its
budget, it never meets another number token that spells no number, and it
never meets a comparison token that spells no operator.

The last two hold as the tokens come from a scan (`Token.Spells`). The
budget holds as long as it is more than the tokens that are left, which
every call keeps up, since it reads a token first. `Refuses` is the
judgement that a reader fails with refusals only, from one cursor on; it
is kept by sequencing, and one induction on the budget gives it for
operands and steps together.
-/
import Stencil.Proofs.Markup.Acceptance
import Stencil.Proofs.Markup.Lexing

namespace Stencil

-- ============================================================= spelling

/-- What a token spells can be told: number tokens spell numbers, unless
they are integers of too many digits, and comparison tokens spell
operators. -/
def Token.Spells (t : Token) : Prop :=
  (t.kind = .number →
    ((∃ v, numeral? t.text = some v) ↔ ¬Numeral.Overlong t.text.toList)) ∧
    (t.kind = .comparison → ∃ op, Operator.ofText? t.text = some op)

/-- A number token that spells no number is an integer of too many
digits. -/
theorem Token.Spells.overlong {t : Token} (h : t.Spells)
    (hkind : t.kind = .number) (hnone : numeral? t.text = none) :
    Numeral.Overlong t.text.toList := by
  refine Classical.not_not.1 fun hshort => ?_
  obtain ⟨v, hv⟩ := (h.1 hkind).2 hshort
  rw [hnone] at hv
  cases hv

/-- Every word that a comparison token may have spells an operator. -/
theorem Operator.exists_ofText? {text : String}
    (h : Fits .comparison text.toList) : ∃ op, ofText? text = some op := by
  have hword : text ∈ Token.comparisonWords ∨ text = "contains" := by
    simpa only [Fits, String.ofList_toList, String.toList_inj] using h
  rcases hword with hword | rfl
  · simp only [Token.comparisonWords, List.mem_cons, List.not_mem_nil,
      or_false] at hword
    rcases hword with rfl | rfl | rfl | rfl | rfl | rfl | rfl
    all_goals exact ⟨_, rfl⟩
  · exact ⟨_, rfl⟩

theorem Token.spells_of_fits {t : Token} (h : Fits t.kind t.text.toList) :
    t.Spells := by
  constructor
  · intro hkind
    rw [hkind] at h
    refine ⟨?_, IsNumeral.exists_numeral? h⟩
    rintro ⟨v, hv⟩ hlong
    rw [numeral?_of_overlong hlong] at hv
    cases hv
  · intro hkind
    rw [hkind] at h
    exact Operator.exists_ofText? h

/-- The tokens of a markup end with the end, which comes only once, and
each of them spells something. -/
theorem Token.spells_of_scan {markup : String} {tokens : List Token}
    (h : scan markup = .ok tokens) :
    ∃ ts, tokens = ts ++ [endOfString] ∧
      (∀ t ∈ ts, t.kind ≠ .endOfString) ∧ ∀ t ∈ tokens, t.Spells := by
  unfold scan at h
  split at h
  · next ts hscan =>
    cases h
    obtain ⟨-, hsound, hkinds⟩ := scanAfter_place hscan
    refine ⟨ts, rfl, hkinds, fun t ht => ?_⟩
    rw [← Placed.map_token_place markup.toList (ts ++ [endOfString]),
      List.mem_map] at ht
    obtain ⟨p, hp, rfl⟩ := ht
    exact spells_of_fits (hsound.of_mem p hp).2
  · cases h

-- ============================================================ refusals

/-- Why the strict reader refuses tokens. -/
inductive Refusal : Failure → Prop
  /-- Another token was wanted. -/
  | token (wanted found markup : String) :
      Refusal (.malformed (.unexpectedToken wanted found markup))
  /-- No operand starts with the token. -/
  | operand (found markup : String) :
      Refusal (.malformed (.notAnExpression found markup))
  /-- An integer has too many digits. -/
  | overlong {text : String} : Numeral.Overlong text.toList →
      Refusal (.unreadableInteger text)
  /-- A bound of a range is no integer. -/
  | bound {first last : Expr} {f : Failure} :
      Expr.between Value.shown first last = .error f → Refusal f

/-- Showing a value is no matter of syntax. -/
theorem Value.shown_ne_malformed (v : Value) (e : SyntaxError) :
    v.shown ≠ .error (.malformed e) := by
  unfold shown written
  split <;> nofun

/-- A bound of a range is no matter of syntax. -/
theorem Expr.between_ne_malformed {first last : Expr} {f : Failure}
    (h : between Value.shown first last = .error f) (e : SyntaxError) :
    f ≠ .malformed e := by
  have hbound : ∀ {v : Value}, v.toInteger Value.shown = .error f →
      f ≠ .malformed e := by
    rintro v hv rfl
    cases v with
    | float x =>
      simp only [Value.toInteger, integerOfFloat] at hv
      split at hv <;> cases hv
    | text s =>
      simp only [Value.toInteger, integerOfText] at hv
      split at hv
      · cases hv
      · split at hv <;> cases hv
    | int | nil => cases hv
    | bool | bytes | range | probe | object =>
      rcases outcome_bind_eq_error.1 hv with hshow | ⟨_, -, hthrow⟩
      · exact Value.shown_ne_malformed _ _ hshow
      · cases hthrow
  cases first with
  | const v =>
    cases last with
    | const w =>
      have hrange : v.rangeBetween Value.shown w = .error f := by
        cases hr : v.rangeBetween Value.shown w with
        | error f' =>
          simp only [between, hr] at h
          cases h
          rfl
        | ok r =>
          simp only [between, hr] at h
          cases h
      rcases outcome_bind_eq_error.1 hrange with hv | ⟨a, -, hrest⟩
      · exact hbound hv
      · rcases outcome_bind_eq_error.1 hrest with hw | ⟨b, -, hdone⟩
        · exact hbound hw
        · cases hdone
    | _ => cases h
  | _ => cases h

/-- Two operands make a range, unless both are values already and one of
them is no integer. -/
theorem Expr.exists_between_iff {display : Value → Except Failure String}
    {first last : Expr} :
    (∃ e, between display first last = .ok e) ↔
      ∀ v w, first = .const v → last = .const w →
        (∃ n, v.toInteger display = .ok n) ∧
          ∃ n, w.toInteger display = .ok n := by
  constructor
  · rintro ⟨e, he⟩ v w rfl rfl
    obtain ⟨r, hr⟩ : ∃ r, v.rangeBetween display w = .ok r := by
      cases hr : v.rangeBetween display w with
      | ok r => exact ⟨r, rfl⟩
      | error f =>
        simp only [between, hr] at he
        cases he
    obtain ⟨m, hm, hr⟩ := outcome_bind_eq_ok.1 hr
    obtain ⟨n, hn, -⟩ := outcome_bind_eq_ok.1 hr
    exact ⟨⟨m, hm⟩, n, hn⟩
  · intro h
    cases first with
    | const v =>
      cases last with
      | const w =>
        obtain ⟨⟨m, hm⟩, n, hn⟩ := h v w rfl rfl
        have hr : v.rangeBetween display w = .ok (.range m (n + 1)) :=
          outcome_bind_eq_ok.2 ⟨m, hm, outcome_bind_eq_ok.2 ⟨n, hn, rfl⟩⟩
        exact ⟨_, by rw [between, hr]; rfl⟩
      | _ => exact ⟨_, rfl⟩
    | _ => exact ⟨_, rfl⟩

/-- No refusal is about an operator. -/
theorem Refusal.ne_unknownOperator {f : Failure} (h : Refusal f)
    (text : String) : f ≠ .malformed (.unknownOperator text) := by
  cases h with
  | token => nofun
  | operand => nofun
  | overlong => nofun
  | bound h => exact Expr.between_ne_malformed h _

-- ============================================================= judgement

/-- From a cursor on, a reader fails with refusals only. -/
def Refuses {α : Type} (x : Reader α) (s : Cursor) : Prop :=
  ∀ f s', x s = (.error f, s') → Refusal f

namespace Refuses

variable {α β : Type} {s : Cursor}

protected theorem pure (a : α) (s : Cursor) :
    Refuses (pure a : Reader α) s := nofun

/-- A sequence refuses if its first part does, and the second one where
the first one leaves off. -/
protected theorem bind {x : Reader α} {g : α → Reader β}
    (hx : Refuses x s) (hg : ∀ a t, x s = (.ok a, t) → Refuses (g a) t) :
    Refuses (x >>= g) s := by
  intro f s' h
  rcases bind_eq_error.1 h with h | ⟨a, t, ha, h⟩
  · exact hx f s' h
  · exact hg a t ha f s' h

theorem expect_bind {kind : TokenKind} {g : String → Reader β}
    (hg : ∀ text, s.next = ⟨kind, text⟩ → Refuses (g text) s.advance) :
    Refuses (Reader.expect kind >>= g) s := by
  intro f s' h
  rw [Reader.expect_bind] at h
  split at h
  · next hkind =>
    subst hkind
    exact hg s.next.text rfl f s' h
  · cases h
    exact .token ..

theorem to_end {x : Reader α} (h : Refuses x s) :
    Refuses (x >>= fun a =>
      Reader.expect .endOfString >>= fun _ => pure a) s :=
  .bind h fun _ _ _ => .expect_bind fun _ _ => .pure _ _

end Refuses

-- ========================================================== the readers

/-- Fewer tokens are left than a budget allows, and each spells
something. -/
def Within (n : Nat) (s : Cursor) : Prop :=
  s.rest.length < n ∧ ∀ t ∈ s.rest, t.Spells

namespace Within

variable {n : Nat} {s s' : Cursor}

/-- Behind tokens that were read, fewer are left. -/
theorem behind {ts : List Token} (h : Within n s)
    (hs : s.rest = ts ++ s'.rest) : Within n s' := by
  obtain ⟨hlength, hspells⟩ := h
  rw [hs] at hlength hspells
  rw [List.length_append] at hlength
  exact ⟨by omega, fun t ht => hspells t (List.mem_append_right _ ht)⟩

/-- The token that is read pays for the next call. -/
theorem advance {kind : TokenKind} {text : String} (h : Within (n + 1) s)
    (hs : s.next = ⟨kind, text⟩) (hkind : kind ≠ .endOfString) :
    Within n s.advance := by
  have hrest := Reader.rest_eq_cons hs hkind
  obtain ⟨hlength, hspells⟩ := h
  rw [hrest] at hlength hspells
  exact ⟨Nat.lt_of_succ_lt_succ hlength,
    fun t ht => hspells t (List.mem_cons_of_mem _ ht)⟩

theorem pass {kind : TokenKind} {text : String} (h : Within n s)
    (hs : s.next = ⟨kind, text⟩) (hkind : kind ≠ .endOfString) :
    Within n s.advance := by
  have hrest : s.rest = [⟨kind, text⟩] ++ s.advance.rest :=
    Reader.rest_eq_cons hs hkind
  exact h.behind hrest

theorem spells {kind : TokenKind} {text : String} (h : Within n s)
    (hs : s.next = ⟨kind, text⟩) (hkind : kind ≠ .endOfString) :
    (⟨kind, text⟩ : Token).Spells := by
  apply h.2
  rw [Reader.rest_eq_cons hs hkind]
  exact List.mem_cons_self ..

end Within

namespace Reader

/-- An operand that a token has to end is refused for a reason, if the
operand is, and what follows is. -/
theorem refuses_closed {β : Type} {n : Nat} {s : Cursor}
    (hoperand : ∀ s, Within n s → Refuses (operand n) s)
    (kind : TokenKind) (hkind : kind ≠ .endOfString) (hs : Within n s)
    {g : Expr → String → Reader β}
    (hg : ∀ e text t, Within n t → Refuses (g e text) t) :
    Refuses (operand n >>= fun e => expect kind >>= g e) s := by
  refine .bind (hoperand s hs) fun e t he => .expect_bind ?_
  obtain ⟨ts, hts, -⟩ := (derives_of_budget n).1 _ _ _ he
  exact fun text hnext => hg e text _ ((hs.behind hts).pass hnext hkind)

/-- Operands and steps are refused for a reason, if the budget is more
than the tokens that are left. The induction is on the budget; a part that
has been read leaves a shorter rest. -/
theorem refuses_of_within (n : Nat) :
    (∀ s, Within n s → Refuses (operand n) s) ∧
      ∀ s p, Within n s → Refuses (steps n p) s := by
  induction n with
  | zero => exact ⟨fun s h => absurd h.1 (Nat.not_lt_zero _),
      fun s p h => absurd h.1 (Nat.not_lt_zero _)⟩
  | succ n ih =>
    obtain ⟨ihOperand, ihSteps⟩ := ih
    constructor
    · intro s hs
      rcases hnext : s.next with ⟨kind, text⟩
      have htext : s.next.text = text := by rw [hnext]
      intro f s' h
      rw [operand, peek_bind, hnext] at h
      cases kind with
      | id =>
        dsimp only at h
        rw [goesOn_bind, advance_bind, htext] at h
        rcases hmeaning : (if (s.advance.next.kind == .dot ||
          s.advance.next.kind == .openSquare) = true then none
          else literal? text) with _ | v
        · rw [hmeaning] at h
          exact Refuses.bind (ihSteps _ _ (hs.advance hnext (by decide)))
            (fun _ _ _ => .pure _ _) f s' h
        · rw [hmeaning] at h
          cases h
      | openSquare =>
        dsimp only at h
        rw [advance_bind] at h
        refine refuses_closed ihOperand .closeSquare (by decide)
          (hs.advance hnext (by decide)) ?_ f s' h
        exact fun e text t ht => .bind (ihSteps _ _ ht) fun _ _ _ => .pure _ _
      | string => cases h
      | number =>
        dsimp only at h
        rw [advance_bind, htext] at h
        cases hv : numeral? text with
        | some v =>
          unfold numeral? at hv
          simp only [numberOf, hv] at h
          cases h
        | none =>
          have hlong := (hs.spells hnext (by decide)).overlong rfl hv
          unfold numeral? at hv
          simp only [numberOf, hv] at h
          cases h
          exact .overlong hlong
      | openRound =>
        dsimp only at h
        rw [advance_bind] at h
        refine refuses_closed ihOperand .dotdot (by decide)
          (hs.advance hnext (by decide)) ?_ f s' h
        refine fun first text t ht =>
          refuses_closed ihOperand .closeRound (by decide) ht ?_
        intro last text u _ f s' h
        unfold between at h
        cases he : Expr.between Value.shown first last with
        | ok e =>
          rw [he] at h
          cases h
        | error f =>
          rw [he] at h
          cases h
          exact .bound he
      | _ =>
        cases h
        exact .operand ..
    · intro s p hs f s' h
      rw [steps, accept?_bind] at h
      split at h
      · next hkind =>
        have hnext : s.next = ⟨.openSquare, s.next.text⟩ := by rw [← hkind]
        simp only [Option.isSome_some, if_true] at h
        refine refuses_closed ihOperand .closeSquare (by decide)
          (hs.advance hnext (by decide)) ?_ f s' h
        exact fun e text t ht => ihSteps _ _ ht
      · simp only [Option.isSome_none, Bool.false_eq_true, if_false] at h
        rw [accept?_bind] at h
        split at h
        · next hkind =>
          have hnext : s.next = ⟨.dot, s.next.text⟩ := by rw [← hkind]
          simp only [Option.isSome_some, if_true] at h
          refine Refuses.expect_bind (fun text hname => ?_) f s' h
          exact ihSteps _ _ ((hs.advance hnext (by decide)).pass hname (by decide))
        · cases h

variable {s s' : Cursor}

theorem spells_behind {ts : List Token} (hs : ∀ t ∈ s.rest, t.Spells)
    (hrest : s.rest = ts ++ s'.rest) : ∀ t ∈ s'.rest, t.Spells :=
  fun t ht => hs t (hrest ▸ List.mem_append_right _ ht)

/-- There is always enough budget for all tokens. -/
theorem within_budget (hs : ∀ t ∈ s.rest, t.Spells) :
    Within (s.tokens.length + 1) s :=
  ⟨Nat.lt_succ_of_le (length_le_of_rest (List.append_nil _).symm), hs⟩

theorem refuses_expression (hs : ∀ t ∈ s.rest, t.Spells) :
    Refuses expression s :=
  (refuses_of_within _).1 s (within_budget hs)

theorem refuses_comparison (hs : ∀ t ∈ s.rest, t.Spells) :
    Refuses comparison s := by
  refine .bind (refuses_expression hs) fun left t hleft => ?_
  obtain ⟨ts, hts, -⟩ := derives_of_expression hleft
  have ht := spells_behind hs hts
  intro f s' h
  rw [accept?_bind] at h
  split at h
  · next hkind =>
    have hnext : t.next = ⟨.comparison, t.next.text⟩ := by rw [← hkind]
    have hwithin := within_budget ht
    obtain ⟨op, hop⟩ := (hwithin.spells hnext (by decide)).2 rfl
    dsimp only at h hop
    rw [hop] at h
    exact Refuses.bind (refuses_expression (hwithin.pass hnext (by decide)).2)
      (fun _ _ _ => .pure _ _) f s' h
  · cases h

theorem refuses_linked {n : Nat} (hs : Within n s) :
    Refuses (linked n) s := by
  induction n generalizing s with
  | zero => exact absurd hs.1 (Nat.not_lt_zero _)
  | succ n ih =>
    refine .bind ?_ fun found t hfound => ?_
    · intro f s' h
      rw [relation?, acceptName?_bind] at h
      split at h
      · cases h
      · simp only [Option.isSome_none, Bool.false_eq_true, if_false] at h
        rw [acceptName?_bind] at h
        split at h
        · cases h
        · cases h
    · rcases relation?_eq_ok hfound with ⟨rfl, rfl⟩ | ⟨r, rfl, hnext, rfl⟩
      · exact .pure _ _
      · have hrest := hs.advance hnext (by decide)
        refine .bind (refuses_comparison hrest.2) fun clause u hclause => ?_
        obtain ⟨ts, hts, -⟩ := derives_of_comparison hclause
        exact .bind (ih (hrest.behind hts)) fun _ _ _ => .pure _ _

theorem refuses_condition (hs : ∀ t ∈ s.rest, t.Spells) :
    Refuses condition s := by
  refine .bind (refuses_comparison hs) fun clause t hclause => ?_
  obtain ⟨ts, hts, -⟩ := derives_of_comparison hclause
  intro f s' h
  rw [budget_bind] at h
  exact Refuses.bind
    (refuses_linked (within_budget (spells_behind hs hts)))
    (fun _ _ _ => .pure _ _) f s' h

end Reader

-- ========================================================= whole markups

section

variable {markup : String} {tokens : List Token} {f : Failure}

theorem Expr.refusal_of_readTokens (hs : ∀ t ∈ tokens, t.Spells)
    (h : readTokens markup tokens = .error f) : Refusal f :=
  Refuses.to_end (Reader.refuses_expression
    (s := .ofTokens markup tokens) hs) f _ (Prod.ext h rfl)

theorem Condition.refusal_of_readTokens (hs : ∀ t ∈ tokens, t.Spells)
    (h : readTokens markup tokens = .error f) : Refusal f :=
  Refuses.to_end (Reader.refuses_condition
    (s := .ofTokens markup tokens) hs) f _ (Prod.ext h rfl)

end

/-- What the strict grammar takes: the operands and the conditions that
are derived from the tokens of the markup, each with the meaning of its
derivation. A number token is derived unless it is an integer of too many
digits, and a range unless both bounds are values and one is no integer.
Everything else is refused for a reason, and no reason is about an
operator. -/
theorem parseStrict_eq_ok_iff_derives {markup : String}
    {tokens : List Token} (h : Token.scan markup = .ok tokens) :
    ∃ ts, tokens = ts ++ [.endOfString] ∧ (∀ t ∈ ts, t.Spells) ∧
      (∀ e, Expr.parseStrict markup = .ok e ↔ Derives (.operand e) ts) ∧
      (∀ c, Condition.parseStrict markup = .ok c ↔ DerivesChain c ts) ∧
      ((∀ e, ¬Derives (.operand e) ts) →
        ∃ f, Expr.parseStrict markup = .error f ∧ Refusal f) ∧
      ((∀ c, ¬DerivesChain c ts) →
        ∃ f, Condition.parseStrict markup = .error f ∧ Refusal f) ∧
      (∀ text,
        Expr.parseStrict markup ≠
          .error (.malformed (.unknownOperator text)) ∧
        Condition.parseStrict markup ≠
          .error (.malformed (.unknownOperator text))) ∧
      ∀ first last,
        (∃ e, Expr.between Value.shown first last = .ok e) ↔
          ∀ v w, first = .const v → last = .const w →
            (∃ m, v.toInteger Value.shown = .ok m) ∧
              ∃ n, w.toInteger Value.shown = .ok n := by
  obtain ⟨ts, rfl, hkinds, hspells⟩ := Token.spells_of_scan h
  have hexpr : Expr.parseStrict markup =
      Expr.readTokens markup (ts ++ [.endOfString]) := by
    rw [Expr.parseStrict, h]
  have hcondition : Condition.parseStrict markup =
      Condition.readTokens markup (ts ++ [.endOfString]) := by
    rw [Condition.parseStrict, h]
  rw [hexpr, hcondition]
  refine ⟨ts, rfl, fun t ht => hspells t (List.mem_append_left _ ht),
    fun e => Expr.readTokens_eq_ok_iff hkinds,
    fun c => Condition.readTokens_eq_ok_iff hkinds, ?_, ?_, ?_,
    fun first last => Expr.exists_between_iff⟩
  · intro hnone
    cases hread : Expr.readTokens markup (ts ++ [.endOfString]) with
    | ok e =>
      exact absurd ((Expr.readTokens_eq_ok_iff hkinds).1 hread) (hnone e)
    | error f =>
      exact ⟨f, rfl, Expr.refusal_of_readTokens hspells hread⟩
  · intro hnone
    cases hread : Condition.readTokens markup (ts ++ [.endOfString]) with
    | ok c =>
      exact absurd ((Condition.readTokens_eq_ok_iff hkinds).1 hread)
        (hnone c)
    | error f =>
      exact ⟨f, rfl, Condition.refusal_of_readTokens hspells hread⟩
  · intro text
    constructor
    · intro hread
      exact (Expr.refusal_of_readTokens hspells hread).ne_unknownOperator
        text rfl
    · intro hread
      exact (Condition.refusal_of_readTokens hspells
        hread).ne_unknownOperator text rfl

/-- A row of too many digits is a number token, and yet no operand. -/
theorem Expr.parseStrict_of_overlong {digits : List Char}
    (hdigits : Numeral.isDigits digits = true)
    (hlong : Numeral.maxDigits < digits.length) :
    Token.scan (String.ofList digits) =
        .ok [⟨.number, String.ofList digits⟩, .endOfString] ∧
      ∀ e, parseStrict (String.ofList digits) ≠ .ok e := by
  have hscan : Token.scan (String.ofList digits) =
      .ok [⟨.number, String.ofList digits⟩, .endOfString] := by
    have htokens := @Token.scanAfter_number none [] digits [] (Or.inl rfl)
      hdigits nofun
    rw [List.nil_append, List.append_nil, Token.scanAfter] at htokens
    rw [Token.scan, String.toList_ofList, htokens]
    rfl
  have hnone : numeral? (String.ofList digits) = none :=
    numeral?_of_overlong
      ⟨[], digits, String.toList_ofList, Or.inl rfl, hdigits, hlong⟩
  refine ⟨hscan, fun e he => ?_⟩
  rw [parseStrict, hscan] at he
  have hderive : Derives (.operand e) [⟨.number, String.ofList digits⟩] :=
    (readTokens_eq_ok_iff (by simp)).1 he
  cases hderive with
  | number hv =>
    rw [hnone] at hv
    cases hv

/-- One digit too many is enough. -/
theorem parseStrict_of_overlong_ones :
    let text := String.ofList (List.replicate 4301 '1')
    Token.scan text = .ok [⟨.number, text⟩, .endOfString] ∧
      ∀ e, Expr.parseStrict text ≠ .ok e := by
  have hlength : Numeral.maxDigits < (List.replicate 4301 '1').length := by
    rw [List.length_replicate]
    decide
  exact Expr.parseStrict_of_overlong (by decide +kernel) hlength

/-- Literal words, linking words and `contains` as names, a negative
fraction and an open range make such tokens, which are a condition and no
operand. -/
theorem parseStrict_eq_ok_iff_derives_words :
    ∃ ts, Token.scan
        "true.and[nil] contains (1..[a].b) or and and contains <> -1.5" =
          .ok (ts ++ [.endOfString]) ∧
      (∃ c, DerivesChain c ts) ∧ ∀ e, ¬Derives (.operand e) ts := by
  have hcondition : (Condition.parseStrict
      "true.and[nil] contains (1..[a].b) or and and contains <> -1.5"
      ).toOption ≠ none := by decide +kernel
  have hexpr : (Expr.parseStrict
      "true.and[nil] contains (1..[a].b) or and and contains <> -1.5"
      ).toOption = none := by decide +kernel
  cases h : Token.scan
      "true.and[nil] contains (1..[a].b) or and and contains <> -1.5" with
  | error e =>
    rw [Condition.parseStrict, h] at hcondition
    exact absurd rfl hcondition
  | ok tokens =>
    obtain ⟨ts, rfl, -, hoperand, hchain, -⟩ :=
      parseStrict_eq_ok_iff_derives h
    refine ⟨ts, rfl, ?_, fun e he => ?_⟩
    · cases hread : Condition.parseStrict
        "true.and[nil] contains (1..[a].b) or and and contains <> -1.5" with
      | error f => exact absurd (congrArg Except.toOption hread) hcondition
      | ok c => exact ⟨c, (hchain c).1 hread⟩
    · rw [(hoperand e).2 he] at hexpr
      cases hexpr

end Stencil
