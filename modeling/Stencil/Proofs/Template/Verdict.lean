/-
What a markup means in a mode, apart from what reading it records.

Reading a template writes notes, keeps the refusals that were forgiven,
and carries the mode along. None of this has a say in how a markup is
read: the answer is a function of the mode and of the markup, and the
mode stays what it is. `Mode.expr` and `Mode.condition` are these
functions, and `Answers` ties an action of the reading to the verdict that
such a function gives, from every state in the mode.

The name of the tag that a condition belongs to is only there to be
quoted in refusals. So the same markup means the same condition in the
opening tag of a block and in its `elsif` tags, and a condition that was
read from a markup is never the one that stands for `else`.
-/
import Stencil.Proofs.Sequence
import Stencil.Template

namespace Stencil

-- ============================================================ verdicts

namespace Mode

variable {α : Type}

/-- The verdict of a mode, given the verdicts of the two grammars. The
warning mode asks the lenient grammar only about what the strict one
refuses. -/
def verdict (mode : Mode) (lenient strict : Except Failure α) :
    Except Failure α :=
  match mode with
  | .strict => strict
  | .lax => lenient
  | .warn =>
    match strict with
    | .error (.malformed _) => lenient
    | other => other

/-- The operand that a markup spells in a mode. -/
def expr (mode : Mode) (markup : String) : Except Failure Expr :=
  mode.verdict (Expr.parse markup) (Expr.parseStrict markup)

/-- The condition that the markup of a tag spells in a mode. -/
def condition (mode : Mode) (tag markup : String) :
    Except Failure Condition :=
  mode.verdict (Condition.parseLenient tag markup)
    (Condition.parseStrict markup)

/-- A verdict that gives an answer is the verdict of one of the two
grammars. -/
theorem verdict_eq_ok {mode : Mode} {lenient strict : Except Failure α}
    {a : α} (h : mode.verdict lenient strict = .ok a) :
    lenient = .ok a ∨ strict = .ok a := by
  unfold verdict at h
  split at h
  · exact Or.inr h
  · exact Or.inl h
  · split at h
    · exact Or.inl h
    · exact Or.inr h

/-- What the lenient grammar answers carries over to the verdict, as long
as the strict one stays the same. -/
theorem verdict_mono {mode : Mode} {lenient lenient' strict : Except Failure α}
    {a : α} (hl : lenient = .ok a → lenient' = .ok a)
    (h : mode.verdict lenient strict = .ok a) :
    mode.verdict lenient' strict = .ok a := by
  unfold verdict at h ⊢
  split at h
  · exact h
  · exact hl h
  · split at h
    · exact hl h
    · exact h

end Mode

-- ==================================================== actions that say

/-- An action answers a verdict in every state of a mode, and the mode
stays. -/
def Answers {α : Type} (mode : Mode) (x : Parsing α)
    (verdict : Except Failure α) : Prop :=
  ∀ r : Reading, r.mode = mode →
    (x r).1 = verdict ∧ (x r).2.mode = mode

namespace Answers

variable {α β : Type} {mode : Mode}

/-- An answer is given in every mode. -/
theorem pure (a : α) : Answers mode (Pure.pure a) (.ok a) :=
  fun _ hr => ⟨rfl, hr⟩

/-- A failure is raised in every mode. -/
theorem throw (f : Failure) :
    Answers mode (throw f : Parsing α) (.error f) :=
  fun _ hr => ⟨rfl, hr⟩

/-- After an action that answers, the next one has the last word. -/
theorem bind {x : Parsing α} {f : α → Parsing β} {a : α}
    {v : Except Failure β} (hx : Answers mode x (.ok a))
    (hf : Answers mode (f a) v) : Answers mode (x >>= f) v := by
  intro r hr
  obtain ⟨hv, hm⟩ := hx r hr
  rw [bind_apply]
  rcases hp : x r with ⟨w, t⟩
  rw [hp] at hv hm
  obtain rfl : w = .ok a := hv
  exact hf t hm

/-- After an action that fails, there is no next one. -/
theorem bind_error {x : Parsing α} {f : α → Parsing β} {e : Failure}
    (hx : Answers mode x (.error e)) : Answers mode (x >>= f) (.error e) := by
  intro r hr
  obtain ⟨hv, hm⟩ := hx r hr
  rw [bind_apply]
  rcases hp : x r with ⟨w, t⟩
  rw [hp] at hv hm
  obtain rfl : w = .error e := hv
  exact ⟨rfl, hm⟩

/-- A change that keeps the mode says nothing. -/
theorem modify {f : Reading → Reading} (hf : ∀ r, (f r).mode = r.mode) :
    Answers mode (modify f : Parsing Unit) (.ok ()) :=
  fun r hr => ⟨rfl, (hf r).trans hr⟩

/-- Writing to the journal says nothing. -/
theorem tell (f : Journal → Journal) :
    Answers mode (Parsing.tell f) (.ok ()) :=
  modify fun _ => rfl

/-- What was found without the journal is said. -/
theorem ofExcept (v : Except Failure α) :
    Answers mode (Parsing.ofExcept v) v := by
  cases v with
  | error f => exact throw f
  | ok a => exact pure a

/-- A refusal that is recorded is not said. -/
theorem recordWarning (error : SyntaxError) (markup : String) :
    Answers mode (Parsing.recordWarning error markup) (.ok ()) :=
  modify fun _ => rfl

/-- An action with a rescue says what the action says, or what the rescue
says of its failure. -/
theorem rescue {x : Parsing α} {handle : Failure → Parsing α}
    {v w : Except Failure α} (hx : Answers mode x v)
    (hok : ∀ a, v = .ok a → w = .ok a)
    (herr : ∀ e, v = .error e → Answers mode (handle e) w) :
    Answers mode (tryCatch x handle) w := by
  intro r hr
  obtain ⟨hv, hm⟩ := hx r hr
  rw [tryCatch_apply]
  rcases hp : x r with ⟨u, t⟩
  rw [hp] at hv hm
  obtain rfl : u = v := hv
  cases u with
  | error e => exact herr e rfl t hm
  | ok a => exact ⟨(hok a rfl).symm, hm⟩

/-- Choosing a grammar by the mode says the verdict of the mode. -/
theorem select {markup : String} {lenient strict : Parsing α}
    {l s : Except Failure α} (hl : Answers mode lenient l)
    (hs : Answers mode strict s) :
    Answers mode (Parsing.select markup lenient strict)
      (mode.verdict l s) := by
  rintro ⟨m, warnings, journal⟩ hr
  obtain rfl : m = mode := hr
  cases m with
  | strict => exact hs ⟨.strict, warnings, journal⟩ rfl
  | lax => exact hl ⟨.lax, warnings, journal⟩ rfl
  | warn =>
    refine rescue hs ?_ ?_ ⟨.warn, warnings, journal⟩ rfl
    · rintro a rfl
      rfl
    · rintro e rfl
      cases e with
      | malformed error => exact bind (recordWarning error markup) hl
      | _ => exact throw _

/-- Reading tokens strictly says what the scan and the reader say. -/
theorem strictly (markup : String)
    (read : String → List Token → Except Failure α) :
    Answers mode (Parsing.strictly markup read)
      (match Token.scan markup with
        | .ok tokens => read markup tokens
        | .error e => .error (.malformed e)) := by
  unfold Parsing.strictly
  cases Token.scan markup with
  | error e => exact throw _
  | ok tokens => exact bind (tell _) (ofExcept _)

/-- An operand means what the mode makes of its markup. -/
theorem expr (markup : String) :
    Answers mode (Parsing.expr markup) (mode.expr markup) :=
  select (bind (tell _) (ofExcept _)) (strictly markup Expr.readTokens)

/-- A condition means what the mode makes of its markup. -/
theorem condition (tag markup : String) :
    Answers mode (Parsing.condition tag markup)
      (mode.condition tag markup) :=
  select (bind (tell _) (ofExcept _))
    (strictly markup Condition.readTokens)

end Answers

-- =============================================== the tag of a condition

namespace Condition

/-- A clause that pieces spell for one tag they spell for every tag: only
refusals name the tag. -/
theorem clauseOf_tag {tag markup : String} (tag' : String)
    {pieces : List Fragment} {clause : Clause}
    (h : clauseOf tag markup pieces = .ok clause) :
    clauseOf tag' markup pieces = .ok clause := by
  cases pieces with
  | nil => cases h
  | cons f rest =>
    simp only [clauseOf] at h ⊢
    split at h
    · cases h
    · next hf =>
      rw [if_neg hf]
      exact h

/-- The clauses that pieces spell are never those of an `else` branch. -/
theorem clauseOf_ne_otherwise {tag markup : String}
    {pieces : List Fragment} {clause : Clause}
    (h : clauseOf tag markup pieces = .ok clause) : clause ≠ .otherwise := by
  cases pieces with
  | nil => cases h
  | cons f rest =>
    simp only [clauseOf] at h
    split at h
    · cases h
    · obtain ⟨left, -, h⟩ := outcome_bind_eq_ok.1 h
      cases rest with
      | nil =>
        cases h
        exact nofun
      | cons op rest =>
        obtain ⟨right, -, h⟩ := outcome_bind_eq_ok.1 h
        obtain ⟨operator, -, h⟩ := outcome_bind_eq_ok.1 h
        cases h
        exact nofun

/-- A chain is put together alike from clauses that are read alike. -/
theorem assemble_mono {f g : List Fragment → Except Failure Clause}
    (hfg : ∀ pieces c, f pieces = .ok c → g pieces = .ok c)
    {first : List Fragment} {later : List (Relation × List Fragment)}
    {c : Condition} (h : assemble f first later = .ok c) :
    assemble g first later = .ok c := by
  induction later generalizing first c with
  | nil =>
    obtain ⟨clause, hclause, h⟩ := outcome_bind_eq_ok.1 h
    exact outcome_bind_eq_ok.2 ⟨clause, hfg _ _ hclause, h⟩
  | cons next later ih =>
    obtain ⟨rest, hrest, h⟩ := outcome_bind_eq_ok.1 h
    obtain ⟨clause, hclause, h⟩ := outcome_bind_eq_ok.1 h
    exact outcome_bind_eq_ok.2
      ⟨rest, ih hrest, outcome_bind_eq_ok.2 ⟨clause, hfg _ _ hclause, h⟩⟩

/-- The first clause of a chain is the one that its first pieces spell. -/
theorem assemble_head {f : List Fragment → Except Failure Clause}
    {first : List Fragment} {later : List (Relation × List Fragment)}
    {c : Condition} (h : assemble f first later = .ok c) :
    f first = .ok c.head := by
  cases later with
  | nil =>
    obtain ⟨clause, hclause, h⟩ := outcome_bind_eq_ok.1 h
    cases h
    exact hclause
  | cons next later =>
    obtain ⟨rest, -, h⟩ := outcome_bind_eq_ok.1 h
    obtain ⟨clause, hclause, h⟩ := outcome_bind_eq_ok.1 h
    cases h
    exact hclause

/-- The lenient grammar reads a markup alike for every tag. -/
theorem parseLenient_tag {tag markup : String} (tag' : String)
    {c : Condition} (h : parseLenient tag markup = .ok c) :
    parseLenient tag' markup = .ok c :=
  assemble_mono (fun _ _ => clauseOf_tag tag') h

/-- No markup spells the condition of an `else` branch in the lenient
grammar. -/
theorem parseLenient_isOtherwise {tag markup : String} {c : Condition}
    (h : parseLenient tag markup = .ok c) : c.isOtherwise = false := by
  have hne := clauseOf_ne_otherwise (assemble_head h)
  simpa [isOtherwise] using hne

end Condition

/-- The comparisons that are read from tokens are never the clause of an
`else` branch. -/
theorem Reader.comparison_ne_otherwise {s t : Cursor} {clause : Clause}
    (h : Reader.comparison s = (.ok clause, t)) : clause ≠ .otherwise := by
  obtain ⟨left, s₁, -, h⟩ := bind_eq_ok.1 h
  obtain ⟨found, s₂, -, h⟩ := bind_eq_ok.1 h
  cases found with
  | none =>
    cases h
    exact nofun
  | some text =>
    obtain ⟨right, s₃, -, h⟩ := bind_eq_ok.1 h
    revert h
    cases Operator.ofText? text with
    | none => exact nofun
    | some op =>
      intro h
      cases h
      exact nofun

/-- No markup spells the condition of an `else` branch in the strict
grammar. -/
theorem Condition.parseStrict_isOtherwise {markup : String} {c : Condition}
    (h : Condition.parseStrict markup = .ok c) : c.isOtherwise = false := by
  unfold Condition.parseStrict at h
  split at h
  · next tokens htokens =>
    rcases hrun : ((do
      let c ← Reader.condition
      let _ ← Reader.expect .endOfString
      return c : Reader Condition) (.ofTokens markup tokens)) with ⟨v, t⟩
    have hv : v = .ok c := (congrArg Prod.fst hrun).symm.trans h
    subst hv
    obtain ⟨c', s₁, hc, hrun⟩ := bind_eq_ok.1 hrun
    obtain ⟨_, s₂, -, hrun⟩ := bind_eq_ok.1 hrun
    cases hrun
    obtain ⟨head, s₃, hhead, hc⟩ := bind_eq_ok.1 hc
    obtain ⟨_, s₄, -, hc⟩ := bind_eq_ok.1 hc
    obtain ⟨tail, s₅, -, hc⟩ := bind_eq_ok.1 hc
    cases hc
    have hne := Reader.comparison_ne_otherwise hhead
    simpa [Condition.isOtherwise] using hne
  · cases h

namespace Mode

/-- A markup spells the same condition in every tag. -/
theorem condition_tag {mode : Mode} {tag markup : String} (tag' : String)
    {c : Condition} (h : mode.condition tag markup = .ok c) :
    mode.condition tag' markup = .ok c :=
  verdict_mono (Condition.parseLenient_tag tag') h

/-- No markup spells the condition of an `else` branch. -/
theorem condition_isOtherwise {mode : Mode} {tag markup : String}
    {c : Condition} (h : mode.condition tag markup = .ok c) :
    c.isOtherwise = false := by
  rcases verdict_eq_ok h with h | h
  · exact Condition.parseLenient_isOtherwise h
  · exact Condition.parseStrict_isOtherwise h

end Mode

end Stencil
