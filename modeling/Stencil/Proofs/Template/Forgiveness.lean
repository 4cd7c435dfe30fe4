/-
The warning mode against the strict one: two runs over the same chunks.

The warning mode does what the strict one does until the strict grammar
refuses a markup. There the strict run ends, and the warning run records
the refusal and goes on with what the lenient grammar says. Whatever it
does after that, the refusal stays where it was recorded: the list of
what is recorded only grows at its front. So how the strict run ended can
be read off the warning run: it gave the same answer, if nothing was
recorded, and otherwise it failed with the refusal recorded first.
`strictAnswer` is this reading, and an action `Forgives` when it holds of
the action from any two states, one in each mode.

Actions without markup forgive because the mode has no say in them. For
markup there is one equation for both modes, `Quiet.select`, which says
what is answered and what is recorded. The rest passes along sequences of
actions and, by induction, along the chunks of a body.
-/
import Stencil.Proofs.Template.Reading
import Stencil.Proofs.Template.Verdict

namespace Stencil

section

variable {α β : Type}

-- ==================================================== what is recorded

/-- What a mode records when the strict grammar gives a verdict on a
markup: the refusals that the mode forgives. -/
def Mode.recorded (mode : Mode) (strict : Except Failure α) :
    Option SyntaxError :=
  match mode, strict with
  | .warn, .error (.malformed e) => some e
  | _, _ => none

/-- A reading after another, which has recorded some refusals in between,
the last first. -/
structure Reading.Records (recorded : List SyntaxError) (r t : Reading) :
    Prop where
  mode : t.mode = r.mode
  warnings : t.warnings = recorded ++ r.warnings

theorem Reading.Records.refl (r : Reading) : Records [] r r :=
  ⟨rfl, rfl⟩

/-- Later records come in front of the earlier ones. -/
theorem Reading.Records.trans {first later : List SyntaxError}
    {r t u : Reading} (h : Records first r t) (h' : Records later t u) :
    Records (later ++ first) r u :=
  ⟨h'.mode.trans h.mode,
    by rw [h'.warnings, h.warnings, List.append_assoc]⟩

/-- An action gives the same answer in every state and records nothing. -/
def Quiet (x : Parsing α) (v : Except Failure α) : Prop :=
  ∀ r, (x r).1 = v ∧ Reading.Records [] r (x r).2

namespace Quiet

theorem ofExcept (v : Except Failure α) : Quiet (Parsing.ofExcept v) v := by
  intro r
  cases v with
  | error f => exact ⟨rfl, .refl r⟩
  | ok a => exact ⟨rfl, .refl r⟩

/-- Writing to the journal first makes no difference. -/
theorem tell_bind (f : Journal → Journal) {x : Parsing α}
    {v : Except Failure α} (hx : Quiet x v) :
    Quiet (Parsing.tell f >>= fun _ => x) v := by
  intro r
  rw [bind_apply]
  obtain ⟨hv, hr⟩ := hx { r with journal := f r.journal }
  exact ⟨hv, hr.mode, hr.warnings⟩

theorem strictly (markup : String)
    (read : String → List Token → Except Failure α) :
    Quiet (Parsing.strictly markup read)
      (match Token.scan markup with
        | .ok tokens => read markup tokens
        | .error e => .error (.malformed e)) := by
  unfold Parsing.strictly
  cases Token.scan markup with
  | error e => exact fun r => ⟨rfl, .refl r⟩
  | ok tokens => exact tell_bind _ (ofExcept _)

/-- Choosing between two grammars answers the verdict of the mode, and
records what the mode forgives. -/
theorem select {markup : String} {lenient strict : Parsing α}
    {l s : Except Failure α} (hl : Quiet lenient l) (hs : Quiet strict s)
    (r : Reading) :
    (Parsing.select markup lenient strict r).1 = r.mode.verdict l s ∧
      Reading.Records (r.mode.recorded s).toList r
        (Parsing.select markup lenient strict r).2 := by
  obtain ⟨mode, warnings, journal⟩ := r
  cases mode with
  | strict => exact hs ⟨.strict, warnings, journal⟩
  | lax => exact hl ⟨.lax, warnings, journal⟩
  | warn =>
    obtain ⟨hv, hm, hw⟩ := hs ⟨.warn, warnings, journal⟩
    have hrun : Parsing.select markup lenient strict
        ⟨.warn, warnings, journal⟩ =
          (tryCatch strict _ : Parsing α) ⟨.warn, warnings, journal⟩ := rfl
    rw [hrun, tryCatch_apply]
    rcases hp : strict ⟨.warn, warnings, journal⟩ with ⟨v, t⟩
    rw [hp] at hv hm hw
    obtain rfl : v = s := hv
    cases v with
    | ok a => exact ⟨rfl, hm, hw⟩
    | error f =>
      cases f with
      | malformed e =>
        -- the record comes before what the lenient grammar does
        have hnoted : Reading.Records [e] ⟨.warn, warnings, journal⟩
            (Parsing.recordWarning e markup t).2 :=
          ⟨hm, congrArg (e :: ·) hw⟩
        obtain ⟨hv, hr⟩ := hl (Parsing.recordWarning e markup t).2
        exact ⟨hv, hnoted.trans hr⟩
      | _ => exact ⟨rfl, hm, hw⟩

end Quiet

/-- Reading an operand answers what the mode makes of its markup, and
records what the mode forgives in it. -/
theorem Parsing.expr_apply (markup : String) (r : Reading) :
    (expr markup r).1 = r.mode.expr markup ∧
      Reading.Records (r.mode.recorded (Expr.parseStrict markup)).toList r
        (expr markup r).2 :=
  Quiet.select (.tell_bind _ (.ofExcept _))
    (.strictly markup Expr.readTokens) r

/-- Reading a condition answers what the mode makes of its markup, and
records what the mode forgives in it. -/
theorem Parsing.condition_apply (tag markup : String) (r : Reading) :
    (condition tag markup r).1 = r.mode.condition tag markup ∧
      Reading.Records
        (r.mode.recorded (Condition.parseStrict markup)).toList r
        (condition tag markup r).2 :=
  Quiet.select (.tell_bind _ (.ofExcept _))
    (.strictly markup Condition.readTokens) r

-- ======================================================= the strict run

/-- What the strict mode answers, given the answer of the warning mode
and what it recorded, the last first. -/
def strictAnswer (recorded : List SyntaxError) (answer : Except Failure α) :
    Except Failure α :=
  match recorded.getLast? with
  | none => answer
  | some e => .error (.malformed e)

/-- Once something is recorded, the refusal recorded first decides,
whatever is recorded and answered later. -/
theorem strictAnswer_of_getLast? {first : List SyntaxError} {e : SyntaxError}
    (h : first.getLast? = some e) (later : List SyntaxError)
    (answer : Except Failure α) :
    strictAnswer (later ++ first) answer = .error (.malformed e) := by
  unfold strictAnswer
  rw [List.getLast?_append, h]
  rfl

/-- Two runs of an action, one in the warning mode and one in the strict
mode: what the first one records decides how the second one ends. The
strict mode itself records nothing. -/
def Forgives (x : Parsing α) : Prop :=
  ∀ r s : Reading, r.mode = .warn → s.mode = .strict →
    ∃ recorded, Reading.Records recorded r (x r).2 ∧
      Reading.Records [] s (x s).2 ∧
      (x s).1 = strictAnswer recorded (x r).1

namespace Forgives

theorem pure (a : α) : Forgives (Pure.pure a) :=
  fun r s _ _ => ⟨[], .refl r, .refl s, rfl⟩

theorem throw (f : Failure) : Forgives (throw f : Parsing α) :=
  fun r s _ _ => ⟨[], .refl r, .refl s, rfl⟩

/-- Two runs of a sequence part at the first record: the strict run ends
there, and the other one only adds to what is recorded. -/
theorem bind {x : Parsing α} {f : α → Parsing β} (hx : Forgives x)
    (hf : ∀ a, Forgives (f a)) : Forgives (x >>= f) := by
  intro r s hr hs
  obtain ⟨first, hrec, hstrict, heq⟩ := hx r s hr hs
  rw [bind_apply, bind_apply]
  rcases hp : x r with ⟨v, t⟩
  rcases hq : x s with ⟨w, u⟩
  rw [hp] at hrec heq
  rw [hq] at hstrict heq
  obtain rfl : w = strictAnswer first v := heq
  cases hlast : first.getLast? with
  | none =>
    obtain rfl := List.getLast?_eq_none_iff.1 hlast
    cases v with
    | error e => exact ⟨[], hrec, hstrict, rfl⟩
    | ok a =>
      obtain ⟨later, hrec', hstrict', heq⟩ :=
        hf a t u (hrec.mode.trans hr) (hstrict.mode.trans hs)
      refine ⟨later, ?_, hstrict.trans hstrict', heq⟩
      have hall := hrec.trans hrec'
      rwa [List.append_nil] at hall
  | some e =>
    -- the strict run has ended here, so any strict state will do for `hf`
    have hend : strictAnswer first v = .error (.malformed e) :=
      strictAnswer_of_getLast? hlast [] v
    rw [hend] at hstrict ⊢
    cases v with
    | error e' =>
      exact ⟨first, hrec, hstrict, (strictAnswer_of_getLast? hlast [] _).symm⟩
    | ok a =>
      obtain ⟨later, hrec', -, -⟩ := hf a t s (hrec.mode.trans hr) hs
      exact ⟨later ++ first, hrec.trans hrec', hstrict,
        (strictAnswer_of_getLast? hlast later _).symm⟩

/-- A verdict that the strict mode refuses is recorded, and any other
one is shared. -/
theorem verdict (l s : Except Failure α) :
    Mode.strict.verdict l s =
      strictAnswer (Mode.warn.recorded s).toList (Mode.warn.verdict l s) := by
  cases s with
  | ok a => rfl
  | error f => cases f <;> rfl

theorem expr (markup : String) : Forgives (Parsing.expr markup) := by
  intro r s hr hs
  obtain ⟨hv, hrec⟩ := Parsing.expr_apply markup r
  obtain ⟨hv', hrec'⟩ := Parsing.expr_apply markup s
  rw [hr] at hv hrec
  rw [hs] at hv' hrec'
  exact ⟨_, hrec, hrec', by rw [hv, hv']; exact verdict _ _⟩

theorem condition (tag markup : String) :
    Forgives (Parsing.condition tag markup) := by
  intro r s hr hs
  obtain ⟨hv, hrec⟩ := Parsing.condition_apply tag markup r
  obtain ⟨hv', hrec'⟩ := Parsing.condition_apply tag markup s
  rw [hr] at hv hrec
  rw [hs] at hv' hrec'
  exact ⟨_, hrec, hrec', by rw [hv, hv']; exact verdict _ _⟩

-- ============================================================== chunks

/-- A tag inside a block asks for a markup only if it is an `elsif`
tag. -/
theorem innerTag (b : Builder) (f : Frame) (outer : List Frame)
    (name markup : String) :
    Forgives (Body.innerTag b f outer name markup) := by
  unfold Body.innerTag
  split
  · exact pure _
  · split
    · split
      · exact throw _
      · split
        · exact (pure _).bind fun _ => pure _
        · exact (condition _ _).bind fun _ => pure _
    · split
      · exact throw _
      · exact throw _

theorem tag (tags : Registry) (b : Builder) (name markup : String) :
    Forgives (Body.tag tags b name markup) := by
  unfold Body.tag
  split
  · exact (condition _ _).bind fun _ => pure _
  · exact pure _
  · split
    · exact pure _
    · exact (innerTag b _ _ name markup).bind fun _ => pure _

theorem chunk (tags : Registry) (b : Builder) (c : Chunk) :
    Forgives (Body.chunk tags b c) := by
  cases c with
  | text s => exact pure _
  | output markup => exact (expr markup).bind fun _ => pure _
  | tag name markup => exact tag tags b name markup
  | broken s => exact throw _

end Forgives

end

-- =============================================================== bodies

/-- Two runs over the same chunks: what the one in the warning mode
records decides how the strict one ends, and if it records nothing the
two are the same. -/
theorem readFrom_forgives (tags : Registry) (sources : List String)
    (b : Builder) {r s : Reading} (hr : r.mode = .warn)
    (hs : s.mode = .strict) :
    let warned := Body.readFrom tags sources b r
    let strict := Body.readFrom tags sources b s
    ∃ recorded, Reading.Records recorded r warned.2 ∧
      Reading.Records [] s strict.2 ∧
      strict.1.result = strictAnswer recorded warned.1.result ∧
      (recorded = [] → strict.1 = warned.1) := by
  induction sources generalizing b r s with
  | nil => exact ⟨[], .refl r, .refl s, rfl, fun _ => rfl⟩
  | cons source rest ih =>
    obtain ⟨first, hrec, hstrict, heq⟩ :=
      Forgives.chunk tags b (.ofString source) r s hr hs
    rw [readFrom_cons, readFrom_cons]
    rcases hp : Body.chunk tags b (.ofString source) r with ⟨v, t⟩
    rcases hq : Body.chunk tags b (.ofString source) s with ⟨w, u⟩
    rw [hp] at hrec heq
    rw [hq] at hstrict heq
    obtain rfl : w = strictAnswer first v := heq
    have ht := hrec.mode.trans hr
    cases hlast : first.getLast? with
    | none =>
      obtain rfl := List.getLast?_eq_none_iff.1 hlast
      rcases v with f | b' | ⟨name, markup⟩
      · exact ⟨[], hrec, hstrict, rfl, fun _ => rfl⟩
      · obtain ⟨later, hrec', hstrict', hres, hsame⟩ :=
          ih b' ht (hstrict.mode.trans hs)
        refine ⟨later, ?_, hstrict.trans hstrict', hres, hsame⟩
        have hall := hrec.trans hrec'
        rwa [List.append_nil] at hall
      · exact ⟨[], hrec, hstrict, rfl, fun _ => rfl⟩
    | some e =>
      have hend : strictAnswer first v = .error (.malformed e) :=
        strictAnswer_of_getLast? hlast [] v
      have hfirst : first ≠ [] := by
        rintro rfl
        cases hlast
      rw [hend] at hstrict ⊢
      rcases v with f | b' | ⟨name, markup⟩
      · exact ⟨first, hrec, hstrict,
          (strictAnswer_of_getLast? hlast [] _).symm,
          fun hnil => absurd hnil hfirst⟩
      · obtain ⟨later, hrec', -, -, -⟩ := ih b' ht hs
        exact ⟨later ++ first, hrec.trans hrec', hstrict,
          (strictAnswer_of_getLast? hlast later _).symm,
          fun hnil => absurd (List.append_eq_nil_iff.1 hnil).2 hfirst⟩
      · exact ⟨first, hrec, hstrict,
          (strictAnswer_of_getLast? hlast [] _).symm,
          fun hnil => absurd hnil hfirst⟩

-- ============================================================ templates

/-- How the strict mode ends can be read off the warning mode. -/
theorem Template.parse_strict (tags : Registry) (source : String)
    (journal journal' : Journal) :
    (parse tags .strict source journal').1 =
      strictAnswer
        ((read tags source) (Parsing.start .warn journal)).2.warnings
        (parse tags .warn source journal).1 := by
  let warning := Parsing.start .warn journal
  let strictly := Parsing.start .strict journal'
  obtain ⟨recorded, hrec, hstrict, hres, hsame⟩ :=
    readFrom_forgives tags (Chunk.split source) (.ofNodes [])
      (r := warning) (s := strictly) rfl rfl
  show ((read tags source) strictly).1 =
    strictAnswer _ ((read tags source) warning).1
  rw [read_warnings, read_apply, read_apply]
  rcases hp : Body.readFrom tags (Chunk.split source) (.ofNodes []) warning
    with ⟨warned, t⟩
  rcases hq : Body.readFrom tags (Chunk.split source) (.ofNodes []) strictly
    with ⟨strict, u⟩
  rw [hp] at hrec hres hsame
  rw [hq] at hstrict hres hsame
  dsimp only at hres hsame ⊢
  obtain rfl : t.warnings = recorded :=
    hrec.warnings.trans (List.append_nil _)
  cases hlast : t.warnings.getLast? with
  | none =>
    have hnone := List.getLast?_eq_none_iff.1 hlast
    rw [hsame hnone, hnone, hstrict.warnings]
    rfl
  | some e =>
    rw [hres]
    have hend {α : Type} (v : Except Failure α) :
        strictAnswer t.warnings v = .error (.malformed e) :=
      strictAnswer_of_getLast? hlast [] v
    rw [hend, hend]

end Stencil
