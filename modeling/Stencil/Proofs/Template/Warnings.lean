/-
What the warnings of a template are about.

In the warning mode every chunk that goes into a template leaves one mark
in the tree and at most one warning in the list. `Built` says which: the
mark has the operand or the condition that the strict grammar reads from
the markup of the chunk, and there is no warning; or the strict grammar
refuses the markup, the refusal is the warning, and the mark has what the
lenient grammar reads. Chunks without such a markup leave no warning.

The account is kept along the reading: `Proceeds` says what a chunk does
to the builder, `Proceeds.leaves` what that adds to the marks in any mode,
and `Leaves.account` what it adds to the warnings. As in the proof that
nothing is lost in the tree, the steps are steps on whole builders that
are stripped afterwards; all that is left of them when the reading has come
to its end is the chain of marks, `LeavesAll`. How the strict mode ends on
the same source is known from the two runs side by side, and the last theorem
puts both together.
-/
import Mathlib.Data.List.Forall2
import Stencil.Proofs.Template.Forgiveness
import Stencil.Proofs.Template.Retelling

namespace Stencil

-- ============================================================= accounts

/-- How a markup is read by the strict grammar, with the lenient one to
fall back on, and the warning that comes with it. -/
inductive Understood {α : Type} (lenient strict : Except Failure α) (a : α) :
    Option SyntaxError → Prop
  | admitted : strict = .ok a → Understood lenient strict a none
  | forgiven {e : SyntaxError} :
      strict = .error (.malformed e) → lenient = .ok a →
      Understood lenient strict a (some e)

/-- What the warning mode answers is understood that way. -/
theorem understood_of_verdict {α : Type} {l s : Except Failure α} {a : α}
    (h : Mode.warn.verdict l s = .ok a) :
    Understood l s a (Mode.warn.recorded s) := by
  cases s with
  | ok a' =>
    cases h
    exact .admitted rfl
  | error f =>
    cases f with
    | malformed e => exact .forgiven rfl h
    | _ => cases h

/-- The tags whose markup is a condition: those that open a block, and
`elsif`, unless the registry knows it as something else. -/
def Registry.TakesCondition (tags : Registry) (name : String) : Prop :=
  (∃ negated, tags.tag? name = some (.conditional negated)) ∨
    (tags.tag? name = none ∧ name = elsifTag)

/-- What a chunk leaves in a template that is read in the warning mode:
its mark in the tree, and a warning if the strict grammar refuses its
markup. -/
inductive Built (tags : Registry) :
    Chunk → Mark → Option SyntaxError → Prop
  | text (s : String) : Built tags (.text s) (.text s) none
  | output {markup : String} {e : Expr} {warning : Option SyntaxError} :
      Understood (Expr.parse markup) (Expr.parseStrict markup) e warning →
      Built tags (.output markup) (.output markup e) warning
  | condition {name markup : String} {c : Condition}
      {warning : Option SyntaxError} :
      tags.TakesCondition name →
      Understood (Condition.parseLenient name markup)
        (Condition.parseStrict markup) c warning →
      Built tags (.tag name markup) (.tag name (some c)) warning
  | bare {name markup : String} : ¬tags.TakesCondition name →
      Built tags (.tag name markup) (.tag name none) none

-- ============================================================ one chunk

section

variable {tags : Registry} {r r' : Reading}

theorem understood_of_expr {markup : String} {e : Expr}
    (h : Parsing.expr markup r = (.ok e, r')) (hr : r.mode = .warn) :
    ∃ warning : Option SyntaxError,
      Understood (Expr.parse markup) (Expr.parseStrict markup) e warning ∧
      Reading.Records warning.toList r r' := by
  obtain ⟨hv, hrec⟩ := Parsing.expr_apply markup r
  rw [h, hr] at hv hrec
  exact ⟨_, understood_of_verdict hv.symm, hrec⟩

/-- A condition is understood alike for every tag, because only refusals
name the tag. -/
theorem understood_of_condition {tag markup : String} {c : Condition}
    (name : String) (h : Parsing.condition tag markup r = (.ok c, r'))
    (hr : r.mode = .warn) :
    ∃ warning : Option SyntaxError,
      Understood (Condition.parseLenient name markup)
        (Condition.parseStrict markup) c warning ∧
      Reading.Records warning.toList r r' := by
  obtain ⟨hv, hrec⟩ := Parsing.condition_apply tag markup r
  rw [h, hr] at hv hrec
  exact ⟨_, understood_of_verdict (Mode.condition_tag name hv.symm), hrec⟩

/-- A tag that the registry does not know, or knows as one that stands
alone, takes no condition, if it is not `elsif`. -/
theorem Registry.not_takesCondition {name : String}
    (htag : ∀ negated, tags.tag? name ≠ some (.conditional negated))
    (hname : tags.tag? name = none → name ≠ elsifTag) :
    ¬tags.TakesCondition name := by
  rintro (⟨negated, h⟩ | ⟨h, helsif⟩)
  · exact htag negated h
  · exact hname h helsif

/-- The innermost open block of a stripped builder is that of the whole
builder, stripped. -/
theorem Builder.frames_of_strip {b : Builder} {f : Frame}
    {outer : List Frame} (h : b.strip.frames = f :: outer) :
    ∃ nodes g rest, b = ⟨nodes, g :: rest⟩ ∧ f = g.strip ∧
      outer = rest.map Frame.strip := by
  obtain ⟨nodes, frames⟩ := b
  cases frames with
  | nil => cases h
  | cons g rest =>
    cases h
    exact ⟨nodes, g, rest, rfl, rfl, rfl⟩

theorem Parsing.condition_isOtherwise {tag markup : String} {c : Condition}
    (h : Parsing.condition tag markup r = (.ok c, r')) :
    c.isOtherwise = false := by
  obtain ⟨hv, -⟩ := Parsing.condition_apply tag markup r
  rw [h] at hv
  exact Mode.condition_isOtherwise hv.symm

/-- What a chunk leaves in a body: its mark, with the operand or the
condition that was read from its markup on the way. -/
inductive Leaves (tags : Registry) (r : Reading) :
    Chunk → Mark → Reading → Prop
  | text (s : String) : Leaves tags r (.text s) (.text s) r
  | output {markup : String} {e : Expr} {r' : Reading} :
      Parsing.expr markup r = (.ok e, r') →
      Leaves tags r (.output markup) (.output markup e) r'
  | condition {name tag markup : String} {c : Condition} {r' : Reading} :
      tags.TakesCondition name →
      Parsing.condition tag markup r = (.ok c, r') →
      Leaves tags r (.tag name markup) (.tag name (some c)) r'
  | bare {name markup : String} : ¬tags.TakesCondition name →
      Leaves tags r (.tag name markup) (.tag name none) r

/-- A chunk that lets a body go on leaves one mark. -/
theorem Proceeds.leaves {b b₂ : Builder} {c : Chunk}
    (h : Proceeds tags b.strip r c b₂ r') :
    ∃ (b' : Builder) (mark : Mark),
      b₂ = b'.strip ∧ b'.marks = b.marks ++ [mark] ∧
      Leaves tags r c mark r' := by
  cases h with
  | text s =>
    exact ⟨b.push (.text s), _, (b.strip_push (.text s)).symm,
      b.marks_push (.text s), .text s⟩
  | @output markup e _ he =>
    exact ⟨b.push (.output markup e), _,
      (b.strip_push (.output markup e)).symm,
      b.marks_push (.output markup e), .output he⟩
  | @leaf name markup kind htag =>
    have hbare : ¬tags.TakesCondition name := by
      apply Registry.not_takesCondition
      · rw [htag]
        intro negated h
        cases h
      · intro h
        cases htag.symm.trans h
    exact ⟨b.push (.leaf kind name markup), _,
      (b.strip_push (.leaf kind name markup)).symm,
      b.marks_push (.leaf kind name markup), .bare hbare⟩
  | @opening name markup negated c _ htag hc =>
    have hmark : Mark.ofBranch (some name) c = .tag name (some c) := by
      simp [Mark.ofBranch, Parsing.condition_isOtherwise hc]
    refine ⟨b.enter (.opened negated name markup c), _, rfl,
      b.marks_enter negated name markup c, ?_⟩
    rw [hmark]
    exact .condition (Or.inl ⟨negated, htag⟩) hc
  | @closing markup f outer htag hb =>
    obtain ⟨nodes, g, rest, rfl, rfl, rfl⟩ := Builder.frames_of_strip hb
    have hbare : ¬tags.TakesCondition (closingTag g.name) := by
      apply Registry.not_takesCondition
      · intro negated h
        cases htag.symm.trans h
      · exact fun _ => (closingTag_special g.name).2.1.symm
    refine ⟨Builder.push ⟨nodes, rest⟩ g.whole, _, ?_,
      Builder.marks_close nodes g rest, .bare hbare⟩
    rw [Builder.strip_push, ← Frame.close_strip]
    rfl
  | @elsif markup f outer c _ htag hb hc =>
    obtain ⟨nodes, g, rest, rfl, rfl, rfl⟩ := Builder.frames_of_strip hb
    have hmark : Mark.ofBranch none c = .tag elsifTag (some c) := by
      simp [Mark.ofBranch, Parsing.condition_isOtherwise hc]
    refine ⟨⟨nodes, g.nextBranch c :: rest⟩, _,
      (Builder.strip_next nodes g rest c).symm,
      Builder.marks_next nodes g rest c, ?_⟩
    rw [hmark]
    exact .condition (Or.inr ⟨htag, rfl⟩) hc
  | @otherwise markup f outer htag hb =>
    obtain ⟨nodes, g, rest, rfl, rfl, rfl⟩ := Builder.frames_of_strip hb
    have hbare : ¬tags.TakesCondition elseTag := by
      apply Registry.not_takesCondition
      · intro negated h
        cases htag.symm.trans h
      · exact fun _ => by decide
    exact ⟨⟨nodes, g.nextBranch .otherwise :: rest⟩, _,
      (Builder.strip_next nodes g rest _).symm,
      Builder.marks_next nodes g rest .otherwise, .bare hbare⟩

/-- In the warning mode a chunk also leaves at most one warning, as it is
built. -/
theorem Leaves.account {c : Chunk} {mark : Mark}
    (h : Leaves tags r c mark r') (hr : r.mode = .warn) :
    ∃ warning, Built tags c mark warning ∧
      Reading.Records warning.toList r r' := by
  cases h with
  | text s => exact ⟨none, .text s, .refl r⟩
  | output he =>
    obtain ⟨warning, hbuilt, hrec⟩ := understood_of_expr he hr
    exact ⟨warning, .output hbuilt, hrec⟩
  | @condition name tag markup c _ htag hc =>
    obtain ⟨warning, hbuilt, hrec⟩ := understood_of_condition name hc hr
    exact ⟨warning, .condition htag hbuilt, hrec⟩
  | bare hbare => exact ⟨none, .bare hbare, .refl r⟩

-- =========================================================== many chunks

/-- Chunks leave their marks one after the other. -/
inductive LeavesAll (tags : Registry) :
    Reading → List String → List Mark → Reading → Prop
  | nil (r : Reading) : LeavesAll tags r [] [] r
  | cons {r t r' : Reading} {s : String} {rest : List String} {mark : Mark}
      {marks : List Mark} (first : Leaves tags r (.ofString s) mark t)
      (later : LeavesAll tags t rest marks r') :
      LeavesAll tags r (s :: rest) (mark :: marks) r'

/-- Each of the chunks leaves its mark. -/
theorem LeavesAll.forall₂ {sources : List String} {marks : List Mark}
    (h : LeavesAll tags r sources marks r') :
    List.Forall₂ (fun s mark => ∃ t u, Leaves tags t (.ofString s) mark u)
      sources marks := by
  induction h with
  | nil => exact .nil
  | cons first _ ih => exact .cons ⟨_, _, first⟩ ih

/-- Chunks that are read to the end leave their marks, each of them one, in
the order they stand in. -/
theorem readFrom_leaves {sources : List String} (b : Builder)
    {outcome : Body.Outcome}
    (h : Body.readFrom tags sources b.strip r = (outcome, r'))
    (hdone : outcome.result = .ok none) :
    ∃ nodes marks, outcome.nodes = Node.stripAll nodes ∧
      Node.allMarks nodes = b.marks ++ marks ∧
      LeavesAll tags r sources marks r' := by
  induction sources generalizing b r with
  | nil =>
    obtain ⟨nodes, frames⟩ := b
    cases h
    cases frames with
    | cons f outer => cases hdone
    | nil =>
      refine ⟨nodes.reverse, [], ?_, ?_, .nil _⟩
      · rw [Node.stripAll_eq_map, List.map_reverse]
        rfl
      · simp [Builder.marks]
  | cons s rest ih =>
    rw [readFrom_cons] at h
    rcases hp : Body.chunk tags b.strip (.ofString s) r with ⟨v, t⟩
    rw [hp] at h
    rcases v with f | b₂ | ⟨name, markup⟩
    · cases h
      cases hdone
    · obtain ⟨b', mark, rfl, hmarks, hleaves⟩ :=
        (proceeds_of_chunk hp).leaves
      obtain ⟨nodes, marks, hnodes, htold, hall⟩ := ih b' h
      refine ⟨nodes, mark :: marks, hnodes, ?_, .cons hleaves hall⟩
      rw [htold, hmarks, List.append_assoc]
      rfl
    · cases h
      cases hdone

/-- In the warning mode chunks leave their warnings in the order they stand
in. -/
theorem LeavesAll.account {sources : List String} {marks : List Mark}
    (h : LeavesAll tags r sources marks r') (hr : r.mode = .warn) :
    ∃ account : List (Mark × Option SyntaxError),
      marks = account.map Prod.fst ∧
      r'.warnings.reverse =
        r.warnings.reverse ++ account.filterMap Prod.snd ∧
      List.Forall₂ (fun s entry => Built tags (.ofString s) entry.1 entry.2)
        sources account := by
  induction h with
  | nil => exact ⟨[], rfl, by simp, .nil⟩
  | @cons _ _ _ _ _ mark _ first _ ih =>
    obtain ⟨warning, hbuilt, hrec⟩ := first.account hr
    obtain ⟨account, rfl, hwarned, hall⟩ := ih (hrec.mode.trans hr)
    refine ⟨(mark, warning) :: account, rfl, ?_, .cons hbuilt hall⟩
    rw [hwarned, hrec.warnings]
    cases warning with
    | none => rfl
    | some e => simp

/-- Chunks that are read to the end leave their marks and their warnings
in the order they stand in. -/
theorem readFrom_account {sources : List String} (b : Builder)
    (hr : r.mode = .warn) {outcome : Body.Outcome}
    (h : Body.readFrom tags sources b.strip r = (outcome, r'))
    (hdone : outcome.result = .ok none) :
    ∃ nodes, ∃ account : List (Mark × Option SyntaxError),
      outcome.nodes = Node.stripAll nodes ∧
      Node.allMarks nodes = b.marks ++ account.map Prod.fst ∧
      r'.warnings.reverse =
        r.warnings.reverse ++ account.filterMap Prod.snd ∧
      List.Forall₂ (fun s entry => Built tags (.ofString s) entry.1 entry.2)
        sources account := by
  obtain ⟨nodes, marks, hnodes, htold, hall⟩ := readFrom_leaves b h hdone
  obtain ⟨account, rfl, hwarned, hbuilt⟩ := hall.account hr
  exact ⟨nodes, account, hnodes, htold, hwarned, hbuilt⟩

end

-- ========================================================= the template

/-- The warning mode is the strict mode with the refusals recorded. Both
succeed without warnings together, and then on the same tree. If there
are warnings, the strict mode fails with the first of them; if the
warning mode fails before there is one, so does the strict mode, in the
same way. When the warning mode succeeds, the warnings are those that the
chunks leave, in their order: one for each condition or operand that the
strict grammar refuses, which is then the one that the lenient grammar
reads, while all others are those that the strict grammar reads. -/
theorem Template.parse_warn_refines_strict (tags : Registry)
    (source : String) (journal journal' : Journal) :
    let strict := (parse tags .strict source journal').1
    let warned := (parse tags .warn source journal).1
    let reading := ((read tags source) (Parsing.start .warn journal)).2
    (∀ template, strict = .ok template ↔
      warned = .ok template ∧ template.warnings = []) ∧
    (∀ template first later, warned = .ok template →
      template.warnings = first :: later →
      strict = .error (.malformed first)) ∧
    (∀ failure, warned = .error failure → reading.warnings = [] →
      strict = .error failure) ∧
    (∀ template, warned = .ok template →
      ∃ nodes, ∃ account : List (Mark × Option SyntaxError),
        template.nodes = Node.stripAll nodes ∧
        Node.allMarks nodes = account.map Prod.fst ∧
        template.warnings = account.filterMap Prod.snd ∧
        List.Forall₂
          (fun s entry => Built tags (.ofString s) entry.1 entry.2)
          (Chunk.split source) account) := by
  intro strict warned reading
  have hstrict : strict = strictAnswer reading.warnings warned :=
    parse_strict tags source journal journal'
  have hwarned : ∀ template, warned = .ok template →
      template.warnings = reading.warnings.reverse := by
    intro template h
    obtain ⟨outcome, r', hp, -, rfl⟩ := read_eq_ok h
    have hrecorded :=
      read_warnings tags source (Parsing.start .warn journal)
    rw [hp] at hrecorded
    exact congrArg List.reverse hrecorded.symm
  refine ⟨fun template => ⟨fun h => ?_, ?_⟩, ?_, ?_, ?_⟩
  · -- had anything been recorded, the strict mode would have failed
    cases hlast : reading.warnings.getLast? with
    | none =>
      have hnone := List.getLast?_eq_none_iff.1 hlast
      rw [hstrict, hnone] at h
      refine ⟨h, ?_⟩
      rw [hwarned template h, hnone]
      rfl
    | some e =>
      rw [hstrict] at h
      cases (strictAnswer_of_getLast? hlast [] warned).symm.trans h
  · rintro ⟨h, hnone⟩
    rw [hwarned template h, List.reverse_eq_nil_iff] at hnone
    rw [hstrict, hnone]
    exact h
  · intro template first later h hfirst
    have hlast : reading.warnings.getLast? = some first := by
      rw [List.getLast?_eq_head?_reverse, ← hwarned template h, hfirst]
      rfl
    rw [hstrict]
    exact strictAnswer_of_getLast? hlast [] warned
  · intro failure h hnone
    rw [hstrict, hnone]
    exact h
  · intro template h
    obtain ⟨outcome, r', hp, hdone, rfl⟩ := read_eq_ok h
    exact readFrom_account (.ofNodes []) rfl hp hdone

/-- An output of two names is forgiven once, and refused strictly. -/
theorem Template.parse_warn_refines_strict_output :
    let refusal := SyntaxError.unexpectedToken "end_of_string" "id" " a b "
    (parse .standard .strict "{{ a b }}" (.fresh false)).1 =
        .error (.malformed refusal) ∧
      ∃ template nodes, ∃ account : List (Mark × Option SyntaxError),
        (parse .standard .warn "{{ a b }}" (.fresh false)).1 =
          .ok template ∧
        template.warnings = [refusal] ∧
        template.nodes = Node.stripAll nodes ∧
        Node.allMarks nodes = account.map Prod.fst ∧
        account.filterMap Prod.snd = [refusal] := by
  intro refusal
  have hcheck : (match
      (parse .standard .warn "{{ a b }}" (.fresh false)).1 with
    | .ok template => decide (template.warnings = [refusal])
    | .error _ => false) = true := by
    decide +kernel
  obtain ⟨-, hstrict, -, hbuilt⟩ := parse_warn_refines_strict .standard
    "{{ a b }}" (.fresh false) (.fresh false)
  split at hcheck
  · next template hwarned =>
    have hrefusal := of_decide_eq_true hcheck
    obtain ⟨nodes, account, hnodes, hmarks, hwarnings, -⟩ :=
      hbuilt template hwarned
    exact ⟨hstrict template refusal [] hwarned hrefusal, template, nodes,
      account, hwarned, hrefusal, hnodes, hmarks,
      hwarnings.symm.trans hrefusal⟩
  · cases hcheck

end Stencil
