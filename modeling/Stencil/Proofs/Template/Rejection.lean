/-
Why a template is rejected.

Reading a template fails as its markup does, or because of how the chunks
stand: a tag is unknown or out of place, a block is left open. All of this
is said about the source, except that a range with bounds that are written
out can fail over one of them, and an integer over too many digits. That
takes a parenthesis in the source, or the digits.
-/
import Stencil.Proofs.Conduct
import Stencil.Proofs.Expr.Numeric
import Stencil.Proofs.Template.Operands

namespace Stencil

section

variable {ranges long : Prop} {tags : Registry}

namespace Parsing

/-- Reading fails only in the ways of a grammar. -/
abbrev Grammatical {α : Type} (ranges long : Prop) (x : Parsing α)
    (r : Reading) : Prop :=
  Behaves (.failing Reading (Failure.OfGrammar ranges long)) Anything x r

variable {r : Reading}

theorem grammatical_refuse {α : Type} (e : SyntaxError) :
    Grammatical ranges long (Body.refuse e : Parsing α) r :=
  .throw (Or.inl ⟨e, rfl⟩)

/-- Markup fails in the ways of its grammars. -/
theorem grammatical_of_answers {α : Type} {x : Parsing α}
    {verdict : Except Failure α} (hx : Answers r.mode x verdict)
    (h : ∀ f, verdict = .error f → f.OfGrammar ranges long) :
    Grammatical ranges long x r := by
  intro _
  obtain ⟨hout, -⟩ := hx r rfl
  refine ⟨trivial, trivial, ?_⟩
  rw [hout]
  cases verdict with
  | ok a => exact .ok trivial
  | error f => exact .error (h f rfl)

theorem grammatical_expr {markup : String}
    (hpermits : Permits ranges long markup.toList) :
    Grammatical ranges long (expr markup) r :=
  grammatical_of_answers (Answers.expr markup) fun _ =>
    Mode.ofGrammar_of_expr hpermits

theorem grammatical_condition {tag markup : String}
    (hpermits : Permits ranges long markup.toList) :
    Grammatical ranges long (condition tag markup) r :=
  grammatical_of_answers (Answers.condition tag markup) fun _ =>
    Mode.ofGrammar_of_condition hpermits

/-- A tag inside a block is refused, or fails as its markup does. -/
theorem grammatical_innerTag {b : Builder} {f : Frame} {outer : List Frame}
    {name markup : String} (hpermits : Permits ranges long markup.toList) :
    Grammatical ranges long (Body.innerTag b f outer name markup) r := by
  unfold Body.innerTag
  split
  · exact .pure trivial
  · split
    · split
      · exact grammatical_refuse _
      · dsimp only
        split
        · exact .pure trivial
        · exact .bind (grammatical_condition hpermits)
            fun _ _ _ _ => .pure trivial
    · split
      · exact grammatical_refuse _
      · exact grammatical_refuse _

/-- A chunk is refused, or fails as its markup does. -/
theorem grammatical_chunk {b : Builder} {c : Chunk}
    (hpermits : ∀ markup, c.markup? = some markup →
      Permits ranges long markup.toList) :
    Grammatical ranges long (Body.chunk tags b c) r := by
  cases c with
  | text s => exact .pure trivial
  | output markup =>
    exact .bind (grammatical_expr (hpermits markup rfl))
      fun _ _ _ _ => .pure trivial
  | broken s => exact grammatical_refuse _
  | tag name markup =>
    have hpermits := hpermits markup rfl
    show Grammatical ranges long (Body.tag tags b name markup) r
    unfold Body.tag
    split
    · exact .bind (grammatical_condition hpermits)
        fun _ _ _ _ => .pure trivial
    · exact .pure trivial
    · split
      · exact .pure trivial
      · exact .bind (grammatical_innerTag hpermits)
          fun _ _ _ _ => .pure trivial

end Parsing

/-- Chunks are refused, or fail as their markup does. -/
theorem readFrom_ofGrammar {sources : List String}
    (hpermits : ∀ s ∈ sources, Permits ranges long s.toList) {b : Builder}
    {r r' : Reading} {outcome : Body.Outcome} {f : Failure}
    (hread : Body.readFrom tags sources b r = (outcome, r'))
    (h : outcome.result = .error f) : f.OfGrammar ranges long := by
  induction sources generalizing b r with
  | nil =>
    obtain ⟨nodes, frames⟩ := b
    cases frames with
    | nil =>
      cases hread
      cases h
    | cons frame outer =>
      cases hread
      cases h
      exact Or.inl ⟨_, rfl⟩
  | cons s rest ih =>
    obtain ⟨hs, hrest⟩ := List.forall_mem_cons.1 hpermits
    have hchunk :
        Parsing.Grammatical ranges long (Body.chunk tags b (.ofString s)) r :=
      Parsing.grammatical_chunk fun markup hm =>
        hs.of_part (Chunk.infix_of_markup? hm)
    obtain ⟨-, -, hends⟩ := hchunk trivial
    rw [readFrom_cons] at hread
    rcases hp : Body.chunk tags b (.ofString s) r with ⟨f' | step, t⟩
    · rw [hp] at hread hends
      cases hread
      cases h
      cases hends with
      | error hf => exact hf
    · rw [hp] at hread
      cases step with
      | proceed b' => exact ih hrest hread
      | stop name markup =>
        cases hread
        cases h

/-- A source is rejected for what is malformed about it, or over a number
that it permits. -/
theorem Template.parse_ofGrammar {mode : Mode} {source : String}
    {journal : Journal} {f : Failure}
    (hpermits : Permits ranges long source.toList)
    (h : (parse tags mode source journal).1 = .error f) :
    f.OfGrammar ranges long := by
  have h : ((read tags source) (Parsing.start mode journal)).1 =
    .error f := h
  rw [read_apply] at h
  rcases hread : Body.readFrom tags (Chunk.split source) (.ofNodes [])
      (Parsing.start mode journal) with ⟨outcome, r'⟩
  rw [hread] at h
  dsimp only at h
  split at h
  · next hresult =>
    cases h
    exact readFrom_ofGrammar
      (fun s hs => hpermits.of_part (Chunk.infix_of_mem_split hs)) hread
      hresult
  · cases h
    exact Or.inl ⟨_, rfl⟩
  · cases h

end

end Stencil
