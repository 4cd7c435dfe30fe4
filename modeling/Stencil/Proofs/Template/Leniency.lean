/-
The warning mode against the lenient one: what it does not forgive.

The warning mode asks the strict grammar first and falls back to the
lenient one where the markup is refused. The strict grammar can also fail
over a number, a bound of a range or an integer of too many digits, and such
a failure is no refusal: nothing catches it, even where the lenient grammar
never looks at that number. So the warning mode can reject a template that
the lenient mode accepts, and this is the only way for it to do so.
`Chunk.numericFailure?` is the failure over a number that the strict grammar
meets in the markup of a chunk. Where a source is accepted in the lenient
mode, the warning mode fails with the first of these failures, and if there
are none it accepts the source as well.

The two runs go over the same chunks. They may read different operands
and conditions, but the blocks that are open have the same names and have
passed their `else` tags together, and nothing else in a builder decides
how a chunk is taken. `Trails` relates an action in the lenient mode with
one in the warning mode as far as that.
-/
import Stencil.Proofs.Expr.Numeric
import Stencil.Proofs.Template.Cutting
import Stencil.Proofs.Template.Forgiveness
import Stencil.Proofs.Template.Retelling

namespace Stencil

section

variable {α β γ δ : Type}

-- ============================================================= numbers

/-- The failure over a number that a verdict may be. -/
def numericFailureOf? : Except Failure α → Option Failure
  | .error f => if f.isNumeric then some f else none
  | .ok _ => none

/-- The failure over a number that the strict grammar meets in the markup
of a chunk, where the chunk has a markup that is read. -/
def Chunk.numericFailure? (tags : Registry) : Chunk → Option Failure
  | .output markup => numericFailureOf? (Expr.parseStrict markup)
  | .tag name markup =>
    match tags.tag? name with
    | some (.conditional _) => numericFailureOf? (Condition.parseStrict markup)
    | some (.leaf _) => none
    | none =>
      if name == elsifTag then numericFailureOf? (Condition.parseStrict markup)
      else none
  | .text _ | .broken _ => none

/-- Of the tags that no registry entry names, only `elsif` has a markup
that is read. -/
theorem Chunk.numericFailure?_of_none {tags : Registry} {name : String}
    (htag : tags.tag? name = none) (markup : String) :
    (Chunk.tag name markup).numericFailure? tags =
      if name == elsifTag then numericFailureOf? (Condition.parseStrict markup)
      else none := by
  simp only [numericFailure?, htag]

/-- The failure over a number that is met first in the chunks of a
source. -/
def Template.numericFailure? (tags : Registry) (source : String) :
    Option Failure :=
  (Chunk.split source).findSome? fun s =>
    (Chunk.ofString s).numericFailure? tags

/-- What the verdict of a grammar is over a number is a failure of the
grammar. -/
theorem ofNumber_of_numericFailureOf? {ranges long : Prop}
    {verdict : Except Failure α} {f : Failure}
    (hs : ∀ f, verdict = .error f → f.OfGrammar ranges long)
    (h : numericFailureOf? verdict = some f) : f.OfNumber ranges long := by
  cases verdict with
  | ok a => cases h
  | error f' =>
    simp only [numericFailureOf?] at h
    split at h
    · next hnumeric =>
      cases h
      rcases hs _ rfl with ⟨e, rfl⟩ | hnumber
      · cases hnumeric
      · exact hnumber
    · cases h

/-- A chunk fails over a number only as its characters permit. -/
theorem Chunk.ofNumber_of_numericFailure? {ranges long : Prop}
    {tags : Registry} {s : String} {f : Failure}
    (hpermits : Permits ranges long s.toList)
    (h : (Chunk.ofString s).numericFailure? tags = some f) :
    f.OfNumber ranges long := by
  have hmarkup {markup : String}
      (hs : (Chunk.ofString s).markup? = some markup) :
      Permits ranges long markup.toList :=
    hpermits.of_part (infix_of_markup? hs)
  have hcondition {markup : String}
      (hs : (Chunk.ofString s).markup? = some markup)
      (h : numericFailureOf? (Condition.parseStrict markup) = some f) :
      f.OfNumber ranges long := by
    refine ofNumber_of_numericFailureOf? (fun f => ?_) h
    exact Condition.ofGrammar_of_parseStrict (hmarkup hs)
  generalize Chunk.ofString s = c at h hmarkup hcondition
  unfold numericFailure? at h
  split at h
  · refine ofNumber_of_numericFailureOf? (fun f => ?_) h
    exact Expr.ofGrammar_of_parseStrict (hmarkup rfl)
  · split at h
    · exact hcondition rfl h
    · cases h
    · split at h
      · exact hcondition rfl h
      · cases h
  · cases h
  · cases h

theorem Template.ofNumber_of_numericFailure? {tags : Registry}
    {source : String} {f : Failure}
    (h : numericFailure? tags source = some f) :
    f.OfNumber ('(' ∈ source.toList) (Numeral.OverlongIn source.toList) := by
  obtain ⟨s, hs, hfailure⟩ := List.exists_of_findSome?_eq_some h
  exact Chunk.ofNumber_of_numericFailure?
    (Permits.self.of_part (Chunk.infix_of_mem_split hs)) hfailure

/-- How the warning mode ends where the lenient grammar has an answer, and
the strict one fails only in the ways of a grammar: it fails with a
failure over a number, and answers if there is none. -/
theorem Mode.warn_verdict {ranges long : Prop} {l s : Except Failure α} {a : α}
    (hl : l = .ok a) (hs : ∀ f, s = .error f → f.OfGrammar ranges long) :
    match numericFailureOf? s with
    | none => ∃ b, Mode.warn.verdict l s = .ok b
    | some f => Mode.warn.verdict l s = .error f := by
  subst hl
  cases s with
  | ok b => exact ⟨b, rfl⟩
  | error f =>
    rcases hs f rfl with ⟨e, rfl⟩ | hnumber
    · exact ⟨a, rfl⟩
    · have hnumeric := hnumber.isNumeric
      simp only [numericFailureOf?, hnumeric, if_true]
      cases f with
      | malformed e => cases hnumeric
      | _ => rfl

-- ============================================================ judgement

/-- An action in the warning mode against one in the lenient mode that
answers: it fails with the failure over a number, if one is given, and
otherwise gives an answer related to the other one. -/
def Trails (failure? : Option Failure) (related : α → β → Prop)
    (x : Parsing α) (y : Parsing β) : Prop :=
  ∀ r s a, r.mode = .lax → s.mode = .warn → (x r).1 = .ok a →
    (x r).2.mode = .lax ∧ (y s).2.mode = .warn ∧
      match failure? with
      | none => ∃ b, (y s).1 = .ok b ∧ related a b
      | some f => (y s).1 = .error f

namespace Trails

variable {failure? : Option Failure} {related : α → β → Prop}

theorem pure {a : α} {b : β} (h : related a b) :
    Trails none related (Pure.pure a) (Pure.pure b) := by
  intro r s a' hr hs ha
  cases ha
  exact ⟨hr, hs, b, rfl, h⟩

/-- What fails in the lenient mode is followed by anything. -/
theorem throw (f : Failure) (y : Parsing β) :
    Trails failure? related (throw f : Parsing α) y := by
  intro r s a _ _ ha
  cases ha

/-- Related answers are put to related use. -/
theorem map {x : Parsing α} {y : Parsing β} {g : α → γ} {h : β → δ}
    {related' : γ → δ → Prop} (hxy : Trails failure? related x y)
    (huse : ∀ a b, related a b → related' (g a) (h b)) :
    Trails failure? related' (x >>= fun a => Pure.pure (g a))
      (y >>= fun b => Pure.pure (h b)) := by
  intro r s c hr hs hc
  rw [bind_apply] at hc
  rw [bind_apply, bind_apply]
  rcases hp : x r with ⟨v, r'⟩
  rcases hq : y s with ⟨w, s'⟩
  rw [hp] at hc
  cases v with
  | error f => cases hc
  | ok a =>
    cases hc
    have hrun := hxy r s a hr hs (by rw [hp])
    rw [hp, hq] at hrun
    obtain ⟨hr', hs', hw⟩ := hrun
    cases failure? with
    | none =>
      obtain ⟨b, rfl, hab⟩ := hw
      exact ⟨hr', hs', h b, rfl, huse a b hab⟩
    | some f =>
      obtain rfl : w = .error f := hw
      exact ⟨hr', hs', rfl⟩

/-- The same markup, read in both modes. -/
theorem markup {x : Parsing α} {l s : Except Failure α}
    (hx : ∀ mode, Answers mode x (mode.verdict l s))
    (hs : ∀ f, s = .error f → f.OfGrammar True True) :
    Trails (numericFailureOf? s)
      (fun a b => l = .ok a ∧ Mode.warn.verdict l s = .ok b) x x := by
  intro r t a hr ht ha
  obtain ⟨hlax, hr'⟩ := hx .lax r hr
  obtain ⟨hwarn, ht'⟩ := hx .warn t ht
  have hl : l = .ok a := hlax.symm.trans ha
  refine ⟨hr', ht', ?_⟩
  rw [hwarn]
  have hverdict := Mode.warn_verdict hl hs
  cases hfailure : numericFailureOf? s with
  | none =>
    rw [hfailure] at hverdict
    obtain ⟨b, hb⟩ := hverdict
    exact ⟨b, hb, hl, hb⟩
  | some f =>
    rw [hfailure] at hverdict
    exact hverdict

/-- What is related is related in every weaker way. -/
theorem mono {x : Parsing α} {y : Parsing β} {related' : α → β → Prop}
    (hxy : Trails failure? related x y)
    (himp : ∀ a b, related a b → related' a b) :
    Trails failure? related' x y := by
  intro r s a hr hs ha
  obtain ⟨hr', hs', hread⟩ := hxy r s a hr hs ha
  refine ⟨hr', hs', ?_⟩
  cases failure? with
  | none =>
    obtain ⟨b, hb, hab⟩ := hread
    exact ⟨b, hb, himp a b hab⟩
  | some f => exact hread

theorem expr (markup : String) :
    Trails (numericFailureOf? (Expr.parseStrict markup)) (fun _ _ => True)
      (Parsing.expr markup) (Parsing.expr markup) :=
  (Trails.markup (fun _ => Answers.expr markup)
    fun _ => Expr.ofGrammar_of_parseStrict .always).mono
      fun _ _ _ => trivial

/-- No markup is read as the condition of an `else` branch in either
mode, whatever tag it belongs to. -/
theorem condition (tag markup : String) :
    Trails (numericFailureOf? (Condition.parseStrict markup))
      (fun c d => c.isOtherwise = d.isOtherwise)
      (Parsing.condition tag markup) (Parsing.condition tag markup) := by
  refine (Trails.markup (fun _ => Answers.condition tag markup)
    fun _ => Condition.ofGrammar_of_parseStrict .always).mono ?_
  rintro c d ⟨hc, hd⟩
  have hd : Mode.warn.condition tag markup = .ok d := hd
  rw [Condition.parseLenient_isOtherwise hc, Mode.condition_isOtherwise hd]

end Trails

-- ============================================================== chunks

/-- Two steps of the reading that both go on, with the same blocks
open. -/
inductive Step.Alike : Step → Step → Prop
  | proceed {b b' : Builder} :
      b.opened = b'.opened → Alike (.proceed b) (.proceed b')

/-- A tag has a place where it is known or a block is open; elsewhere it
ends the body. -/
def Builder.Takes (tags : Registry) (b : Builder) : Chunk → Prop
  | .tag name _ => tags.tag? name = none → b.frames ≠ []
  | _ => True

/-- A chunk that lets a body go on has a place there. -/
theorem Proceeds.takes {tags : Registry} {b b' : Builder} {r r' : Reading}
    {c : Chunk} (h : Proceeds tags b r c b' r') : b.Takes tags c := by
  cases h with
  | text | output => trivial
  | leaf htag => exact fun hnone => nomatch hnone.symm.trans htag
  | opening htag => exact fun hnone => nomatch hnone.symm.trans htag
  | closing _ hb | elsif _ hb | otherwise _ hb =>
    rw [Builder.Takes, hb]
    exact fun _ => nofun

namespace Trails

variable {tags : Registry} {b b' : Builder}

/-- Where the same blocks are open and the next branch is the last one in
both or in neither, the same blocks stay open. -/
theorem opened_nextBranch {f f' : Frame} {outer outer' : List Frame}
    {c d : Condition} (hf : f.opener = f'.opener)
    (houter : outer.map Frame.opener = outer'.map Frame.opener)
    (hcd : c.isOtherwise = d.isOtherwise) :
    Builder.opened ⟨b.nodes, f.nextBranch c :: outer⟩ =
      Builder.opened ⟨b'.nodes, f'.nextBranch d :: outer'⟩ := by
  obtain ⟨hname, -⟩ := Opened.mk.inj hf
  have hopener : (f.nextBranch c).opener = (f'.nextBranch d).opener :=
    Opened.mk.injEq .. ▸ ⟨hname, hcd⟩
  exact List.cons_eq_cons.2 ⟨hopener, houter⟩

/-- A tag inside a block, where the same blocks are open. -/
theorem innerTag {f f' : Frame} {outer outer' : List Frame} {name : String}
    (hf : f.opener = f'.opener)
    (houter : outer.map Frame.opener = outer'.map Frame.opener)
    (htag : tags.tag? name = none) (markup : String) :
    Trails ((Chunk.tag name markup).numericFailure? tags)
      (fun c d => c.opened = d.opened)
      (Body.innerTag b f outer name markup)
      (Body.innerTag b' f' outer' name markup) := by
  obtain ⟨hname, hlast⟩ := Opened.mk.inj hf
  rw [Chunk.numericFailure?_of_none htag]
  generalize hfailure : (if name == elsifTag then
    numericFailureOf? (Condition.parseStrict markup) else none) = failure?
  simp only [Body.innerTag, ← hname, ← hlast]
  split
  · next hclose =>
    obtain rfl := beq_iff_eq.1 hclose
    rw [if_neg (by simpa using (closingTag_special f.name).2.1.symm)] at hfailure
    subst hfailure
    refine pure ?_
    rw [Builder.opened_push, Builder.opened_push]
    exact houter
  · split
    · next hbranch =>
      split
      · exact throw _ _
      · split
        · next helse =>
          obtain rfl := beq_iff_eq.1 helse
          obtain rfl : none = failure? := hfailure
          exact pure (opened_nextBranch hf houter rfl)
        · next helse =>
          obtain rfl : name = elsifTag := by simpa [helse] using hbranch
          rw [if_pos (beq_self_eq_true _)] at hfailure
          subst hfailure
          exact (condition f.name markup).map fun c d hcd =>
            opened_nextBranch hf houter hcd
    · split
      · exact throw _ _
      · exact throw _ _

/-- A chunk that has a place, where the same blocks are open. -/
theorem chunk {c : Chunk} (hb : b.opened = b'.opened)
    (hplace : b.Takes tags c) :
    Trails (c.numericFailure? tags) Step.Alike (Body.chunk tags b c)
      (Body.chunk tags b' c) := by
  have hpush (n n' : Node) :
      Step.Alike (.proceed (b.push n)) (.proceed (b'.push n')) := by
    refine .proceed ?_
    rw [Builder.opened_push, Builder.opened_push]
    exact hb
  cases c with
  | text s => exact pure (hpush _ _)
  | output markup => exact (expr markup).map fun e e' _ => hpush _ _
  | broken s => exact throw _ _
  | tag name markup =>
    simp only [Body.chunk, Body.tag]
    cases htag : tags.tag? name with
    | some kind =>
      simp only [Chunk.numericFailure?, htag]
      cases kind with
      | conditional negated =>
        refine (condition name markup).map fun c d hcd => .proceed ?_
        have hopener : (Frame.opened negated name markup c).opener =
            (Frame.opened negated name markup d).opener :=
          Opened.mk.injEq .. ▸ ⟨rfl, hcd⟩
        exact List.cons_eq_cons.2 ⟨hopener, hb⟩
      | leaf kind => exact pure (hpush _ _)
    | none =>
      have hframes := hplace htag
      obtain ⟨nodes, frames⟩ := b
      obtain ⟨nodes', frames'⟩ := b'
      cases frames with
      | nil => exact absurd rfl hframes
      | cons f outer =>
        cases frames' with
        | nil => cases hb
        | cons f' outer' =>
          obtain ⟨hf, houter⟩ := List.cons_eq_cons.1 hb
          exact (innerTag hf houter htag markup).map fun _ _ => .proceed

end Trails

end

-- =============================================================== bodies

/-- Chunks that the lenient mode reads to the end: the warning mode fails
with the first failure over a number that the strict grammar meets in them,
and without one reads them to the end as well. -/
theorem readFrom_trails {tags : Registry} {sources : List String}
    {b b' : Builder} (hb : b.opened = b'.opened) {r s : Reading}
    (hr : r.mode = .lax) (hs : s.mode = .warn)
    (h : (Body.readFrom tags sources b r).1.result = .ok none) :
    (Body.readFrom tags sources b' s).1.result =
      match sources.findSome? fun s =>
          (Chunk.ofString s).numericFailure? tags with
      | none => .ok none
      | some f => .error f := by
  induction sources generalizing b b' r s with
  | nil =>
    obtain ⟨nodes, frames⟩ := b
    obtain ⟨nodes', frames'⟩ := b'
    cases frames with
    | cons f outer => cases h
    | nil =>
      obtain rfl : frames' = [] := List.map_eq_nil_iff.1 hb.symm
      rfl
  | cons source rest ih =>
    rw [readFrom_cons] at h ⊢
    rcases hp : Body.chunk tags b (.ofString source) r with ⟨v, t⟩
    rw [hp] at h
    rcases v with f | b₁ | ⟨name, markup⟩
    · cases h
    · have hplace := (proceeds_of_chunk hp).takes
      have hrun := Trails.chunk hb hplace r s _ hr hs (by rw [hp])
      rw [hp] at hrun
      obtain ⟨ht, hu, hrun⟩ := hrun
      rcases hq : Body.chunk tags b' (.ofString source) s with ⟨w, u⟩
      rw [hq] at hu hrun
      rw [List.findSome?_cons]
      cases hfailure : (Chunk.ofString source).numericFailure? tags with
      | none =>
        rw [hfailure] at hrun
        obtain ⟨_, rfl, hstep⟩ := hrun
        cases hstep with
        | proceed hopened => exact ih hopened ht hu h
      | some f =>
        rw [hfailure] at hrun
        obtain rfl : w = .error f := hrun
        rfl
    · cases h

-- ============================================================ templates

namespace Template

/-- What the lenient mode accepts the warning mode accepts, unless the
strict grammar fails over a number somewhere in the source; then the warning
mode fails with the first such failure. This takes a range, and so a
parenthesis, or an integer of too many digits. -/
theorem parse_warn_of_parse_lax (tags : Registry) (source : String)
    (journal journal' : Journal) {template : Template}
    (h : (parse tags .lax source journal).1 = .ok template) :
    match numericFailure? tags source with
    | none => ∃ t, (parse tags .warn source journal').1 = .ok t
    | some f =>
      (parse tags .warn source journal').1 = .error f ∧
        f.OfNumber ('(' ∈ source.toList)
          (Numeral.OverlongIn source.toList) := by
  obtain ⟨outcome, r', hlax, hdone, -⟩ := read_eq_ok h
  have hend : (Body.readFrom tags (Chunk.split source) (.ofNodes [])
      (Parsing.start .lax journal)).1.result = .ok none := by
    rw [hlax]
    exact hdone
  have hwarn : (Body.readFrom tags (Chunk.split source) (.ofNodes [])
      (Parsing.start .warn journal')).1.result =
        match numericFailure? tags source with
        | none => .ok none
        | some f => .error f :=
    readFrom_trails rfl rfl rfl hend
  have hread : (parse tags .warn source journal').1 = _ :=
    read_apply tags source (Parsing.start .warn journal')
  rcases hp : Body.readFrom tags (Chunk.split source) (.ofNodes [])
    (Parsing.start .warn journal') with ⟨warned, u⟩
  rw [hp] at hwarn hread
  cases hfailure : numericFailure? tags source with
  | none =>
    rw [hfailure] at hwarn
    dsimp only at hread hwarn
    rw [hwarn] at hread
    exact ⟨_, hread⟩
  | some f =>
    rw [hfailure] at hwarn
    dsimp only at hread hwarn
    rw [hwarn] at hread
    exact ⟨hread, ofNumber_of_numericFailure? hfailure⟩

/-- Conditions without a right side and an output of two names are
forgiven, as no number is in their way. -/
theorem parse_warn_of_parse_lax_forgiven :
    ∃ t, (parse .standard .warn
      "{% if a == %}{{ b c }}{% elsif (1..2) == %}{% endif %}"
      (.fresh false)).1 = .ok t := by
  have hlax : (match (parse .standard .lax
      "{% if a == %}{{ b c }}{% elsif (1..2) == %}{% endif %}"
      (.fresh false)).1 with
    | .ok _ => true
    | .error _ => false) = true := by decide +kernel
  have hfailure : numericFailure? .standard
      "{% if a == %}{{ b c }}{% elsif (1..2) == %}{% endif %}" = none := by
    decide +kernel
  split at hlax
  · next t ht =>
    have hwarn := parse_warn_of_parse_lax .standard _ _ (.fresh false) ht
    rw [hfailure] at hwarn
    exact hwarn
  · cases hlax

/-- The warning mode does not accept all that the lenient mode accepts.
Leniently this output is a path, of which the words count. Strictly it
starts with a range, and a truth value is no bound of it. -/
theorem not_parse_warn_of_parse_lax :
    ¬∀ (tags : Registry) (source : String) (journal : Journal),
      (∃ t, (parse tags .lax source journal).1 = .ok t) →
      ∃ t, (parse tags .warn source journal).1 = .ok t := by
  intro hclaim
  have hlax : (match
      (parse .standard .lax "{{ (true..1) x }}" (.fresh false)).1 with
    | .ok _ => true
    | .error _ => false) = true := by decide +kernel
  have hwarn : (match
      (parse .standard .warn "{{ (true..1) x }}" (.fresh false)).1 with
    | .ok _ => false
    | .error f => decide (f = .notAnInteger "True")) = true := by
    decide +kernel
  split at hlax
  · next t ht =>
    obtain ⟨t', ht'⟩ := hclaim _ _ _ ⟨t, ht⟩
    rw [ht'] at hwarn
    cases hwarn
  · cases hlax

end Template

end Stencil
