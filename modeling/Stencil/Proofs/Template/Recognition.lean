/-
The template reader accepts the well-nested templates and loses nothing.

Reading goes from chunk to chunk with a builder, and two things are kept
in step with it: the stack of open blocks, which decides whether the
chunks are well nested, and a whole builder, whose marks are the chunks
read so far and which is the real one before stripping. One chunk either
advances all three, adding the one mark that tells it, or it has no place
among the open blocks and reading stops there with a refusal, at once or
because a tag is left that nothing outside takes.

What is assumed of the chunks is only that their markup can be read: a
refused condition or operand ends the reading wherever it stands, and
says nothing about the nesting.
-/
import Mathlib.Data.List.Forall2
import Stencil.Proofs.Template.Reading
import Stencil.Proofs.Template.Retelling

namespace Stencil

-- ======================================================= what is assumed

/-- The tags whose markup is a condition. -/
def TakesCondition (name : String) : Prop :=
  OpensBlock name ∨ name = elsifTag

instance (name : String) : Decidable (TakesCondition name) :=
  inferInstanceAs (Decidable (_ ∨ _))

/-- A mode can read the markup of a chunk, if it has one to be read. -/
def Mode.Accepts (mode : Mode) : Chunk → Prop
  | .output markup => ∃ e, mode.expr markup = .ok e
  | .tag name markup =>
    TakesCondition name → ∃ c, mode.condition name markup = .ok c
  | _ => True

instance {α : Type} (x : Except Failure α) : Decidable (∃ a, x = .ok a) :=
  match x with
  | .ok a => isTrue ⟨a, rfl⟩
  | .error _ => isFalse fun ⟨_, h⟩ => nomatch h

instance (mode : Mode) : DecidablePred mode.Accepts
  | .output _ => inferInstanceAs (Decidable (∃ _, _))
  | .tag _ _ => inferInstanceAs (Decidable (_ → _))
  | .text _ | .broken _ => isTrue trivial

/-- What starts like an output ends like one. -/
def Chunk.Whole (s : String) : Prop :=
  ['{', '{'] <+: s.toList → ['}', '}'] <:+ s.toList.drop 2

instance (s : String) : Decidable (Chunk.Whole s) :=
  inferInstanceAs (Decidable (_ → _))

/-- A chunk is told by a mark: texts and outputs verbatim, tags by their
names, operands and conditions as the mode reads them from the markup of
the chunk. -/
inductive Tells (mode : Mode) : String → Mark → Prop
  | text {s : String} : Chunk.ofString s = .text s → Tells mode s (.text s)
  | output {markup : String} {e : Expr} : mode.expr markup = .ok e →
      Tells mode ("\x7b" ++ "\x7b" ++ markup ++ "\x7d" ++ "\x7d") (.output markup e)
  | condition {s name markup : String} {c : Condition} :
      Chunk.ofString s = .tag name markup →
      mode.condition name markup = .ok c →
      Tells mode s (.tag name (some c))
  | bare {s name markup : String} : Chunk.ofString s = .tag name markup →
      ¬TakesCondition name → Tells mode s (.tag name none)

/-- A text is the whole chunk. -/
theorem Chunk.ofString_text {s t : String} (h : Chunk.ofString s = .text t) :
    t = s := by
  unfold Chunk.ofString at h
  split at h
  · split at h <;> cases h
  · cases h
  · cases h
    rfl

/-- A complete output is its markup between the braces. -/
theorem Chunk.ofString_output {s markup : String} (hs : Chunk.Whole s)
    (h : Chunk.ofString s = .output markup) :
    s = "\x7b" ++ "\x7b" ++ markup ++ "\x7d" ++ "\x7d" := by
  unfold Chunk.ofString at h
  split at h
  · split at h <;> cases h
  · next cs hcs =>
    obtain ⟨inner, hcs'⟩ := hs (hcs ▸ ⟨cs, rfl⟩)
    rw [hcs] at hcs'
    obtain rfl : inner ++ ['}', '}'] = cs := hcs'
    cases h
    have hinner : Chunk.dropLastTwo (inner ++ ['}', '}']) = inner := by
      simp [Chunk.dropLastTwo]
    rw [hinner, ← String.toList_inj, hcs]
    simp
  · cases h

-- =============================================================== one tag

/-- A tag that opens a block is known, and no other one is. -/
theorem Registry.tag?_standard (name : String) :
    (OpensBlock name ∧
      ∃ negated, standard.tag? name = some (.conditional negated)) ∨
    (¬OpensBlock name ∧ standard.tag? name = none) := by
  by_cases hif : name = "if"
  · subst hif
    exact Or.inl ⟨Or.inl rfl, false, rfl⟩
  · by_cases hunless : name = "unless"
    · subst hunless
      exact Or.inl ⟨Or.inr rfl, true, rfl⟩
    · refine Or.inr ⟨fun h => h.elim hif hunless, ?_⟩
      simp [tag?, standard, List.lookup_cons, beq_false_of_ne hif,
        beq_false_of_ne hunless]

/-- A chunk advances a whole builder: the stack follows, the real builder
goes on to the stripped one, and the marks tell the chunk. -/
structure Advances (mode : Mode) (s : String) (b b' : Builder) : Prop where
  follow : follow b.opened (.ofString s) = some b'.opened
  answers : Answers mode (Body.chunk .standard b.strip (.ofString s))
    (.ok (.proceed b'.strip))
  tells : ∃ mark, b'.marks = b.marks ++ [mark] ∧ Tells mode s mark

/-- A chunk has no place in a builder: the stack does not follow, and the
reading stops. -/
structure Halts (mode : Mode) (s : String) (b : Builder) : Prop where
  follow : follow b.opened (.ofString s) = none
  answers : (∃ e, Answers mode (Body.chunk .standard b.strip (.ofString s))
      (.error (.malformed e))) ∨
    ∃ name markup, Answers mode (Body.chunk .standard b.strip (.ofString s))
      (.ok (.stop name markup))

section

variable {mode : Mode} {s name markup : String}

/-- An opening tag opens its block. -/
theorem advances_opening (b : Builder) (hs : Chunk.ofString s = .tag name markup)
    (hname : OpensBlock name) {c : Condition}
    (hc : mode.condition name markup = .ok c) :
    ∃ b', Advances mode s b b' := by
  rcases Registry.tag?_standard name with ⟨-, negated, htag⟩ | ⟨hnot, -⟩
  · have hbranch : Mark.ofBranch (some name) c = .tag name (some c) := by
      simp [Mark.ofBranch, Mode.condition_isOtherwise hc]
    refine ⟨b.enter (.opened negated name markup c), ?_, ?_, ?_⟩
    · rw [hs, follow_opening hname]
      simp [Builder.opened, Builder.enter, Frame.opener, Frame.opened,
        Mode.condition_isOtherwise hc]
    · rw [hs]
      show Answers mode (Body.tag .standard b.strip name markup) _
      unfold Body.tag
      rw [htag]
      exact (hc ▸ Answers.condition name markup).bind (Answers.pure _)
    · exact ⟨_, b.marks_enter negated name markup c,
        hbranch ▸ .condition hs hc⟩
  · exact absurd hname hnot

/-- Outside all blocks, reading stops at a tag that opens none. -/
theorem halts_outside (nodes : List Node)
    (hs : Chunk.ofString s = .tag name markup) (hname : ¬OpensBlock name) :
    Halts mode s ⟨nodes, []⟩ := by
  rcases Registry.tag?_standard name with ⟨h, -⟩ | ⟨-, htag⟩
  · exact absurd h hname
  · refine ⟨?_, Or.inr ⟨name, markup, ?_⟩⟩
    · rw [hs]
      exact if_neg hname
    · rw [hs]
      show Answers mode (Body.tag .standard _ name markup) _
      unfold Body.tag
      rw [htag]
      exact Answers.pure _

/-- Inside a block, a tag that opens none is read for the block. -/
theorem answers_inner {b : Builder} {f : Frame} {outer : List Frame}
    (hb : b.frames = f :: outer) (hs : Chunk.ofString s = .tag name markup)
    (hname : ¬OpensBlock name) {v : Except Failure Builder}
    (h : Answers mode (Body.innerTag b f outer name markup) v) :
    Answers mode (Body.chunk .standard b (.ofString s)) (v.map .proceed) := by
  rcases Registry.tag?_standard name with ⟨h, -⟩ | ⟨-, htag⟩
  · exact absurd h hname
  · rw [hs]
    show Answers mode (Body.tag .standard b name markup) _
    unfold Body.tag
    rw [htag, hb]
    cases v with
    | error e => exact h.bind_error
    | ok b' => exact h.bind (Answers.pure _)

/-- The tag named after a block closes it. -/
theorem answers_closing (b : Builder) (f : Frame) (outer : List Frame) :
    Answers mode (Body.innerTag b f outer (closingTag f.name) markup)
      (.ok (Builder.push { b with frames := outer } f.close)) := by
  unfold Body.innerTag
  rw [if_pos (beq_iff_eq.2 rfl)]
  exact Answers.pure _

/-- Before its `else` tag, a block goes on with another condition. -/
theorem answers_elsif (b : Builder) {f : Frame} (outer : List Frame)
    (hlast : f.condition.isOtherwise = false) {c : Condition}
    (hc : mode.condition f.name markup = .ok c) :
    Answers mode (Body.innerTag b f outer elsifTag markup)
      (.ok { b with frames := f.nextBranch c :: outer }) := by
  obtain ⟨-, hne, -⟩ := closingTag_special f.name
  unfold Body.innerTag
  rw [if_neg (by simpa using hne), if_pos (by decide),
    if_neg (by simp [hlast])]
  exact (hc ▸ Answers.condition f.name markup).bind (Answers.pure _)

/-- A block goes on with its `else` branch once. -/
theorem answers_else (b : Builder) {f : Frame} (outer : List Frame)
    (hlast : f.condition.isOtherwise = false) :
    Answers mode (Body.innerTag b f outer elseTag markup)
      (.ok { b with frames := f.nextBranch .otherwise :: outer }) := by
  obtain ⟨-, -, hne⟩ := closingTag_special f.name
  unfold Body.innerTag
  rw [if_neg (by simpa using hne), if_pos (by decide),
    if_neg (by simp [hlast])]
  exact (Answers.pure Condition.otherwise).bind (Answers.pure _)

/-- Any other tag that opens no block is refused inside one. -/
theorem answers_refusal (b : Builder) {f : Frame} (outer : List Frame)
    (hclose : name ≠ closingTag f.name)
    (hbranch : ¬((name = elsifTag ∨ name = elseTag) ∧
      f.condition.isOtherwise = false)) :
    ∃ e, Answers mode (Body.innerTag b f outer name markup)
      (.error (.malformed e)) := by
  unfold Body.innerTag
  rw [if_neg (by simpa using hclose)]
  by_cases hname : name = elsifTag ∨ name = elseTag
  · rw [if_pos (by simpa using hname)]
    cases hlast : f.condition.isOtherwise with
    | false => exact absurd ⟨hname, hlast⟩ hbranch
    | true => exact ⟨_, Answers.throw _⟩
  · rw [if_neg (by simpa using hname)]
    split
    · exact ⟨_, Answers.throw _⟩
    · exact ⟨_, Answers.throw _⟩

-- ============================================== one tag inside a block

/-- The closing tag of the innermost block advances the builder. -/
theorem advances_closing (nodes : List Node) (f : Frame) (outer : List Frame)
    (hs : Chunk.ofString s = .tag (closingTag f.name) markup) :
    ∃ b', Advances mode s ⟨nodes, f :: outer⟩ b' := by
  obtain ⟨hopen, helsif, -⟩ := closingTag_special f.name
  refine ⟨Builder.push ⟨nodes, outer⟩ f.whole, ?_, ?_, ?_⟩
  · rw [hs, Builder.opened_push]
    exact follow_closing
  · rw [Builder.strip_push, ← Frame.close_strip]
    exact answers_inner rfl hs hopen (answers_closing _ f.strip _)
  · refine ⟨_, Builder.marks_close nodes f outer, .bare hs ?_⟩
    rintro (h | h)
    · exact hopen h
    · exact helsif h.symm

/-- An `elsif` tag before the `else` tag advances the builder. -/
theorem advances_elsif (nodes : List Node) {f : Frame} (outer : List Frame)
    (hs : Chunk.ofString s = .tag elsifTag markup)
    (hlast : f.condition.isOtherwise = false) {c : Condition}
    (hc : mode.condition elsifTag markup = .ok c) :
    ∃ b', Advances mode s ⟨nodes, f :: outer⟩ b' := by
  have hisc := Mode.condition_isOtherwise hc
  refine ⟨⟨nodes, f.nextBranch c :: outer⟩, ?_, ?_, ?_⟩
  · simp only [hs, Builder.opened, List.map_cons, Frame.opener, hlast,
      Frame.nextBranch, hisc]
    exact follow_elsif
  · let b := Builder.strip ⟨nodes, f :: outer⟩
    rw [Builder.strip_next]
    exact answers_inner (b := b) rfl hs branchTag_special.1
      (answers_elsif b (f := f.strip) _ hlast (Mode.condition_tag _ hc))
  · refine ⟨_, Builder.marks_next nodes f outer c, ?_⟩
    have hmark : Mark.ofBranch none c = .tag elsifTag (some c) := by
      simp [Mark.ofBranch, hisc]
    exact hmark ▸ .condition hs hc

/-- The `else` tag of a block advances the builder. -/
theorem advances_else (nodes : List Node) {f : Frame} (outer : List Frame)
    (hs : Chunk.ofString s = .tag elseTag markup)
    (hlast : f.condition.isOtherwise = false) :
    ∃ b', Advances mode s ⟨nodes, f :: outer⟩ b' := by
  refine ⟨⟨nodes, f.nextBranch .otherwise :: outer⟩, ?_, ?_, ?_⟩
  · simp only [hs, Builder.opened, List.map_cons, Frame.opener, hlast]
    exact follow_else
  · let b := Builder.strip ⟨nodes, f :: outer⟩
    rw [Builder.strip_next]
    exact answers_inner (b := b) rfl hs branchTag_special.2
      (answers_else b (f := f.strip) _ hlast)
  · exact ⟨_, Builder.marks_next nodes f outer .otherwise,
      .bare hs (by decide)⟩

/-- Any tag inside a block that opens no block, ends none and starts no
branch halts the reading. -/
theorem halts_inside (nodes : List Node) {f : Frame} (outer : List Frame)
    (hs : Chunk.ofString s = .tag name markup) (hname : ¬OpensBlock name)
    (hclose : name ≠ closingTag f.name)
    (hbranch : ¬((name = elsifTag ∨ name = elseTag) ∧
      f.condition.isOtherwise = false)) :
    Halts mode s ⟨nodes, f :: outer⟩ := by
  refine ⟨?_, Or.inl ?_⟩
  · rw [hs]
    exact (if_neg hname).trans ((if_neg hclose).trans (if_neg hbranch))
  · let b := Builder.strip ⟨nodes, f :: outer⟩
    obtain ⟨e, he⟩ : ∃ e, Answers mode
        (Body.innerTag b f.strip (outer.map Frame.strip) name markup)
        (.error (.malformed e)) :=
      answers_refusal b _ hclose hbranch
    exact ⟨e, answers_inner rfl hs hname he⟩

-- =========================================================== one chunk

/-- A chunk whose markup can be read advances the builder, or it has no
place there. -/
theorem advances_or_halts (b : Builder) (hwhole : Chunk.Whole s)
    (haccept : mode.Accepts (.ofString s)) :
    (∃ b', Advances mode s b b') ∨ Halts mode s b := by
  cases hs : Chunk.ofString s with
  | text t =>
    obtain rfl := Chunk.ofString_text hs
    refine Or.inl ⟨b.push (.text t), ?_, ?_, ?_⟩
    · rw [hs, Builder.opened_push]
      rfl
    · rw [hs, Builder.strip_push]
      exact Answers.pure _
    · exact ⟨_, b.marks_push (.text t), .text hs⟩
  | output markup =>
    rw [hs] at haccept
    obtain ⟨e, he⟩ := haccept
    obtain rfl := Chunk.ofString_output hwhole hs
    refine Or.inl ⟨b.push (.output markup e), ?_, ?_, ?_⟩
    · rw [hs, Builder.opened_push]
      rfl
    · rw [hs, Builder.strip_push]
      exact (he ▸ Answers.expr markup).bind (Answers.pure _)
    · exact ⟨_, b.marks_push (.output markup e), .output he⟩
  | broken t =>
    refine Or.inr ⟨?_, Or.inl ⟨.unterminatedTag t, ?_⟩⟩
    · rw [hs]
      rfl
    · rw [hs]
      exact Answers.throw _
  | tag name markup =>
    rw [hs] at haccept
    by_cases hname : OpensBlock name
    · obtain ⟨c, hc⟩ := haccept (Or.inl hname)
      exact Or.inl (advances_opening b hs hname hc)
    · obtain ⟨nodes, frames⟩ := b
      cases frames with
      | nil => exact Or.inr (halts_outside nodes hs hname)
      | cons f outer =>
        by_cases hclose : name = closingTag f.name
        · subst hclose
          exact Or.inl (advances_closing nodes f outer hs)
        · by_cases hbranch : (name = elsifTag ∨ name = elseTag) ∧
            f.condition.isOtherwise = false
          · obtain ⟨hbranch, hlast⟩ := hbranch
            rcases hbranch with rfl | rfl
            · obtain ⟨c, hc⟩ := haccept (Or.inr rfl)
              exact Or.inl (advances_elsif nodes outer hs hlast hc)
            · exact Or.inl (advances_else nodes outer hs hlast)
          · exact Or.inr
              (halts_inside nodes outer hs hname hclose hbranch)

end

-- =========================================================== many chunks

/-- Reading that ended well: the nodes are those of a whole tree, which
tells what was told before and then the chunks. -/
def Complete (mode : Mode) (told : List Mark) (sources : List String)
    (outcome : Body.Outcome) : Prop :=
  outcome.result = .ok none ∧
    ∃ nodes marks, outcome.nodes = Node.stripAll nodes ∧
      Node.allMarks nodes = told ++ marks ∧
      List.Forall₂ (Tells mode) sources marks

/-- Reading that ended before the chunks did, or with a block open. -/
def Broken (outcome : Body.Outcome) : Prop :=
  (∃ e, outcome.result = .error (.malformed e)) ∨
    ∃ name markup, outcome.result = .ok (some (name, markup))

/-- Chunks are read completely when the stack runs empty over them, and
reading breaks off when it does not. -/
theorem readFrom_run {mode : Mode} {sources : List String}
    (hwhole : ∀ s ∈ sources, Chunk.Whole s)
    (haccept : ∀ s ∈ sources, mode.Accepts (.ofString s))
    (b : Builder) {r : Reading} (hr : r.mode = mode) :
    let outcome := (Body.readFrom .standard sources b.strip r).1
    ((sources.map Chunk.ofString).foldlM follow b.opened = some [] ∧
      Complete mode b.marks sources outcome) ∨
    ((sources.map Chunk.ofString).foldlM follow b.opened ≠ some [] ∧
      Broken outcome) := by
  induction sources generalizing b r with
  | nil =>
    obtain ⟨nodes, frames⟩ := b
    cases frames with
    | nil =>
      refine Or.inl ⟨rfl, rfl, nodes.reverse, [], ?_, ?_, .nil⟩
      · rw [Node.stripAll_eq_map, List.map_reverse]
        rfl
      · simp [Builder.marks]
    | cons f outer =>
      refine Or.inr ⟨fun h => ?_, Or.inl ⟨.unclosedBlock f.name, rfl⟩⟩
      cases h
  | cons s rest ih =>
    have hrest := List.forall_mem_cons.1 hwhole
    have hacc := List.forall_mem_cons.1 haccept
    rw [List.map_cons, List.foldlM_cons, readFrom_cons]
    rcases advances_or_halts b hrest.1 hacc.1 with ⟨b', hb⟩ | hb
    · obtain ⟨mark, hmarks, htells⟩ := hb.tells
      obtain ⟨hv, hm⟩ := hb.answers r hr
      rw [hb.follow]
      rcases hp : Body.chunk .standard b.strip (.ofString s) r with ⟨v, r'⟩
      rw [hp] at hv hm
      obtain rfl : v = .ok (.proceed b'.strip) := hv
      rcases ih hrest.2 hacc.2 b' hm with ⟨hrun, hres, hnodes⟩ | hbroken
      · obtain ⟨nodes, marks, hstrip, htold, hall⟩ := hnodes
        refine Or.inl ⟨hrun, hres, nodes, mark :: marks, hstrip, ?_,
          .cons htells hall⟩
        rw [htold, hmarks, List.append_assoc]
        rfl
      · exact Or.inr hbroken
    · refine Or.inr ⟨?_, ?_⟩
      · rw [hb.follow]
        intro h
        cases h
      · rcases hb.answers with ⟨e, he⟩ | ⟨name, markup, hstop⟩
        · obtain ⟨hv, -⟩ := he r hr
          rcases hp : Body.chunk .standard b.strip (.ofString s) r
            with ⟨v, r'⟩
          rw [hp] at hv
          obtain rfl : v = .error (.malformed e) := hv
          exact Or.inl ⟨e, rfl⟩
        · obtain ⟨hv, -⟩ := hstop r hr
          rcases hp : Body.chunk .standard b.strip (.ofString s) r
            with ⟨v, r'⟩
          rw [hp] at hv
          obtain rfl : v = .ok (.stop name markup) := hv
          exact Or.inr ⟨name, markup, rfl⟩

-- ========================================================= the template

/-- The reader accepts exactly the well-nested templates. If the chunks
of a source are well nested, the tree is that of a whole one whose marks
tell the chunks in order, each condition being the one read from the
markup of its own tag; the only chunks that the tree has lost are the
blank texts directly in blank blocks. If they are not, the template is
refused. -/
theorem Template.parse_wellNested (mode : Mode) (source : String)
    (journal : Journal)
    (hwhole : ∀ s ∈ Chunk.split source, Chunk.Whole s)
    (haccept : ∀ s ∈ Chunk.split source, mode.Accepts (.ofString s)) :
    let chunks := (Chunk.split source).map Chunk.ofString
    let parsed := (parse .standard mode source journal).1
    (Nested .body chunks →
      ∃ template nodes, parsed = .ok template ∧
        template.nodes = Node.stripAll nodes ∧
        List.Forall₂ (Tells mode) (Chunk.split source)
          (Node.allMarks nodes)) ∧
    (¬Nested .body chunks → ∃ e, parsed = .error (.malformed e)) := by
  intro chunks parsed
  let start := Parsing.start mode journal
  have hparsed : parsed = ((read .standard source) start).1 := rfl
  rw [hparsed, read_apply]
  rcases hp : Body.readFrom .standard (Chunk.split source) (.ofNodes []) start
    with ⟨outcome, r'⟩
  have hrun := readFrom_run hwhole haccept (.ofNodes []) (r := start) rfl
  rw [show Builder.strip (.ofNodes []) = .ofNodes [] from rfl, hp] at hrun
  dsimp only at hrun ⊢
  rcases hrun with ⟨hstack, hdone⟩ | ⟨hstack, hbroken⟩
  · have hnested : Nested .body chunks := foldlM_follow_iff.1 hstack
    obtain ⟨hres, nodes, marks, hnodes, hmarks, htells⟩ := hdone
    rw [hres]
    obtain rfl : Node.allMarks nodes = marks := hmarks
    exact ⟨fun _ => ⟨_, nodes, rfl, hnodes, htells⟩,
      fun hnot => absurd hnested hnot⟩
  · have hnot : ¬Nested .body chunks :=
      fun h => hstack (foldlM_follow_iff.2 h)
    refine ⟨fun h => absurd h hnot, fun _ => ?_⟩
    rcases hbroken with ⟨e, he⟩ | ⟨name, markup, hstop⟩
    · rw [he]
      exact ⟨e, rfl⟩
    · rw [hstop]
      exact ⟨_, rfl⟩

/-- A block with an output and an `else` branch is read and told back. -/
theorem Template.parse_wellNested_block :
    ∃ template nodes,
      (parse .standard .strict "{% if a %}x{{ b }}{% else %} {% endif %}"
        (.fresh false)).1 = .ok template ∧
      template.nodes = Node.stripAll nodes ∧
      List.Forall₂ (Tells .strict)
        ["{% if a %}", "x", "{{ b }}", "{% else %}", " ", "{% endif %}"]
        (Node.allMarks nodes) := by
  have hsplit : Chunk.split "{% if a %}x{{ b }}{% else %} {% endif %}" =
      ["{% if a %}", "x", "{{ b }}", "{% else %}", " ", "{% endif %}"] := by
    decide +kernel
  have hrun : ((Chunk.split "{% if a %}x{{ b }}{% else %} {% endif %}").map
      Chunk.ofString).foldlM follow [] = some [] := by
    decide +kernel
  have h := (parse_wellNested .strict _ (.fresh false)
    (by decide +kernel) (by decide +kernel)).1 (foldlM_follow_iff.1 hrun)
  rwa [hsplit] at h

end Stencil
