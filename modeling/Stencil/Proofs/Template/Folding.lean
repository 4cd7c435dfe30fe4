/-
Reading as a fold, and bodies read inside blocks.

What a chunk does to a body being read is settled by the mode and the
registry: the journal and the warnings have no say. `Body.next?` is that
verdict, with nothing left of it where the reading ends, and a template
is read exactly when the fold of its chunks leaves no block open
(`Template.parse_iff_foldlM`).

A fold can be cut where a body starts and ends. Chunks that are well
nested never reach below the place where they start, so they do inside a
block what they do alone (`foldlM_within`): the nodes they come to are
put into the block, on top of those it has. The stack of open blocks
carries the induction, as a tag that finds no block of the body's own
would find the one around it.

Tags that a host has added stand alone, and what is refused wherever it
stands has no say in the nesting either. Both are like texts to the
grammar of well-nested chunks, which is how `Chunk.plain` shows them to
it.
-/
import Stencil.Proofs.Template.Recognition

namespace Stencil

-- ============================================================= verdicts

namespace Body

/-- The condition of the branch that a tag starts in a block. -/
def branch? (mode : Mode) (f : Frame) (name markup : String) :
    Option Condition :=
  if f.condition.isOtherwise then none
  else if name = elseTag then some .otherwise
  else if name = elsifTag then (mode.condition f.name markup).toOption
  else none

/-- What a tag that is not known makes of a body inside a block, if that
goes on. -/
def inner? (mode : Mode) (nodes : List Node) (f : Frame)
    (outer : List Frame) (name markup : String) : Option Builder :=
  if name = closingTag f.name then some (Builder.push ⟨nodes, outer⟩ f.close)
  else
    (branch? mode f name markup).map fun c =>
      ⟨nodes, f.nextBranch c :: outer⟩

/-- What a tag makes of a body being read, if that goes on. -/
def tag? (tags : Registry) (mode : Mode) (b : Builder)
    (name markup : String) : Option Builder :=
  match tags.tag? name with
  | some (.conditional negated) =>
    (mode.condition name markup).toOption.map fun c =>
      b.enter (.opened negated name markup c)
  | some (.leaf kind) => some (b.push (.leaf kind name markup))
  | none =>
    match b.frames with
    | [] => none
    | f :: outer => inner? mode b.nodes f outer name markup

/-- What a chunk makes of a body being read, if that goes on. -/
def next? (tags : Registry) (mode : Mode) (b : Builder) :
    Chunk → Option Builder
  | .text s => some (b.push (.text s))
  | .output markup =>
    (mode.expr markup).toOption.map fun e => b.push (.output markup e)
  | .tag name markup => tag? tags mode b name markup
  | .broken _ => none

end Body

section

variable {tags : Registry} {mode : Mode} {b : Builder}

/-- An action of reading says how the body goes on, or that it does not,
in every state of a mode. -/
def Says (mode : Mode) (x : Parsing Step) (next : Option Builder) : Prop :=
  ∃ v, Answers mode x v ∧
    ∀ b', v = .ok (.proceed b') ↔ next = some b'

/-- A body goes on. -/
theorem Says.proceed {x : Parsing Step} {b' : Builder}
    (h : Answers mode x (.ok (.proceed b'))) : Says mode x (some b') :=
  ⟨_, h, fun b'' => by simp⟩

/-- A body does not go on where the reading fails. -/
theorem Says.fail {x : Parsing Step} {e : Failure}
    (h : Answers mode x (.error e)) : Says mode x none :=
  ⟨_, h, fun _ => ⟨nofun, nofun⟩⟩

/-- A body goes on from what is read, if it can be read. -/
theorem Says.read {α : Type} {x : Parsing α} {v : Except Failure α}
    {f : α → Parsing Step} {g : α → Builder} (hx : Answers mode x v)
    (hf : ∀ a, Answers mode (f a) (.ok (.proceed (g a)))) :
    Says mode (x >>= f) (v.toOption.map g) := by
  cases v with
  | error e => exact .fail hx.bind_error
  | ok a => exact .proceed (hx.bind (hf a))

/-- Another condition is read in a block as its markup says. -/
theorem answers_elsif_error {f : Frame} {outer : List Frame}
    {markup : String} {e : Failure} (hlast : f.condition.isOtherwise = false)
    (hc : mode.condition f.name markup = .error e) :
    Answers mode (Body.innerTag b f outer elsifTag markup) (.error e) := by
  obtain ⟨-, hne, -⟩ := closingTag_special f.name
  unfold Body.innerTag
  rw [if_neg (by simpa using hne), if_pos (by decide),
    if_neg (by simp [hlast])]
  exact (hc ▸ Answers.condition f.name markup).bind_error

/-- A tag that starts no branch of a block has no condition there. -/
theorem Body.branch?_eq_none {f : Frame} {name markup : String}
    (h : ¬((name = elsifTag ∨ name = elseTag) ∧
      f.condition.isOtherwise = false)) :
    branch? mode f name markup = none := by
  unfold branch?
  cases hlast : f.condition.isOtherwise with
  | true => exact if_pos rfl
  | false =>
    rw [if_neg (by simp), if_neg fun helse => h ⟨Or.inr helse, hlast⟩,
      if_neg fun helsif => h ⟨Or.inl helsif, hlast⟩]

/-- A tag inside a block closes it, starts another branch of it, or ends
the reading. -/
theorem says_innerTag (f : Frame) (outer : List Frame)
    (name markup : String) :
    Says mode
      (do return .proceed (← Body.innerTag b f outer name markup))
      (Body.inner? mode b.nodes f outer name markup) := by
  unfold Body.inner?
  by_cases hclose : name = closingTag f.name
  · rw [if_pos hclose, hclose]
    exact .proceed ((answers_closing b f outer).bind (Answers.pure _))
  · rw [if_neg hclose]
    by_cases hbranch : (name = elsifTag ∨ name = elseTag) ∧
        f.condition.isOtherwise = false
    · obtain ⟨hname, hlast⟩ := hbranch
      unfold Body.branch?
      rw [if_neg (by simp [hlast])]
      rcases hname with rfl | rfl
      · rw [if_neg (by decide), if_pos rfl]
        cases hc : mode.condition f.name markup with
        | ok c =>
          exact .proceed
            ((answers_elsif b outer hlast hc).bind (Answers.pure _))
        | error e => exact .fail (answers_elsif_error hlast hc).bind_error
      · rw [if_pos rfl]
        exact .proceed ((answers_else b outer hlast).bind (Answers.pure _))
    · rw [Body.branch?_eq_none hbranch]
      obtain ⟨e, he⟩ : ∃ e, Answers mode
          (Body.innerTag b f outer name markup) (.error (.malformed e)) :=
        answers_refusal b outer hclose hbranch
      exact .fail he.bind_error

/-- A tag says what it does to a body. -/
theorem says_tag (tags : Registry) (mode : Mode) (b : Builder)
    (name markup : String) :
    Says mode (Body.tag tags b name markup)
      (Body.tag? tags mode b name markup) := by
  unfold Body.tag Body.tag?
  cases tags.tag? name with
  | some kind =>
    cases kind with
    | conditional negated =>
      exact .read (Answers.condition name markup) fun c => Answers.pure _
    | leaf kind => exact .proceed (Answers.pure _)
  | none =>
    cases b.frames with
    | nil => exact ⟨_, Answers.pure _, fun _ => ⟨nofun, nofun⟩⟩
    | cons f outer => exact says_innerTag f outer name markup

/-- A chunk says what it does to a body. -/
theorem says_chunk (tags : Registry) (mode : Mode) (b : Builder)
    (c : Chunk) :
    Says mode (Body.chunk tags b c) (Body.next? tags mode b c) := by
  cases c with
  | text s => exact .proceed (Answers.pure _)
  | output markup =>
    exact .read (Answers.expr markup) fun e => Answers.pure _
  | broken s => exact .fail (Answers.throw _)
  | tag name markup => exact says_tag tags mode b name markup

-- ============================================================= the fold

/-- Chunks are read to the end, to certain nodes, exactly when their fold
comes to these nodes with no block open. -/
theorem readFrom_iff_foldlM {sources : List String} {r : Reading}
    (hr : r.mode = mode) (ns : List Node) :
    ((Body.readFrom tags sources b r).1.result = .ok none ∧
      (Body.readFrom tags sources b r).1.nodes = ns) ↔
      (sources.map Chunk.ofString).foldlM (Body.next? tags mode) b =
        some ⟨ns.reverse, []⟩ := by
  induction sources generalizing b r with
  | nil =>
    obtain ⟨nodes, frames⟩ := b
    cases frames with
    | nil =>
      show ((Except.ok none : Except Failure (Option (String × String))) =
        .ok none ∧ nodes.reverse = ns) ↔ some _ = some _
      simp [List.reverse_eq_iff]
    | cons f outer =>
      show ((Except.error _ : Except Failure (Option (String × String))) =
        .ok none ∧ _) ↔ some _ = some _
      simp
  | cons s rest ih =>
    obtain ⟨v, hv, hnext⟩ := says_chunk tags mode b (.ofString s)
    obtain ⟨hverdict, hmode⟩ := hv r hr
    rw [readFrom_cons, List.map_cons, List.foldlM_cons]
    rcases hp : Body.chunk tags b (.ofString s) r with ⟨v', r'⟩
    rw [hp] at hverdict hmode
    obtain rfl : v' = v := hverdict
    cases hb : Body.next? tags mode b (.ofString s) with
    | some b' =>
      obtain rfl := (hnext b').2 hb
      exact ih hmode
    | none =>
      rcases v' with e | b' | ⟨name, markup⟩
      · simp
      · have hgoes := (hnext b').1 rfl
        cases hb.symm.trans hgoes
      · simp

/-- A source is read to a template of certain nodes exactly when the fold
of its chunks comes to them. -/
theorem Template.parse_iff_foldlM (tags : Registry) (mode : Mode)
    (source : String) (journal : Journal) (ns : List Node) :
    (∃ template, (parse tags mode source journal).1 = .ok template ∧
      template.nodes = ns) ↔
    ((Chunk.split source).map Chunk.ofString).foldlM
      (Body.next? tags mode) (.ofNodes []) = some ⟨ns.reverse, []⟩ := by
  let start := Parsing.start mode journal
  have hparse : (parse tags mode source journal).1 =
      ((read tags source) start).1 := rfl
  have hmode : start.mode = mode := rfl
  rw [← readFrom_iff_foldlM hmode ns, hparse, read_apply]
  rcases Body.readFrom tags (Chunk.split source) (.ofNodes []) start
    with ⟨⟨nodes, rest, result⟩, r'⟩
  rcases result with e | _ | ⟨name, markup⟩
  · simp
  · simp
  · simp

end

-- ========================================================= added tags

/-- A registry that knows no blocks but the conditional ones, and to which
the tags that close these and start their branches are not known. Other
tags may stand alone in it. -/
structure Registry.Hosts (tags : Registry) : Prop where
  opens : ∀ name, OpensBlock name → tags.tag? name = standard.tag? name
  alone : ∀ name negated, tags.tag? name = some (.conditional negated) →
    OpensBlock name
  branches : tags.tag? elsifTag = none ∧ tags.tag? elseTag = none
  closes : ∀ name, OpensBlock name → tags.tag? (closingTag name) = none

/-- The tags that are always known are such a registry. -/
theorem Registry.hosts_standard : Registry.standard.Hosts where
  opens _ _ := rfl
  alone name negated h := by
    rcases tag?_standard name with ⟨hopen, -⟩ | ⟨-, hnone⟩
    · exact hopen
    · cases hnone.symm.trans h
  branches := by decide
  closes name hname := by
    rcases hname with rfl | rfl
    · decide
    · decide

/-- A tag that is not known opens no block. -/
theorem Registry.Hosts.not_opensBlock {tags : Registry} (h : tags.Hosts)
    {name : String} (htag : tags.tag? name = none) : ¬OpensBlock name := by
  intro hopen
  have hnone := (h.opens name hopen).symm.trans htag
  rcases tag?_standard name with ⟨-, negated, hsome⟩ | ⟨hnot, -⟩
  · cases hnone.symm.trans hsome
  · exact hnot hopen

/-- Whether a tag that is not known has a meaning inside some block. -/
def isInner (name : String) : Bool :=
  isClosingName name || name == elsifTag || name == elseTag

/-- A tag that has a meaning inside no block is refused in all. -/
theorem Body.inner?_eq_none {mode : Mode} {nodes : List Node} {f : Frame}
    {outer : List Frame} {name markup : String}
    (h : isInner name = false) :
    inner? mode nodes f outer name markup = none := by
  simp only [isInner, Bool.or_eq_false_iff, beq_eq_false_iff_ne] at h
  obtain ⟨⟨hclosing, helsif⟩, helse⟩ := h
  have hclose : name ≠ closingTag f.name := by
    intro heq
    have hends : isClosingName (closingTag f.name) = true := by
      simp [isClosingName, closingTag]
    rw [← heq, hclosing] at hends
    cases hends
  rw [inner?, if_neg hclose, branch?_eq_none fun hbranch =>
    hbranch.1.elim helsif helse]
  rfl

/-- A chunk as the grammar of well-nested chunks sees it. A tag that stands
alone is no more than a text, nor is what is refused everywhere. -/
def Chunk.plain (tags : Registry) : Chunk → Chunk
  | .tag name markup =>
    match tags.tag? name with
    | some (.leaf _) => .text name
    | some (.conditional _) => .tag name markup
    | none => if isInner name then .tag name markup else .text name
  | .broken s => .text s
  | c => c

-- ======================================================= inside a block

/-- A body that is read inside a block of another one: its nodes are on
top of those of the block, its open blocks on top of it. -/
def Builder.within (b : Builder) (f : Frame) (outer : Builder) : Builder :=
  ⟨outer.nodes,
    b.frames ++ { f with nodes := b.nodes ++ f.nodes } :: outer.frames⟩

section

variable {tags : Registry} {mode : Mode} {b b' outer : Builder} {f : Frame}

/-- A node is added to the body inside the block. -/
theorem Builder.push_within (b : Builder) (n : Node) :
    (b.within f outer).push n = (b.push n).within f outer := by
  obtain ⟨nodes, frames⟩ := b
  cases frames <;> rfl

/-- The condition of a branch is the one of `else` if its tag is. -/
theorem Body.isOtherwise_of_branch? {g : Frame} {name markup : String}
    {c : Condition} (h : branch? mode g name markup = some c) :
    c.isOtherwise = (name == elseTag) := by
  unfold branch? at h
  split at h
  · cases h
  · split at h
    · next helse =>
      cases h
      rw [helse]
      rfl
    · next helse =>
      split at h
      · rw [beq_false_of_ne helse]
        cases hc : mode.condition g.name markup with
        | error e =>
          rw [hc] at h
          cases h
        | ok d =>
          rw [hc] at h
          cases h
          exact Mode.condition_isOtherwise hc
      · cases h

/-- What becomes of a body alone becomes of it inside a block, and leaves
the open blocks that the grammar says. -/
def StaysWithin (f : Frame) (outer : Builder)
    (next next' : Option Builder) (stack : List Opened) : Prop :=
  next' = next.map (fun b => b.within f outer) ∧
    ∀ b', next = some b' → b'.opened = stack

/-- Where the reading ends alone and inside, there is nothing to stay. -/
theorem staysWithin_none {stack : List Opened} :
    StaysWithin f outer none none stack :=
  ⟨rfl, nofun⟩

/-- A node that is added stays within its body. -/
theorem staysWithin_push (b : Builder) (n : Node) :
    StaysWithin f outer (some (b.push n))
      (some ((b.within f outer).push n)) b.opened := by
  refine ⟨congrArg some (Builder.push_within b n), fun b' hb' => ?_⟩
  cases hb'
  exact b.opened_push n

/-- A tag that finds a block of the body stays within the body. -/
theorem staysWithin_inner {nodes : List Node} {g : Frame}
    {inner : List Frame} {name markup : String} {stack : List Opened}
    (hname : ¬OpensBlock name)
    (h : follow (Builder.opened ⟨nodes, g :: inner⟩) (.tag name markup) =
      some stack) :
    StaysWithin f outer
      (Body.inner? mode nodes g inner name markup)
      (Body.inner? mode outer.nodes g
        (inner ++ { f with nodes := nodes ++ f.nodes } :: outer.frames)
        name markup) stack := by
  simp only [follow, if_neg hname, Builder.opened, List.map_cons,
    Frame.opener] at h
  unfold Body.inner?
  by_cases hclose : name = closingTag g.name
  · rw [if_pos hclose] at h
    cases h
    rw [if_pos hclose, if_pos hclose]
    exact staysWithin_push ⟨nodes, inner⟩ g.close
  · rw [if_neg hclose] at h
    rw [if_neg hclose, if_neg hclose]
    split at h
    · cases h
      cases hc : Body.branch? mode g name markup with
      | none => exact staysWithin_none
      | some c =>
        refine ⟨rfl, fun b' hb' => ?_⟩
        cases hb'
        simp [Builder.opened, Frame.opener, Frame.nextBranch,
          Body.isOtherwise_of_branch? hc]
    · cases h

/-- A chunk that has a place among the open blocks of a body stays within
the body. -/
theorem staysWithin_next? (htags : tags.Hosts) (mode : Mode) (f : Frame)
    (outer : Builder) {c : Chunk} {stack : List Opened}
    (h : follow b.opened (c.plain tags) = some stack) :
    StaysWithin f outer (Body.next? tags mode b c)
      (Body.next? tags mode (b.within f outer) c) stack := by
  cases c with
  | text s =>
    cases h
    exact staysWithin_push b _
  | output markup =>
    cases h
    dsimp only [Body.next?]
    cases mode.expr markup with
    | error e => exact staysWithin_none
    | ok e => exact staysWithin_push b _
  | broken s => exact staysWithin_none
  | tag name markup =>
    dsimp only [Chunk.plain] at h
    dsimp only [Body.next?]
    unfold Body.tag?
    cases htag : tags.tag? name with
    | some kind =>
      rw [htag] at h
      cases kind with
      | leaf kind =>
        cases h
        exact staysWithin_push b _
      | conditional negated =>
        rw [follow_opening (htags.alone name negated htag)] at h
        cases h
        cases hc : mode.condition name markup with
        | error e => exact staysWithin_none
        | ok c =>
          refine ⟨rfl, fun b' hb' => ?_⟩
          cases hb'
          simp [Builder.opened, Builder.enter, Frame.opener, Frame.opened,
            Mode.condition_isOtherwise hc]
    | none =>
      rw [htag] at h
      obtain ⟨nodes, frames⟩ := b
      cases hinner : isInner name with
      | true =>
        simp only [hinner, if_true] at h
        have hname := htags.not_opensBlock htag
        cases frames with
        | nil =>
          have hstuck : follow [] (.tag name markup) = none := if_neg hname
          cases hstuck.symm.trans h
        | cons g inner => exact staysWithin_inner hname h
      | false =>
        cases frames with
        | nil =>
          show StaysWithin f outer none
            (Body.inner? mode outer.nodes _ _ name markup) stack
          rw [Body.inner?_eq_none hinner]
          exact staysWithin_none
        | cons g inner =>
          show StaysWithin f outer
            (Body.inner? mode nodes g inner name markup)
            (Body.inner? mode outer.nodes g _ name markup) stack
          rw [Body.inner?_eq_none hinner, Body.inner?_eq_none hinner]
          exact staysWithin_none

/-- Chunks that have a place among the open blocks of a body stay within
the body. -/
theorem foldlM_within (htags : tags.Hosts) (mode : Mode) (f : Frame)
    (outer : Builder) {cs : List Chunk} {stack : List Opened}
    (h : (cs.map (Chunk.plain tags)).foldlM follow b.opened = some stack) :
    StaysWithin f outer (cs.foldlM (Body.next? tags mode) b)
      (cs.foldlM (Body.next? tags mode) (b.within f outer)) stack := by
  induction cs generalizing b with
  | nil =>
    cases h
    refine ⟨rfl, fun b' hb' => ?_⟩
    cases hb'
    rfl
  | cons c cs ih =>
    rw [List.map_cons, List.foldlM_cons] at h
    obtain ⟨middle, hc, hcs⟩ := Option.bind_eq_some_iff.1 h
    obtain ⟨hnext, hopened⟩ :=
      staysWithin_next? htags mode f outer hc
    rw [List.foldlM_cons, List.foldlM_cons, hnext]
    cases hb : Body.next? tags mode b c with
    | none => exact ⟨rfl, nofun⟩
    | some b' =>
      rw [← hopened b' hb] at hcs
      exact ih hcs

/-- A well-nested body that is read inside a block adds its nodes to the
block, and leaves it as open as it was. -/
theorem foldlM_body (htags : tags.Hosts) {cs : List Chunk}
    (h : Nested .body (cs.map (Chunk.plain tags))) (nodes : List Node)
    (f : Frame) (frames : List Frame) :
    cs.foldlM (Body.next? tags mode) ⟨nodes, f :: frames⟩ =
      (cs.foldlM (Body.next? tags mode) (.ofNodes [])).map fun b =>
        ⟨nodes, { f with nodes := b.nodes ++ f.nodes } :: frames⟩ := by
  have hrun := foldlM_follow_iff.2 h
  obtain ⟨hwithin, hopened⟩ :=
    foldlM_within (b := .ofNodes []) htags mode f ⟨nodes, frames⟩ hrun
  refine hwithin.trans ?_
  cases hb : cs.foldlM (Body.next? tags mode) (.ofNodes []) with
  | none => rfl
  | some b =>
    have hframes : b.frames = [] := List.map_eq_nil_iff.1 (hopened b hb)
    simp [Builder.within, hframes]

end

end Stencil
