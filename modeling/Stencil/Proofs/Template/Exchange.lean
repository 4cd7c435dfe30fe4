/-
A negated block is the block with its bodies exchanged.

The two blocks are read alike, part by part. Their chunks are an opening
tag with the same markup, which spells the same condition in both, the
chunks of the two bodies in either order, and two tags that are the same
but for the name of the block. Each body is read inside its block as it
would be alone (`foldlM_body`), so reading the block comes to the
condition and the nodes of the two bodies, if all three can be read
(`foldlM_block`). Closing takes blank texts off both bodies or off none,
whatever their order.

They are rendered alike as well. Both ask the condition first and only
once; an `else` branch has none. Whether it holds or not, the branch that
is taken has the same body in both blocks. It is the first branch in one
and the second in the other, but only the notes tell the difference.
-/
import Stencil.Proofs.Evaluation.Silence
import Stencil.Proofs.Template.Branching
import Stencil.Proofs.Template.Folding

namespace Stencil

-- ============================================================== sources

/-- What follows the opening of a tag, up to its end: a name, if there is
one, and the markup behind it. -/
theorem Chunk.nameAndMarkup?_closed (cs : List Char) :
    nameAndMarkup? (cs ++ ['%', '}']) =
      let inner := Text.trimLeft cs
      let name := inner.takeWhile Text.isWord
      if name.isEmpty then none
      else some (String.ofList name,
        String.ofList (Text.trim (inner.dropWhile Text.isWord))) := by
  have hclosed : ((cs ++ ['%', '}']).length ≥ 2 &&
      (cs ++ ['%', '}']).drop ((cs ++ ['%', '}']).length - 2) ==
        ['%', '}']) = true := by
    simp
  have hinner : dropLastTwo (cs ++ ['%', '}']) = cs := by
    simp [dropLastTwo]
  rw [nameAndMarkup?, if_pos hclosed, hinner]

/-- The tag that opens a block with a markup. -/
def openingTag (name markup : String) : String :=
  "\x7b% " ++ name ++ " " ++ markup ++ " %\x7d"

/-- The tag that closes a block. -/
def endTag (name : String) : String := "\x7b% " ++ closingTag name ++ " %\x7d"

/-- The source of a block with two branches. -/
def blockSource (name markup first second : String) : String :=
  openingTag name markup ++ first ++ "{% else %}" ++ second ++ endTag name

/-- The chunks of the block, if its bodies are cut like sources of their
own. -/
def blockChunks (name markup first second : String) : List String :=
  openingTag name markup :: Chunk.split first ++
    "{% else %}" :: Chunk.split second ++ [endTag name]

/-- The markup of an opening tag, as the tag has it. -/
def innerMarkup (markup : String) : String :=
  String.ofList (Text.trim (' ' :: (markup.toList ++ [' '])))

/-- An opening tag has its name and its markup, without the blanks around
it. -/
theorem ofString_openingTag {name : String} (hname : OpensBlock name)
    (markup : String) :
    Chunk.ofString (openingTag name markup) =
      .tag name (innerMarkup markup) := by
  have hlist : (openingTag name markup).toList =
      '{' :: '%' :: ((' ' :: (name.toList ++ ' ' ::
        (markup.toList ++ [' ']))) ++ ['%', '}']) := by
    simp [openingTag]
  have hinner : Chunk.nameAndMarkup? ((' ' :: (name.toList ++ ' ' ::
      (markup.toList ++ [' ']))) ++ ['%', '}']) =
        some (name, innerMarkup markup) := by
    rw [Chunk.nameAndMarkup?_closed]
    rcases hname with rfl | rfl
    · rfl
    · rfl
  simp only [Chunk.ofString, hlist, hinner]

/-- The tag that closes a block is its closing tag. -/
theorem ofString_endTag {name : String} (hname : OpensBlock name) :
    Chunk.ofString (endTag name) = .tag (closingTag name) "" := by
  rcases hname with rfl | rfl
  · decide +kernel
  · decide +kernel

theorem ofString_else : Chunk.ofString "{% else %}" = .tag elseTag "" := by
  decide +kernel

-- ============================================================== reading

section

variable {tags : Registry} {mode : Mode}

/-- The nodes of a body that is read alone. -/
def bodyNodes? (tags : Registry) (mode : Mode) (source : String) :
    Option (List Node) :=
  (((Chunk.split source).map Chunk.ofString).foldlM
    (Body.next? tags mode) (.ofNodes [])).map fun b => b.nodes.reverse

/-- A body that nests well for a registry. -/
def WellNested (tags : Registry) (source : String) : Prop :=
  Nested .body ((Chunk.split source).map fun s =>
    (Chunk.ofString s).plain tags)

/-- A block of two branches comes to its condition and the nodes of its
bodies, if all of them can be read. -/
theorem foldlM_block (htags : tags.Hosts) {name : String}
    (hname : OpensBlock name) {negated : Bool}
    (hkind : tags.tag? name = some (.conditional negated))
    (markup : String) {first second : String}
    (hfirst : WellNested tags first) (hsecond : WellNested tags second) :
    ((blockChunks name markup first second).map Chunk.ofString).foldlM
        (Body.next? tags mode) (.ofNodes []) =
      (mode.condition name (innerMarkup markup)).toOption.bind fun c =>
        (bodyNodes? tags mode first).bind fun ns =>
          (bodyNodes? tags mode second).map fun ms =>
            ⟨[.conditional negated name (innerMarkup markup)
              (Node.tidied [.mk c ns, .mk .otherwise ms])], []⟩ := by
  unfold WellNested at hfirst hsecond
  rw [← Function.comp_def (Chunk.plain tags), ← List.map_map] at hfirst hsecond
  have hopen : Body.next? tags mode (.ofNodes [])
      (.tag name (innerMarkup markup)) =
        (mode.condition name (innerMarkup markup)).toOption.map fun c =>
          ⟨[], [.opened negated name (innerMarkup markup) c]⟩ := by
    show Body.tag? tags mode (.ofNodes []) name (innerMarkup markup) = _
    rw [Body.tag?, hkind]
    rfl
  -- what the two tags behind the bodies make of the block
  have helse (c : Condition) (hc : c.isOtherwise = false)
      (ns : List Node) :
      Body.next? tags mode
          ⟨[], [⟨negated, name, innerMarkup markup, [], c, ns⟩]⟩
          (.tag elseTag "") =
        some ⟨[], [⟨negated, name, innerMarkup markup,
          [.mk c ns.reverse], .otherwise, []⟩]⟩ := by
    have hne : elseTag ≠ closingTag name := (closingTag_special name).2.2
    show Body.tag? tags mode _ elseTag "" = _
    rw [Body.tag?, htags.branches.2]
    simp only [Body.inner?, if_neg hne, Body.branch?, hc, Bool.false_eq_true,
      if_false, if_true, Option.map_some]
    rfl
  have hend (bs : List Branch) (c : Condition) (ns : List Node) :
      Body.next? tags mode
          ⟨[], [⟨negated, name, innerMarkup markup, bs, c, ns⟩]⟩
          (.tag (closingTag name) "") =
        some ⟨[.conditional negated name (innerMarkup markup)
          (Node.tidied (.mk c ns.reverse :: bs).reverse)], []⟩ := by
    show Body.tag? tags mode _ (closingTag name) "" = _
    rw [Body.tag?, htags.closes name hname]
    simp only [Body.inner?, if_true]
    rfl
  rw [blockChunks]
  simp only [List.map_cons, List.map_append, List.cons_append,
    List.append_assoc, List.foldlM_cons, List.foldlM_append,
    ofString_openingTag hname, ofString_else, ofString_endTag hname, hopen]
  cases hc : mode.condition name (innerMarkup markup) with
  | error e => rfl
  | ok c =>
    have hlast := Mode.condition_isOtherwise hc
    simp only [Except.toOption, Option.map_some, Option.bind_eq_bind,
      Option.bind_some, Frame.opened, foldlM_body htags hfirst, bodyNodes?]
    cases ((Chunk.split first).map Chunk.ofString).foldlM
      (Body.next? tags mode) (.ofNodes []) with
    | none => rfl
    | some b =>
      simp only [Option.map_some, Option.bind_some, List.append_nil,
        helse c hlast, foldlM_body htags hsecond]
      cases ((Chunk.split second).map Chunk.ofString).foldlM
        (Body.next? tags mode) (.ofNodes []) with
      | none => rfl
      | some b' =>
        simp only [Option.map_some, Option.bind_some, hend]
        rfl

end

-- ============================================================ rendering

/-- Closing a block of two branches does to both bodies the same, in either
order. -/
theorem Node.tidied_pair (c d c' d' : Condition) (ns ms : List Node) :
    ∃ drop : List Node → List Node,
      tidied [.mk c ns, .mk d ms] = [.mk c (drop ns), .mk d (drop ms)] ∧
      tidied [.mk c' ms, .mk d' ns] =
        [.mk c' (drop ms), .mk d' (drop ns)] := by
  have hcomm : allBranchesBlank [.mk c' ms, .mk d' ns] =
      allBranchesBlank [.mk c ns, .mk d ms] := by
    simp only [allBranchesBlank, Bool.and_true]
    exact Bool.and_comm _ _
  unfold tidied
  rw [hcomm]
  cases allBranchesBlank [.mk c ns, .mk d ms] with
  | true => exact ⟨dropBlankTexts, rfl, rfl⟩
  | false => exact ⟨id, rfl, rfl⟩

namespace Rendering

variable {ctx : ContextId} {p p' : Page}

/-- Runs that end alike, on pages with the same pieces and worlds that
differ in their journals at most. -/
abbrev AgreeSilent {α : Type} (p q : Except Failure α × Page) : Prop :=
  Agree (Above Hushed []) (fun _ => False) p q

/-- An `else` branch that is not the first one is taken at once. -/
theorem firstTaken_otherwise (negated : Bool) (tag : String)
    (index : Nat) (body : List Node) (later : List Branch) :
    firstTaken ctx negated tag (index + 1) (.mk .otherwise body :: later) =
      (do
        noteBranch tag (index + 1) .otherwise
        nodes ctx body) := by
  funext p
  obtain ⟨w, ps⟩ := p
  rw [firstTaken_cons, Eval.condition_otherwise rfl]
  simp only [isTaken_succ, if_true]

/-- Which branch is taken, and of which block, is only told. -/
theorem agree_taken (tag tag' : String) (index index' : Nat)
    (c c' : Condition) (body : List Node) (h : Above Hushed [] p p') :
    AgreeSilent ((noteBranch tag index c >>= fun _ => nodes ctx body) p)
      ((noteBranch tag' index' c' >>= fun _ => nodes ctx body) p') := by
  have hnote : AgreeSilent (noteBranch tag index c p)
      (noteBranch tag' index' c' p') :=
    Agree.alike ⟨⟨h.world.store, h.world.contexts, h.world.calls⟩, h.pieces⟩
  exact hnote.bind fun _ q q' hq => hushed_uniform.nodes ctx body q q' hq

/-- A negated block of two branches is written like the block that has
the bodies exchanged. -/
theorem agree_exchanged (ctx : ContextId) (tag tag' markup markup' : String)
    (c : Condition) (ns ms : List Node) (h : Above Hushed [] p p') :
    AgreeSilent
      (node ctx (.conditional true tag markup
        [.mk c ns, .mk .otherwise ms]) p)
      (node ctx (.conditional false tag' markup'
        [.mk c ms, .mk .otherwise ns]) p') := by
  rw [node, node, firstTaken, firstTaken_otherwise, firstTaken,
    firstTaken_otherwise]
  have hask : Parallel (Above Hushed []) (fun _ => False)
      (ofEval (Eval.condition ctx c)) :=
    Uniform.ofEval (hushed_uniform.condition ctx c)
  refine (hask p p' h).bind fun holds q q' hq => ?_
  cases holds with
  | true => exact agree_taken tag tag' 1 0 .otherwise c ms hq
  | false => exact agree_taken tag tag' 0 1 c .otherwise ns hq

end Rendering

namespace Eval

/-- The same context is new in both worlds. -/
theorem agree_newContext_hushed (environments : List Value) (strict : Bool)
    {w w' : World} (h : Hushed w w') :
    AgreeHushed (newContext none environments strict w)
      (newContext none environments strict w') := by
  obtain ⟨store, contexts, calls, journal⟩ := w
  obtain ⟨store', contexts', calls', journal'⟩ := w'
  obtain rfl : store = store' := h.store
  obtain rfl : contexts = contexts' := h.contexts
  obtain rfl : calls = calls' := h.calls
  exact Agree.alike ⟨rfl, rfl, rfl⟩

/-- Templates of one node each, which are written alike, are rendered
alike. -/
theorem agree_render {t t' : Template} {n n' : Node} (ht : t.nodes = [n])
    (ht' : t'.nodes = [n'])
    (hn : ∀ ctx p p', Above Hushed [] p p' → Rendering.AgreeSilent
      (Rendering.node ctx n p) (Rendering.node ctx n' p'))
    (assigns : Option Value) (environments : List Value) (strict : Bool)
    {w w' : World} (h : Hushed w w') :
    AgreeHushed (render assigns environments strict t w)
      (render assigns environments strict t' w') := by
  refine (agree_newContext_hushed _ strict h).bind fun ctx u u' hu => ?_
  have hpieces : AgreeHushed (pieces ctx t.nodes u)
      (pieces ctx t'.nodes u') := by
    rw [ht, ht']
    refine Uniform.agree_pieces ?_
    exact (hn ctx ⟨u, []⟩ ⟨u', []⟩ ⟨hu, rfl⟩).bind fun _ q q' hq =>
      Agree.alike hq
  refine hpieces.bind fun ps v v' hv => ?_
  exact (agree_note _ _ hv).bind fun _ x x' hx => Agree.alike hx

end Eval

-- ============================================================ templates

namespace Template

section

variable {tags : Registry} {name markup first second : String}
  {negated : Bool}

/-- What a source of a block of two branches is read to. -/
theorem parse_block_iff (htags : tags.Hosts) (mode : Mode)
    (hname : OpensBlock name)
    (hkind : tags.tag? name = some (.conditional negated))
    (hfirst : WellNested tags first) (hsecond : WellNested tags second)
    (hsplit : Chunk.split (blockSource name markup first second) =
      blockChunks name markup first second) (journal : Journal)
    (result : List Node) :
    (∃ t, (parse tags mode (blockSource name markup first second)
        journal).1 = .ok t ∧ t.nodes = result) ↔
      ∃ c ns ms, mode.condition name (innerMarkup markup) = .ok c ∧
        bodyNodes? tags mode first = some ns ∧
        bodyNodes? tags mode second = some ms ∧
        result = [.conditional negated name (innerMarkup markup)
          (Node.tidied [.mk c ns, .mk .otherwise ms])] := by
  rw [parse_iff_foldlM, hsplit,
    foldlM_block htags hname hkind markup hfirst hsecond]
  cases mode.condition name (innerMarkup markup) with
  | error e => simp [Except.toOption]
  | ok c =>
    cases bodyNodes? tags mode first with
    | none => simp [Except.toOption]
    | some ns =>
      cases bodyNodes? tags mode second with
      | none => simp [Except.toOption]
      | some ms =>
        simp only [Except.toOption, Option.bind_some, Option.map_some,
          Option.some.injEq, Builder.mk.injEq, and_true, Except.ok.injEq]
        rw [eq_comm, List.reverse_eq_iff]
        constructor
        · exact fun h => ⟨c, ns, ms, rfl, rfl, rfl, h⟩
        · rintro ⟨_, _, _, rfl, rfl, rfl, h⟩
          exact h

end

/-- A block of `unless` and `else` is the block of `if` and `else` with
the bodies exchanged. For every markup and all well-nested bodies that the
sources are cut around, in every mode, one is read if and only if the
other is. Each is then a single node, and one is blank if and only if the
other is. And from worlds that differ in nothing but what has been told,
on all data and with all options, both are rendered to the same text or
fail alike, and leave such worlds behind: with the same objects and the
same counts of calls. -/
theorem parse_unless_exchanges_if (tags : Registry) (htags : tags.Hosts)
    (mode : Mode) (markup first second : String)
    (hfirst : WellNested tags first) (hsecond : WellNested tags second)
    (hunless : Chunk.split (blockSource "unless" markup first second) =
      blockChunks "unless" markup first second)
    (hif : Chunk.split (blockSource "if" markup second first) =
      blockChunks "if" markup second first) (journal journal' : Journal) :
    let parsed := (parse tags mode
      (blockSource "unless" markup first second) journal).1
    let parsed' := (parse tags mode
      (blockSource "if" markup second first) journal').1
    ((∃ t, parsed = .ok t) ↔ ∃ t', parsed' = .ok t') ∧
    ∀ t t', parsed = .ok t → parsed' = .ok t' →
      ∃ block block', t.nodes = [block] ∧ t'.nodes = [block'] ∧
        block.isBlank = block'.isBlank ∧
        ∀ assigns environments strict w w', Hushed w w' →
          let r := (Eval.render assigns environments strict t).run w
          let r' := (Eval.render assigns environments strict t').run w'
          r.1 = r'.1 ∧ Hushed r.2 r'.2 := by
  intro parsed parsed'
  have hread := parse_block_iff htags mode (Or.inr rfl)
    (htags.opens "unless" (Or.inr rfl)) hfirst hsecond hunless journal
  have hread' := parse_block_iff htags mode (Or.inl rfl)
    (htags.opens "if" (Or.inl rfl)) hsecond hfirst hif journal'
  refine ⟨⟨?_, ?_⟩, ?_⟩
  · rintro ⟨t, ht⟩
    obtain ⟨c, ns, ms, hc, hns, hms, -⟩ := (hread t.nodes).1 ⟨t, ht, rfl⟩
    obtain ⟨t', ht', -⟩ := (hread' _).2
      ⟨c, ms, ns, Mode.condition_tag "if" hc, hms, hns, rfl⟩
    exact ⟨t', ht'⟩
  · rintro ⟨t', ht'⟩
    obtain ⟨c, ms, ns, hc, hms, hns, -⟩ := (hread' t'.nodes).1 ⟨t', ht', rfl⟩
    obtain ⟨t, ht, -⟩ := (hread _).2
      ⟨c, ns, ms, Mode.condition_tag "unless" hc, hns, hms, rfl⟩
    exact ⟨t, ht⟩
  · intro t t' ht ht'
    obtain ⟨c, ns, ms, hc, hns, hms, hnodes⟩ := (hread t.nodes).1 ⟨t, ht, rfl⟩
    obtain ⟨c', ms', ns', hc', hms', hns', hnodes'⟩ :=
      (hread' t'.nodes).1 ⟨t', ht', rfl⟩
    obtain rfl : ns = ns' := by simpa [hns] using hns'
    obtain rfl : ms = ms' := by simpa [hms] using hms'
    obtain rfl : c = c' := by
      simpa [Mode.condition_tag "if" hc] using hc'
    obtain ⟨drop, hbranches, hbranches'⟩ :=
      Node.tidied_pair c .otherwise c .otherwise ns ms
    refine ⟨_, _, hnodes, hnodes', ?_, ?_⟩
    · rw [Node.isBlank, Node.isBlank, Node.allBranchesBlank_tidied,
        Node.allBranchesBlank_tidied]
      simp only [Node.allBranchesBlank, Bool.and_true]
      exact Bool.and_comm _ _
    · intro assigns environments strict w w' h
      refine (Eval.agree_render hnodes hnodes' ?_ assigns environments
        strict h).eq
      intro ctx p p' hp
      rw [hbranches, hbranches']
      exact Rendering.agree_exchanged ctx "unless" "if" _ _ c _ _ hp

/-- Bodies of which one has a block with an `else` tag of its own. -/
theorem parse_unless_exchanges_if_nested :
    let first := "x{% if b %}{% else %}y{% endif %}"
    let second := " {{ c }}"
    ∃ t t', (parse .standard .strict
        (blockSource "unless" "a == 1" first second) (.fresh false)).1 =
          .ok t ∧
      (parse .standard .strict
        (blockSource "if" "a == 1" second first) (.fresh false)).1 =
          .ok t' ∧
      ∃ block block', t.nodes = [block] ∧ t'.nodes = [block'] ∧
        block.isBlank = block'.isBlank ∧
        ∀ assigns environments strict w w', Hushed w w' →
          let r := (Eval.render assigns environments strict t).run w
          let r' := (Eval.render assigns environments strict t').run w'
          r.1 = r'.1 ∧ Hushed r.2 r'.2 := by
  intro first second
  obtain ⟨hiff, hboth⟩ := parse_unless_exchanges_if .standard
    Registry.hosts_standard .strict "a == 1" first second
    (foldlM_follow_iff.1 (by decide +kernel))
    (foldlM_follow_iff.1 (by decide +kernel))
    (by decide +kernel) (by decide +kernel) (.fresh false) (.fresh false)
  obtain ⟨t, ht⟩ : ∃ t, (parse .standard .strict
      (blockSource "unless" "a == 1" first second) (.fresh false)).1 =
        .ok t := by
    decide +kernel
  obtain ⟨t', ht'⟩ := hiff.1 ⟨t, ht⟩
  exact ⟨t, t', ht, ht', hboth t t' ht ht'⟩

end Template

end Stencil
