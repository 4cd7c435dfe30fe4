/-
What blank blocks lose, and what all others keep.

A block that writes nothing but blanks loses the blank texts directly in
it when it is closed, and blocks are closed from the inside out: what
decides about a block has already changed. It makes no difference, as a
blank text weighs nothing in that decision (`allBlank_dropBlankTexts`), so
a block is blank after closing exactly if it was before anything in it was
(`isBlank_strip`).

The source is there in the whole tree, the one before any block is closed:
its marks in order are the chunks of the source, each text being the chunk
itself. The blocks of the tree that is read are those of the whole tree in
the same order, each of them stripped (`allBlocks_stripAll`), so a block
and the block it was can be set side by side, at any depth.
-/
import Stencil.Proofs.Conduct
import Stencil.Proofs.Template.Stretches
import Stencil.Template.Rendering

namespace Stencil

-- =============================================================== chunks

/-- What the chunk of a mark is: a text is the chunk itself, if it starts
like neither a tag nor an output; the others start like what they are. -/
inductive Told : String → Mark → Prop
  | text {s : String} (tag : ¬['{', '%'] <+: s.toList)
      (output : ¬['{', '{'] <+: s.toList) : Told s (.text s)
  | output {s markup : String} {e : Expr} (start : ['{', '{'] <+: s.toList)
      (meaning : Chunk.ofString s = .output markup) :
      Told s (.output markup e)
  | tag {s name markup : String} {condition : Option Condition}
      (start : ['{', '%'] <+: s.toList)
      (meaning : Chunk.ofString s = .tag name markup) :
      Told s (.tag name condition)

/-- Every mark that is left is told by its chunk. -/
theorem Leaves.told {tags : Registry} {r r' : Reading} {s : String}
    {mark : Mark} (h : Leaves tags r (.ofString s) mark r') :
    Told s mark := by
  rw [← String.ofList_toList (s := s)] at h ⊢
  generalize s.toList = cs at h ⊢
  by_cases htag : ['{', '%'] <+: cs
  · obtain ⟨rest, rfl⟩ := htag
    have hstart : ['{', '%'] <+:
        (String.ofList (['{', '%'] ++ rest)).toList := by
      rw [String.toList_ofList]
      exact List.prefix_append ..
    rcases Chunk.ofString_tag rest with ⟨name, markup, -, hchunk⟩ | ⟨t, hchunk⟩
    · change Chunk.ofString (String.ofList (['{', '%'] ++ rest)) = _ at hchunk
      rw [hchunk] at h
      cases h with
      | condition => exact .tag hstart hchunk
      | bare => exact .tag hstart hchunk
    · change Chunk.ofString (String.ofList (['{', '%'] ++ rest)) = _ at hchunk
      rw [hchunk] at h
      cases h
  · by_cases houtput : ['{', '{'] <+: cs
    · obtain ⟨rest, rfl⟩ := houtput
      have hchunk := Chunk.ofString_opened rest
      change Chunk.ofString (String.ofList (['{', '{'] ++ rest)) = _ at hchunk
      rw [hchunk] at h
      cases h
      refine .output ?_ hchunk
      rw [String.toList_ofList]
      exact List.prefix_append ..
    · rw [Chunk.ofString_other htag houtput] at h
      cases h
      refine .text ?_ ?_ <;> rwa [String.toList_ofList]

namespace Node

-- ====================================================== texts and blocks

mutual

/-- The texts in a node, at any depth. -/
def texts : Node → List String
  | .text s => [s]
  | .conditional _ _ _ branches => branchTexts branches
  | .output _ _ | .leaf _ _ _ => []

/-- The texts in nodes. -/
def allTexts : List Node → List String
  | [] => []
  | n :: rest => texts n ++ allTexts rest

/-- The texts in branches. -/
def branchTexts : List Branch → List String
  | [] => []
  | .mk _ body :: rest => allTexts body ++ branchTexts rest

end

mutual

/-- The blocks in a node, at any depth, the outer ones first. -/
def blocks : Node → List Node
  | .conditional negated name markup branches =>
    .conditional negated name markup branches :: branchBlocks branches
  | .text _ | .output _ _ | .leaf _ _ _ => []

/-- The blocks in nodes. -/
def allBlocks : List Node → List Node
  | [] => []
  | n :: rest => blocks n ++ allBlocks rest

/-- The blocks in branches. -/
def branchBlocks : List Branch → List Node
  | [] => []
  | .mk _ body :: rest => allBlocks body ++ branchBlocks rest

end

/-- The branches of a block. -/
def branches : Node → List Branch
  | .conditional _ _ _ branches => branches
  | .text _ | .output _ _ | .leaf _ _ _ => []

/-- The text of a node that is one. -/
def ownText? : Node → Option String
  | .text s => some s
  | .output _ _ | .leaf _ _ _ | .conditional _ _ _ _ => none

/-- The texts that stand directly in a body. -/
def ownTexts (body : List Node) : List String := body.filterMap ownText?

-- ============================================================= blankness

/-- Only texts are blank texts, and they are blank nodes. -/
theorem eq_text_of_isBlankText {n : Node} (h : n.isBlankText = true) :
    ∃ s, n = .text s ∧ n.isBlank = true := by
  cases n with
  | text s => exact ⟨s, rfl, h⟩
  | _ => cases h

/-- Blank texts do not count when a body is asked whether it is blank. -/
theorem allBlank_dropBlankTexts (ns : List Node) :
    allBlank (dropBlankTexts ns) = allBlank ns := by
  induction ns with
  | nil => rfl
  | cons n ns ih =>
    rw [dropBlankTexts, List.filter_cons, ← dropBlankTexts]
    cases hn : n.isBlankText with
    | true =>
      obtain ⟨s, rfl, hblank⟩ := eq_text_of_isBlankText hn
      simp [allBlank, hblank, ih]
    | false => simp [allBlank, ih]

theorem allBranchesBlank_dropBlankTexts (bs : List Branch) :
    allBranchesBlank
        (bs.map fun b => .mk b.condition (dropBlankTexts b.body)) =
      allBranchesBlank bs := by
  induction bs with
  | nil => rfl
  | cons b bs ih =>
    obtain ⟨c, body⟩ := b
    rw [List.map_cons, allBranchesBlank, allBranchesBlank, ih]
    exact congrArg (· && _) (allBlank_dropBlankTexts body)

/-- Closing a block does not make it blank, nor the other way round. -/
theorem allBranchesBlank_tidied (bs : List Branch) :
    allBranchesBlank (tidied bs) = allBranchesBlank bs := by
  unfold tidied
  split
  · exact allBranchesBlank_dropBlankTexts bs
  · rfl

mutual

/-- A node is blank whether the blocks in it have been closed or not. -/
theorem isBlank_strip : ∀ n : Node, n.strip.isBlank = n.isBlank
  | .text _ | .output _ _ | .leaf _ _ _ => rfl
  | .conditional _ _ _ branches => by
    rw [strip, isBlank, isBlank, allBranchesBlank_tidied,
      allBranchesBlank_stripBranches branches]

theorem allBlank_stripAll :
    ∀ ns : List Node, allBlank (stripAll ns) = allBlank ns
  | [] => rfl
  | n :: ns => by
    rw [stripAll, allBlank, allBlank, isBlank_strip n, allBlank_stripAll ns]

theorem allBranchesBlank_stripBranches :
    ∀ bs : List Branch, allBranchesBlank (stripBranches bs) =
      allBranchesBlank bs
  | [] => rfl
  | .mk _ body :: bs => by
    rw [stripBranches, allBranchesBlank, allBranchesBlank,
      allBlank_stripAll body, allBranchesBlank_stripBranches bs]

end

-- ================================================================ blocks

/-- No block is lost with the blank texts. -/
theorem allBlocks_dropBlankTexts (ns : List Node) :
    allBlocks (dropBlankTexts ns) = allBlocks ns := by
  induction ns with
  | nil => rfl
  | cons n ns ih =>
    rw [dropBlankTexts, List.filter_cons, ← dropBlankTexts]
    cases hn : n.isBlankText with
    | true =>
      obtain ⟨s, rfl, -⟩ := eq_text_of_isBlankText hn
      simp [allBlocks, blocks, ih]
    | false => simp [allBlocks, ih]

theorem branchBlocks_dropBlankTexts (bs : List Branch) :
    branchBlocks (bs.map fun b => .mk b.condition (dropBlankTexts b.body)) =
      branchBlocks bs := by
  induction bs with
  | nil => rfl
  | cons b bs ih =>
    obtain ⟨c, body⟩ := b
    rw [List.map_cons, branchBlocks, branchBlocks, ih]
    exact congrArg (· ++ _) (allBlocks_dropBlankTexts body)

theorem branchBlocks_tidied (bs : List Branch) :
    branchBlocks (tidied bs) = branchBlocks bs := by
  unfold tidied
  split
  · exact branchBlocks_dropBlankTexts bs
  · rfl

mutual

/-- The blocks of a stripped tree are the blocks of the tree, stripped. -/
theorem blocks_strip : ∀ n : Node, n.strip.blocks = n.blocks.map strip
  | .text _ | .output _ _ | .leaf _ _ _ => rfl
  | .conditional negated name markup branches => by
    rw [strip, blocks, blocks, List.map_cons, branchBlocks_tidied,
      branchBlocks_stripBranches branches, strip]

theorem allBlocks_stripAll :
    ∀ ns : List Node, allBlocks (stripAll ns) = (allBlocks ns).map strip
  | [] => rfl
  | n :: ns => by
    rw [stripAll, allBlocks, allBlocks, List.map_append, blocks_strip n,
      allBlocks_stripAll ns]

theorem branchBlocks_stripBranches :
    ∀ bs : List Branch, branchBlocks (stripBranches bs) =
      (branchBlocks bs).map strip
  | [] => rfl
  | .mk _ body :: bs => by
    rw [stripBranches, branchBlocks, branchBlocks, List.map_append,
      allBlocks_stripAll body, branchBlocks_stripBranches bs]

end

-- ============================================== what is left of the texts

mutual

/-- In a stripped block that is blank there is no text. -/
theorem texts_strip : ∀ {n : Node}, n.isBlank = true →
    n.isBlankText = false → n.strip.texts = []
  | .text _, hblank, htext => by
    cases hblank.symm.trans htext
  | .conditional _ _ _ branches, hblank, _ => by
    have hbranches : allBranchesBlank (stripBranches branches) = true :=
      (allBranchesBlank_stripBranches branches).trans hblank
    rw [strip, texts, tidied, if_pos hbranches]
    exact branchTexts_stripBranches hblank
  | .output _ _, _, _ | .leaf _ _ _, _, _ => rfl

theorem allTexts_stripAll : ∀ {ns : List Node}, allBlank ns = true →
    allTexts (dropBlankTexts (stripAll ns)) = []
  | [], _ => rfl
  | n :: ns, hblank => by
    obtain ⟨hn, hns⟩ := Bool.and_eq_true_iff.1 hblank
    rw [stripAll, dropBlankTexts, List.filter_cons, ← dropBlankTexts]
    cases htext : n.isBlankText with
    | true =>
      obtain ⟨s, rfl, -⟩ := eq_text_of_isBlankText htext
      rw [if_neg (by simpa [strip] using htext)]
      exact allTexts_stripAll hns
    | false =>
      have hstrip : n.strip.isBlankText = false := by
        cases n with
        | text s => exact htext
        | _ => rfl
      rw [if_pos (by simp [hstrip]), allTexts, texts_strip hn htext,
        allTexts_stripAll hns]
      rfl

theorem branchTexts_stripBranches : ∀ {bs : List Branch},
    allBranchesBlank bs = true →
    branchTexts ((stripBranches bs).map fun b =>
      .mk b.condition (dropBlankTexts b.body)) = []
  | [], _ => rfl
  | .mk _ body :: bs, hblank => by
    obtain ⟨hbody, hbs⟩ := Bool.and_eq_true_iff.1 hblank
    rw [stripBranches, List.map_cons, branchTexts,
      branchTexts_stripBranches hbs, List.append_nil]
    exact allTexts_stripAll hbody

end

/-- Closing the blocks in a body moves no text that stands directly in
it. -/
theorem ownTexts_map_strip (body : List Node) :
    ownTexts (body.map strip) = ownTexts body := by
  rw [ownTexts, List.filterMap_map]
  refine List.filterMap_congr fun n _ => ?_
  cases n <;> rfl

end Node

-- ============================================================= rendering

/-- An action on a page may do anything but write. -/
def Conduct.quiet : Conduct Page where
  holds _ := True
  later p q := q.pieces = p.pieces
  fails _ := True
  refl _ := rfl
  trans h h' := h'.trans h

namespace Rendering

/-- What is done to the world of a page writes nothing. -/
theorem quiet_ofEval {α : Type} (action : Eval α) (p : Page) :
    Behaves .quiet Anything (ofEval action) p := by
  intro _
  unfold ofEval
  rcases action p.world with ⟨f | a, w⟩
  · exact ⟨rfl, trivial, .error trivial⟩
  · exact ⟨rfl, trivial, .ok trivial⟩

variable {ctx : ContextId}

mutual

/-- A blank node without a text in it writes nothing, whichever branches
are taken. -/
theorem quiet_node : ∀ {n : Node}, n.isBlank = true → n.texts = [] →
    ∀ p, Behaves .quiet Anything (node ctx n) p
  | .leaf .silent _ _, _, _, _ => .pure trivial
  | .leaf .unsupported _ _, _, _, _ => .throw trivial
  | .conditional _ _ _ _, hblank, htexts, p => by
    rw [node]
    exact quiet_firstTaken hblank htexts p

theorem quiet_nodes : ∀ {ns : List Node}, Node.allBlank ns = true →
    Node.allTexts ns = [] → ∀ p, Behaves .quiet Anything (nodes ctx ns) p
  | [], _, _, _ => .pure trivial
  | _ :: _, hblank, htexts, p => by
    obtain ⟨hn, hns⟩ := Bool.and_eq_true_iff.1 hblank
    obtain ⟨htext, htexts⟩ := List.append_eq_nil_iff.1 htexts
    rw [nodes]
    exact .bind (quiet_node hn htext p) fun _ q _ _ =>
      quiet_nodes hns htexts q

theorem quiet_firstTaken {negated : Bool} {tag : String} :
    ∀ {index : Nat} {bs : List Branch}, Node.allBranchesBlank bs = true →
      Node.branchTexts bs = [] →
      ∀ p, Behaves .quiet Anything (firstTaken ctx negated tag index bs) p
  | _, [], _, _, _ => .pure trivial
  | index, .mk c body :: bs, hblank, htexts, p => by
    obtain ⟨hbody, hbs⟩ := Bool.and_eq_true_iff.1 hblank
    obtain ⟨htext, htexts⟩ := List.append_eq_nil_iff.1 htexts
    rw [firstTaken]
    refine .bind (quiet_ofEval _ p) fun holds q _ _ => ?_
    split
    · exact .bind (quiet_ofEval _ q) fun _ t _ _ =>
        quiet_nodes hbody htext t
    · exact quiet_firstTaken hbs htexts q

end

end Rendering

-- ============================================================= templates

/-- What has become of a block, with all its texts, when the template has
been read. It is blank if it was. Then there is no text in it at any depth,
and whether it is rendered to the end or fails, nothing is written. If it
is not blank, its branches have all the texts that stood in them. -/
structure Tidies (whole block : Node) : Prop where
  isBlank_eq : block.isBlank = whole.isBlank
  empty : block.isBlank = true → block.texts = [] ∧
    ∀ ctx page, (Rendering.node ctx block page).2.pieces = page.pieces
  full : block.isBlank = false →
    List.Forall₂ (fun branch branch' =>
        branch'.condition = branch.condition ∧
          Node.ownTexts branch'.body = Node.ownTexts branch.body)
      whole.branches block.branches

/-- Stripping tidies a block. -/
theorem Node.tidies_strip (negated : Bool) (name markup : String)
    (branches : List Branch) :
    Tidies (.conditional negated name markup branches)
      (Node.conditional negated name markup branches).strip := by
  refine ⟨isBlank_strip _, fun hblank => ?_, fun hblank => ?_⟩
  · have htexts := texts_strip ((isBlank_strip _).symm.trans hblank) rfl
    exact ⟨htexts, fun ctx page =>
      (Rendering.quiet_node hblank htexts page trivial).1⟩
  · have hbranches : allBranchesBlank (stripBranches branches) = false := by
      rw [allBranchesBlank_stripBranches]
      exact (isBlank_strip _).symm.trans hblank
    rw [strip, tidied, if_neg (by simp [hbranches]), stripBranches_eq_map]
    refine List.forall₂_map_right_iff.2 (List.forall₂_same.2 fun b _ => ?_)
    exact ⟨rfl, ownTexts_map_strip b.body⟩

mutual

/-- The blocks of a node are conditional ones. -/
theorem Node.exists_of_mem_blocks : ∀ {n block : Node}, block ∈ n.blocks →
    ∃ negated name markup branches,
      block = .conditional negated name markup branches
  | .conditional _ _ _ _, _, h => by
    rcases List.mem_cons.1 h with rfl | h
    · exact ⟨_, _, _, _, rfl⟩
    · exact Node.exists_of_mem_branchBlocks h

theorem Node.exists_of_mem_allBlocks : ∀ {ns : List Node} {block : Node},
    block ∈ allBlocks ns → ∃ negated name markup branches,
      block = .conditional negated name markup branches
  | _ :: _, _, h => by
    rcases List.mem_append.1 h with h | h
    · exact Node.exists_of_mem_blocks h
    · exact Node.exists_of_mem_allBlocks h

theorem Node.exists_of_mem_branchBlocks : ∀ {bs : List Branch} {block : Node},
    block ∈ branchBlocks bs → ∃ negated name markup branches,
      block = .conditional negated name markup branches
  | .mk _ _ :: _, _, h => by
    rcases List.mem_append.1 h with h | h
    · exact Node.exists_of_mem_allBlocks h
    · exact Node.exists_of_mem_branchBlocks h

end

/-- In a template that is read, every block at any depth is tidied: the
chunks of the source are the marks of a whole tree, and the blocks of the
template are those of the whole tree, in the same order, with no text lost
but in blank ones, which write nothing. -/
theorem Template.parse_tidies_blocks (tags : Registry) (mode : Mode)
    (source : String) (journal : Journal) {template : Template}
    (h : (parse tags mode source journal).1 = .ok template) :
    ∃ nodes, template.nodes = Node.stripAll nodes ∧
      List.Forall₂ Told (Chunk.split source) (Node.allMarks nodes) ∧
      List.Forall₂ Tidies (Node.allBlocks nodes)
        (Node.allBlocks template.nodes) := by
  obtain ⟨outcome, r', hrun, hdone, rfl⟩ := read_eq_ok h
  obtain ⟨nodes, marks, hnodes, htold, hall⟩ :=
    readFrom_leaves (.ofNodes []) hrun hdone
  obtain rfl : Node.allMarks nodes = marks := htold
  refine ⟨nodes, hnodes,
    hall.forall₂.imp fun _ _ ⟨_, _, hleaves⟩ => hleaves.told, ?_⟩
  show List.Forall₂ Tidies _ (Node.allBlocks outcome.nodes)
  rw [hnodes, Node.allBlocks_stripAll]
  refine List.forall₂_map_right_iff.2 (List.forall₂_same.2 fun block hb => ?_)
  obtain ⟨negated, name, markup, branches, rfl⟩ :=
    Node.exists_of_mem_allBlocks hb
  exact Node.tidies_strip negated name markup branches

/-- The inner block has lost its line end and is still blank; the outer one
has kept its blanks. -/
theorem Template.parse_tidies_blocks_nested :
    ∃ template nodes,
      (parse .standard .lax
        "{% if a %} {% unless b %}\n{% endunless %}c{% endif %}"
        (.fresh false)).1 = .ok template ∧
      (Node.allBlocks template.nodes).map Node.isBlank = [false, true] ∧
      Node.allTexts template.nodes = [" ", "c"] ∧
      template.nodes = Node.stripAll nodes ∧
      List.Forall₂ Told
        (Chunk.split
          "{% if a %} {% unless b %}\n{% endunless %}c{% endif %}")
        (Node.allMarks nodes) ∧
      List.Forall₂ Tidies (Node.allBlocks nodes)
        (Node.allBlocks template.nodes) := by
  have hread : (match (parse .standard .lax
      "{% if a %} {% unless b %}\n{% endunless %}c{% endif %}"
      (.fresh false)).1 with
    | .ok t =>
      decide ((Node.allBlocks t.nodes).map Node.isBlank = [false, true] ∧
        Node.allTexts t.nodes = [" ", "c"])
    | .error _ => false) = true := by decide +kernel
  split at hread
  · next template h =>
    obtain ⟨hblank, htexts⟩ := of_decide_eq_true hread
    obtain ⟨nodes, hnodes, htold, hblocks⟩ :=
      parse_tidies_blocks .standard .lax _ (.fresh false) h
    exact ⟨template, nodes, h, hblank, htexts, hnodes, htold, hblocks⟩
  · cases hread

end Stencil
