/-
The operands in the tree of a template.

What holds of every operand that is read from markup holds of the operands
in the tree: `Node.Meets` says so of a node, and of the tags that stand
alone in it, which come from the registry. Reading keeps this of the nodes
built so far and of the blocks that are open. In particular all that is in
the tree was spelled by the source (`Template.parse_spelled`).
-/
import Stencil.Proofs.Expr.Spelled
import Stencil.Proofs.Template.Cutting
import Stencil.Proofs.Template.Reading

namespace Stencil

-- =============================================================== nodes

namespace Node

mutual

/-- All operands in a node meet a condition, and all tags that stand alone
another one. -/
def Meets (P : Expr → Prop) (L : LeafTag → Prop) : Node → Prop
  | .text _ => True
  | .output _ e => P e
  | .leaf tag _ _ => L tag
  | .conditional _ _ _ branches => BranchesMeet P L branches

/-- All operands and tags in nodes meet the conditions. -/
def AllMeet (P : Expr → Prop) (L : LeafTag → Prop) : List Node → Prop
  | [] => True
  | n :: rest => Meets P L n ∧ AllMeet P L rest

/-- All operands and tags in branches meet the conditions. -/
def BranchesMeet (P : Expr → Prop) (L : LeafTag → Prop) :
    List Branch → Prop
  | [] => True
  | .mk c body :: rest =>
    c.Meets P ∧ AllMeet P L body ∧ BranchesMeet P L rest

end

variable {P : Expr → Prop} {L : LeafTag → Prop}

theorem allMeet_iff {ns : List Node} :
    AllMeet P L ns ↔ ∀ n ∈ ns, n.Meets P L := by
  induction ns with
  | nil => simp [AllMeet]
  | cons n ns ih => rw [AllMeet, ih, List.forall_mem_cons]

variable {P' : Expr → Prop} {L' : LeafTag → Prop}

mutual

theorem Meets.and :
    ∀ {n : Node}, n.Meets P L → n.Meets P' L →
      n.Meets (fun e => P e ∧ P' e) L
  | .text _, _, _ => True.intro
  | .output _ _, h, h' => ⟨h, h'⟩
  | .leaf _ _ _, h, _ => h
  | .conditional _ _ _ _, h, h' => BranchesMeet.and h h'

theorem AllMeet.and :
    ∀ {ns : List Node}, AllMeet P L ns → AllMeet P' L ns →
      AllMeet (fun e => P e ∧ P' e) L ns
  | [], _, _ => True.intro
  | _ :: _, ⟨hn, hrest⟩, ⟨hn', hrest'⟩ =>
    ⟨Meets.and hn hn', AllMeet.and hrest hrest'⟩

theorem BranchesMeet.and :
    ∀ {bs : List Branch}, BranchesMeet P L bs → BranchesMeet P' L bs →
      BranchesMeet (fun e => P e ∧ P' e) L bs
  | [], _, _ => True.intro
  | .mk _ _ :: _, ⟨hc, hbody, hrest⟩, ⟨hc', hbody', hrest'⟩ =>
    ⟨hc.and hc', AllMeet.and hbody hbody', BranchesMeet.and hrest hrest'⟩

end

mutual

theorem Meets.mono (hP : ∀ e, P e → P' e) (hL : ∀ tag, L tag → L' tag) :
    ∀ {n : Node}, n.Meets P L → n.Meets P' L'
  | .text _, _ => True.intro
  | .output _ e, h => hP e h
  | .leaf tag _ _, h => hL tag h
  | .conditional _ _ _ _, h => BranchesMeet.mono hP hL h

theorem AllMeet.mono (hP : ∀ e, P e → P' e) (hL : ∀ tag, L tag → L' tag) :
    ∀ {ns : List Node}, AllMeet P L ns → AllMeet P' L' ns
  | [], _ => True.intro
  | _ :: _, ⟨hn, hrest⟩ => ⟨Meets.mono hP hL hn, AllMeet.mono hP hL hrest⟩

theorem BranchesMeet.mono (hP : ∀ e, P e → P' e)
    (hL : ∀ tag, L tag → L' tag) :
    ∀ {bs : List Branch}, BranchesMeet P L bs → BranchesMeet P' L' bs
  | [], _ => True.intro
  | .mk _ _ :: _, ⟨hc, hbody, hrest⟩ =>
    ⟨hc.mono hP, AllMeet.mono hP hL hbody, BranchesMeet.mono hP hL hrest⟩

end

section

variable [DecidablePred P] [DecidablePred L]

instance (c : Condition) : Decidable (c.Meets P) :=
  inferInstanceAs (Decidable ((P c.head.left ∧ P c.head.right) ∧
    ∀ link ∈ c.tail, P link.2.left ∧ P link.2.right))

mutual

/-- Whether all operands and tags in a node meet conditions is found out
from one to the next. -/
def decidableMeets : ∀ n : Node, Decidable (n.Meets P L)
  | .text _ => .isTrue True.intro
  | .output _ e => inferInstanceAs (Decidable (P e))
  | .leaf tag _ _ => inferInstanceAs (Decidable (L tag))
  | .conditional _ _ _ branches => decidableBranchesMeet branches

def decidableAllMeet : ∀ ns : List Node, Decidable (AllMeet P L ns)
  | [] => .isTrue True.intro
  | n :: rest =>
    @instDecidableAnd _ _ (decidableMeets n) (decidableAllMeet rest)

def decidableBranchesMeet :
    ∀ bs : List Branch, Decidable (BranchesMeet P L bs)
  | [] => .isTrue True.intro
  | .mk c body :: rest =>
    @instDecidableAnd (c.Meets P) _ inferInstance
      (@instDecidableAnd _ _ (decidableAllMeet body)
        (decidableBranchesMeet rest))

end

instance (n : Node) : Decidable (n.Meets P L) := decidableMeets n

end

end Node

/-- All operands and tags in a branch meet the conditions. -/
def Branch.Meets (P : Expr → Prop) (L : LeafTag → Prop) (b : Branch) :
    Prop :=
  b.condition.Meets P ∧ ∀ n ∈ b.body, n.Meets P L

/-- All operands and tags in an open block meet the conditions. -/
structure Frame.Meets (P : Expr → Prop) (L : LeafTag → Prop) (f : Frame) :
    Prop where
  condition : f.condition.Meets P
  nodes : ∀ n ∈ f.nodes, n.Meets P L
  branches : ∀ b ∈ f.branches, b.Meets P L

/-- All operands and tags in a body being read meet the conditions. -/
structure Builder.Meets (P : Expr → Prop) (L : LeafTag → Prop)
    (b : Builder) : Prop where
  nodes : ∀ n ∈ b.nodes, n.Meets P L
  frames : ∀ f ∈ b.frames, f.Meets P L

section

variable {P : Expr → Prop} {L : LeafTag → Prop}

theorem Node.branchesMeet_iff {bs : List Branch} :
    BranchesMeet P L bs ↔ ∀ b ∈ bs, b.Meets P L := by
  induction bs with
  | nil => simp [BranchesMeet]
  | cons b bs ih =>
    obtain ⟨c, body⟩ := b
    rw [BranchesMeet, ih, allMeet_iff, List.forall_mem_cons, ← and_assoc]
    rfl

-- ============================================================= reading

theorem Frame.Meets.allBranches {f : Frame} (hf : f.Meets P L) :
    ∀ b ∈ f.allBranches, b.Meets P L := by
  intro b hb
  rw [Frame.allBranches, List.mem_reverse, List.mem_cons] at hb
  rcases hb with rfl | hb
  · exact ⟨hf.condition, fun n hn => hf.nodes n (List.mem_reverse.1 hn)⟩
  · exact hf.branches b hb

theorem Frame.Meets.nextBranch {f : Frame} (hf : f.Meets P L)
    {c : Condition} (hc : c.Meets P) : (f.nextBranch c).Meets P L := by
  refine ⟨hc, (fun n hn => by cases hn), fun b hb => ?_⟩
  refine hf.allBranches b ?_
  rw [Frame.allBranches, List.mem_reverse]
  exact hb

/-- Closing a block drops texts at most. -/
theorem Frame.Meets.close {f : Frame} (hf : f.Meets P L) :
    f.close.Meets P L := by
  refine Node.branchesMeet_iff.2 fun b hb => ?_
  split at hb
  · obtain ⟨b', hb', rfl⟩ := List.mem_map.1 hb
    obtain ⟨hcondition, hbody⟩ := hf.allBranches b' hb'
    exact ⟨hcondition, fun n hn => hbody n (List.mem_filter.1 hn).1⟩
  · exact hf.allBranches b hb

theorem Builder.Meets.push {b : Builder} (hb : b.Meets P L) {n : Node}
    (hn : n.Meets P L) : (b.push n).Meets P L := by
  obtain ⟨nodes, frames⟩ := b
  cases frames with
  | nil => exact ⟨List.forall_mem_cons.2 ⟨hn, hb.nodes⟩, hb.frames⟩
  | cons f outer =>
    obtain ⟨hf, houter⟩ := List.forall_mem_cons.1 hb.frames
    refine ⟨hb.nodes, List.forall_mem_cons.2 ⟨?_, houter⟩⟩
    exact ⟨hf.condition, List.forall_mem_cons.2 ⟨hn, hf.nodes⟩,
      hf.branches⟩

end

-- ============================================================= spelled

section

variable {ranges large : Prop} {L : LeafTag → Prop} {tags : Registry}

theorem Parsing.expr_spelled {markup : String} {r r' : Reading} {e : Expr}
    (hround : '(' ∈ markup.toList → ranges)
    (h : Parsing.expr markup r = (.ok e, r')) : e.Spelled ranges large := by
  obtain ⟨hverdict, -⟩ := Answers.expr markup r rfl
  rw [h] at hverdict
  exact Mode.expr_spelled hround hverdict.symm

theorem Parsing.condition_spelled {tag markup : String} {r r' : Reading}
    {c : Condition} (hround : '(' ∈ markup.toList → ranges)
    (h : Parsing.condition tag markup r = (.ok c, r')) :
    c.Spelled ranges large := by
  obtain ⟨hverdict, -⟩ := Answers.condition tag markup r rfl
  rw [h] at hverdict
  exact Mode.condition_spelled hround hverdict.symm

/-- A chunk puts into the body what its markup spells. -/
theorem Proceeds.spelled {b b' : Builder} {r r' : Reading} {c : Chunk}
    (h : Proceeds tags b r c b' r')
    (hleaf : ∀ name kind, tags.tag? name = some (.leaf kind) → L kind)
    (hround : ∀ markup, c.markup? = some markup →
      '(' ∈ markup.toList → ranges)
    (hb : b.Meets (Expr.Spelled ranges large) L) :
    b'.Meets (Expr.Spelled ranges large) L := by
  cases h with
  | text s => exact hb.push trivial
  | output he => exact hb.push (Parsing.expr_spelled (hround _ rfl) he)
  | leaf htag => exact hb.push (hleaf _ _ htag)
  | opening _ hc =>
    refine ⟨hb.nodes, List.forall_mem_cons.2 ⟨?_, hb.frames⟩⟩
    exact ⟨Parsing.condition_spelled (hround _ rfl) hc,
      (fun n hn => by cases hn), fun b hb => by cases hb⟩
  | @closing _ f outer _ hframes =>
    obtain ⟨hf, houter⟩ := List.forall_mem_cons.1 (hframes ▸ hb.frames)
    have hrest :
        Builder.Meets (Expr.Spelled ranges large) L ⟨b.nodes, outer⟩ :=
      ⟨hb.nodes, houter⟩
    exact hrest.push hf.close
  | elsif _ hframes hc =>
    obtain ⟨hf, houter⟩ := List.forall_mem_cons.1 (hframes ▸ hb.frames)
    exact ⟨hb.nodes, List.forall_mem_cons.2
      ⟨hf.nextBranch (Parsing.condition_spelled (hround _ rfl) hc), houter⟩⟩
  | otherwise _ hframes =>
    obtain ⟨hf, houter⟩ := List.forall_mem_cons.1 (hframes ▸ hb.frames)
    exact ⟨hb.nodes, List.forall_mem_cons.2
      ⟨hf.nextBranch Condition.otherwise_spelled, houter⟩⟩

/-- Chunks are read to nodes that they spell. -/
theorem readFrom_spelled {sources : List String}
    (hleaf : ∀ name kind, tags.tag? name = some (.leaf kind) → L kind)
    (hround : ∀ s ∈ sources, '(' ∈ s.toList → ranges) {b : Builder}
    {r : Reading} (hb : b.Meets (Expr.Spelled ranges large) L) :
    ∀ n ∈ (Body.readFrom tags sources b r).1.nodes,
      n.Meets (Expr.Spelled ranges large) L := by
  induction sources generalizing b r with
  | nil => exact fun n hn => hb.nodes n (List.mem_reverse.1 hn)
  | cons s rest ih =>
    obtain ⟨hs, hrest⟩ := List.forall_mem_cons.1 hround
    rw [readFrom_cons]
    rcases hp : Body.chunk tags b (.ofString s) r with ⟨_ | b' | _, r'⟩
    · exact fun n hn => hb.nodes n (List.mem_reverse.1 hn)
    · refine ih hrest ((proceeds_of_chunk hp).spelled hleaf ?_ hb)
      exact fun markup h hc => hs ((Chunk.infix_of_markup? h).subset hc)
    · exact fun n hn => hb.nodes n (List.mem_reverse.1 hn)

/-- A source spells the template that is read from it. -/
theorem Template.parse_spelled {mode : Mode} {source : String}
    {journal : Journal} {template : Template}
    (hleaf : ∀ name kind, tags.tag? name = some (.leaf kind) → L kind)
    (hround : '(' ∈ source.toList → ranges)
    (h : (parse tags mode source journal).1 = .ok template) :
    ∀ n ∈ template.nodes, n.Meets (Expr.Spelled ranges large) L := by
  obtain ⟨outcome, r', hread, -, rfl⟩ := read_eq_ok h
  have hstart : Builder.Meets (Expr.Spelled ranges large) L (.ofNodes []) :=
    ⟨(fun n hn => by cases hn), fun f hf => by cases hf⟩
  have hnodes : ∀ n ∈ (Body.readFrom tags (Chunk.split source)
      (.ofNodes []) (Parsing.start mode journal)).1.nodes,
        n.Meets (Expr.Spelled ranges large) L :=
    readFrom_spelled hleaf
      (fun s hs hc => hround ((Chunk.infix_of_mem_split hs).subset hc)) hstart
  rw [hread] at hnodes
  exact hnodes

end

end Stencil
