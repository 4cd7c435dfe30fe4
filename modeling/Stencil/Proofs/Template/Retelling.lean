/-
A tree told back as the chunks it was read from.

The nodes of a template keep everything that matters about its chunks:
the texts, the outputs with their markup and the operand read from it,
and for each block the tags of its branches with their conditions. Told
back in order, they are the `marks` of the tree.

The tree that reading builds is not the whole one. A block that writes
nothing but blanks loses the blank texts directly in it when it is
closed. So the marks are taken of whole trees, and `strip` is what
closing the blocks of a whole tree, from the inside out, makes of it.
A builder is whole in the same sense, and the steps of reading are proved
to be steps on whole builders that are stripped afterwards: each of them
adds exactly one mark.
-/
import Stencil.Proofs.Template.Nesting
import Stencil.Proofs.Template.Verdict

namespace Stencil

-- =============================================================== marks

/-- A piece of a template as its tree tells it: a text, an output, or a
tag with its condition, if it has one. -/
inductive Mark
  | text (text : String)
  | output (markup : String) (expr : Expr)
  | tag (name : String) (condition : Option Condition)

/-- The tag in front of a branch. The first branch of a block has the
opening tag, the others are told apart by their conditions. -/
def Mark.ofBranch (opening : Option String) (c : Condition) : Mark :=
  if c.isOtherwise then .tag (opening.getD elseTag) none
  else .tag (opening.getD elsifTag) (some c)

namespace Node

mutual

/-- What a node tells. -/
def marks : Node → List Mark
  | .text s => [.text s]
  | .output markup e => [.output markup e]
  | .leaf _ name _ => [.tag name none]
  | .conditional _ name _ branches =>
    branchMarks (some name) branches ++ [.tag (closingTag name) none]

/-- What nodes tell, one after another. -/
def allMarks : List Node → List Mark
  | [] => []
  | n :: rest => marks n ++ allMarks rest

/-- What branches tell, given the opening tag in front of them if there
is one. -/
def branchMarks : Option String → List Branch → List Mark
  | _, [] => []
  | opening, .mk c body :: rest =>
    Mark.ofBranch opening c :: allMarks body ++ branchMarks none rest

end

/-- Nodes in sequence tell their marks in sequence. -/
theorem allMarks_append (ns ms : List Node) :
    allMarks (ns ++ ms) = allMarks ns ++ allMarks ms := by
  induction ns with
  | nil => rfl
  | cons n ns ih =>
    simp only [List.cons_append, allMarks, ih, List.append_assoc]

/-- Another node in the last branch is told last. -/
theorem branchMarks_push (opening : Option String) (bs : List Branch)
    (c : Condition) (body : List Node) (n : Node) :
    branchMarks opening (bs ++ [.mk c (body ++ [n])]) =
      branchMarks opening (bs ++ [.mk c body]) ++ marks n := by
  induction bs generalizing opening with
  | nil => simp [branchMarks, allMarks, allMarks_append]
  | cons b bs ih =>
    obtain ⟨d, nodes⟩ := b
    simp only [List.cons_append, branchMarks, ih, List.append_assoc]

/-- An empty branch after another one tells its tag. -/
theorem branchMarks_next (opening : Option String) (bs : List Branch)
    (b : Branch) (c : Condition) :
    branchMarks opening (bs ++ [b] ++ [.mk c []]) =
      branchMarks opening (bs ++ [b]) ++ [Mark.ofBranch none c] := by
  induction bs generalizing opening with
  | nil =>
    obtain ⟨d, nodes⟩ := b
    simp [branchMarks, allMarks]
  | cons b' bs ih =>
    obtain ⟨d, nodes⟩ := b'
    show branchMarks opening (.mk d nodes :: (bs ++ [b] ++ [.mk c []])) =
      branchMarks opening (.mk d nodes :: (bs ++ [b])) ++ _
    rw [branchMarks, branchMarks, ih]
    simp only [List.cons_append, List.append_assoc]

-- =========================================================== stripping

/-- The branches of a block as closing it leaves them. -/
def tidied (branches : List Branch) : List Branch :=
  if allBranchesBlank branches then
    branches.map fun b => .mk b.condition (dropBlankTexts b.body)
  else branches

mutual

/-- A node with all blocks in it closed, the inner ones first: those that
are blank lose the blank texts directly in them. -/
def strip : Node → Node
  | .conditional negated name markup branches =>
    .conditional negated name markup (tidied (stripBranches branches))
  | .text s => .text s
  | .output markup e => .output markup e
  | .leaf tag name markup => .leaf tag name markup

/-- Nodes with all blocks in them closed. -/
def stripAll : List Node → List Node
  | [] => []
  | n :: rest => strip n :: stripAll rest

/-- Branches with all blocks in their bodies closed. -/
def stripBranches : List Branch → List Branch
  | [] => []
  | .mk c body :: rest => .mk c (stripAll body) :: stripBranches rest

end

theorem stripAll_eq_map (ns : List Node) : stripAll ns = ns.map strip := by
  induction ns with
  | nil => rfl
  | cons n ns ih => rw [stripAll, ih, List.map_cons]

end Node

/-- A branch with all blocks in its body closed. -/
def Branch.strip (b : Branch) : Branch :=
  .mk b.condition (b.body.map Node.strip)

theorem Node.stripBranches_eq_map (bs : List Branch) :
    stripBranches bs = bs.map Branch.strip := by
  induction bs with
  | nil => rfl
  | cons b bs ih =>
    obtain ⟨c, body⟩ := b
    rw [stripBranches, ih, stripAll_eq_map]
    rfl

-- ======================================================= whole builders

namespace Frame

/-- What an open block tells so far. -/
def marks (f : Frame) : List Mark :=
  Node.branchMarks (some f.name) f.allBranches

/-- An open block whose inner blocks have been closed. -/
def strip (f : Frame) : Frame :=
  { f with
    branches := f.branches.map Branch.strip
    nodes := f.nodes.map Node.strip }

/-- The node of a finished block, with all the texts in it. -/
def whole (f : Frame) : Node :=
  .conditional f.negated f.name f.markup f.allBranches

/-- What the tag grammar keeps of an open block. -/
def opener (f : Frame) : Opened := ⟨f.name, f.condition.isOtherwise⟩

/-- Closing the blocks inside first and then the block itself closes the
whole block. -/
theorem close_strip (f : Frame) : f.strip.close = f.whole.strip := by
  have hbranches : f.strip.allBranches = Node.stripBranches f.allBranches := by
    rw [Node.stripBranches_eq_map]
    simp [allBranches, strip, Branch.strip, Branch.condition, Branch.body]
  rw [whole, Node.strip, ← hbranches]
  rfl

/-- Another node in an open block is told last. -/
theorem marks_push (f : Frame) (n : Node) :
    { f with nodes := n :: f.nodes }.marks = f.marks ++ n.marks := by
  simp only [marks, allBranches, List.reverse_cons]
  exact Node.branchMarks_push ..

/-- The next branch of an open block tells its tag. -/
theorem marks_nextBranch (f : Frame) (c : Condition) :
    (f.nextBranch c).marks = f.marks ++ [Mark.ofBranch none c] := by
  simp only [marks, allBranches, nextBranch, List.reverse_cons,
    List.reverse_nil]
  exact Node.branchMarks_next ..

end Frame

namespace Builder

/-- What a builder tells: its nodes, and then the open blocks from the
outermost to the innermost. -/
def marks (b : Builder) : List Mark :=
  Node.allMarks b.nodes.reverse ++ b.frames.reverse.flatMap Frame.marks

/-- A builder whose finished blocks have been closed. -/
def strip (b : Builder) : Builder :=
  ⟨b.nodes.map Node.strip, b.frames.map Frame.strip⟩

/-- The open blocks of a builder, the innermost first. -/
def opened (b : Builder) : List Opened := b.frames.map Frame.opener

/-- Adding a node tells its marks. -/
theorem marks_push (b : Builder) (n : Node) :
    (b.push n).marks = b.marks ++ n.marks := by
  obtain ⟨nodes, frames⟩ := b
  cases frames with
  | nil => simp [push, marks, Node.allMarks_append, Node.allMarks]
  | cons f outer => simp [push, marks, Frame.marks_push]

/-- Adding a node leaves the open blocks as they are. -/
theorem opened_push (b : Builder) (n : Node) :
    (b.push n).opened = b.opened := by
  obtain ⟨nodes, frames⟩ := b
  cases frames <;> rfl

/-- A node can be stripped before it is added or after. -/
theorem strip_push (b : Builder) (n : Node) :
    (b.push n).strip = b.strip.push n.strip := by
  obtain ⟨nodes, frames⟩ := b
  cases frames <;> rfl

/-- An opened block tells its opening tag. -/
theorem marks_enter (b : Builder) (negated : Bool) (name markup : String)
    (c : Condition) :
    (b.enter (.opened negated name markup c)).marks =
      b.marks ++ [Mark.ofBranch (some name) c] := by
  simp [enter, marks, Frame.marks, Frame.allBranches, Frame.opened,
    Node.branchMarks, Node.allMarks]

/-- The next branch of the innermost block tells its tag. -/
theorem marks_next (nodes : List Node) (f : Frame) (outer : List Frame)
    (c : Condition) :
    Builder.marks ⟨nodes, f.nextBranch c :: outer⟩ =
      Builder.marks ⟨nodes, f :: outer⟩ ++ [Mark.ofBranch none c] := by
  simp [marks, Frame.marks_nextBranch]

/-- A branch can be stripped before the next one is read or after. -/
theorem strip_next (nodes : List Node) (f : Frame) (outer : List Frame)
    (c : Condition) :
    Builder.strip ⟨nodes, f.nextBranch c :: outer⟩ =
      ⟨nodes.map Node.strip,
        f.strip.nextBranch c :: outer.map Frame.strip⟩ := by
  simp [strip, Frame.strip, Frame.nextBranch, Branch.strip,
    Branch.condition, Branch.body]

/-- A block taken off the stack and added as a node tells its closing
tag. -/
theorem marks_close (nodes : List Node) (f : Frame) (outer : List Frame) :
    (Builder.push ⟨nodes, outer⟩ f.whole).marks =
      Builder.marks ⟨nodes, f :: outer⟩ ++
        [.tag (closingTag f.name) none] := by
  rw [marks_push]
  simp [marks, Frame.whole, Node.marks, Frame.marks]

end Builder

end Stencil
