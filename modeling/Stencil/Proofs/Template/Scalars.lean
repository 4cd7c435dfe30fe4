/-
Templates refer to no object.

All constants in the tree of a template were spelled by its source, so
they are scalars (`Template.parse_scalar`).
-/
import Stencil.Proofs.Expr.Scalars
import Stencil.Proofs.Template.Operands

namespace Stencil

namespace Node

mutual

/-- All constants in a node are scalars. -/
def Scalar : Node → Prop
  | .output _ e => e.Scalar
  | .conditional _ _ _ branches => BranchesScalar branches
  | .text _ | .leaf _ _ _ => True

/-- All constants in nodes are scalars. -/
def AllScalar : List Node → Prop
  | [] => True
  | n :: rest => Scalar n ∧ AllScalar rest

/-- All constants in branches are scalars. -/
def BranchesScalar : List Branch → Prop
  | [] => True
  | .mk c body :: rest =>
    c.Scalar ∧ AllScalar body ∧ BranchesScalar rest

end

theorem allScalar_iff {ns : List Node} :
    AllScalar ns ↔ ∀ n ∈ ns, n.Scalar := by
  induction ns with
  | nil => simp [AllScalar]
  | cons n ns ih => rw [AllScalar, ih, List.forall_mem_cons]

variable {ranges large : Prop} {L : LeafTag → Prop}

mutual

theorem Meets.scalar :
    ∀ {n : Node}, n.Meets (Expr.Spelled ranges large) L → n.Scalar
  | .output _ _, h => Expr.Spelled.scalar h
  | .conditional _ _ _ _, h => BranchesMeet.scalar h
  | .text _, _ | .leaf _ _ _, _ => True.intro

theorem AllMeet.scalar :
    ∀ {ns : List Node},
      AllMeet (Expr.Spelled ranges large) L ns → AllScalar ns
  | [], _ => True.intro
  | _ :: _, ⟨hn, hrest⟩ => ⟨Meets.scalar hn, AllMeet.scalar hrest⟩

theorem BranchesMeet.scalar :
    ∀ {bs : List Branch},
      BranchesMeet (Expr.Spelled ranges large) L bs → BranchesScalar bs
  | [], _ => True.intro
  | .mk _ _ :: _, ⟨hc, hbody, hrest⟩ =>
    ⟨hc.scalar, AllMeet.scalar hbody, BranchesMeet.scalar hrest⟩

end

end Node

/-- No template refers to an object. -/
theorem Template.parse_scalar {tags : Registry} {mode : Mode}
    {source : String} {journal : Journal} {template : Template}
    (h : (parse tags mode source journal).1 = .ok template) :
    ∀ n ∈ template.nodes, n.Scalar := by
  intro n hn
  have hspelled : n.Meets (Expr.Spelled True True) fun _ => True :=
    parse_spelled (fun _ _ _ => True.intro) (fun _ => True.intro) h n hn
  exact hspelled.scalar

end Stencil
