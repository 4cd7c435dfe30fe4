/-
The tree of a template: text, outputs and tags, with the bodies of the
blocks inside them.
-/
import Stencil.Condition

namespace Stencil

/-- The tags that stand alone. -/
inductive LeafTag
  /-- One that cannot be rendered. -/
  | unsupported
  /-- One that writes its markup in brackets. -/
  | echo
  /-- One that writes nothing. -/
  | silent
  deriving DecidableEq, Repr

mutual

/-- A node. -/
inductive Node
  /-- Text that is written as it is. -/
  | text (text : String)
  /-- An expression whose value is written. -/
  | output (markup : String) (expr : Expr)
  /-- A tag that stands alone. -/
  | leaf (tag : LeafTag) (name markup : String)
  /-- A block of which the first branch that is taken is written. In a
  negated block the first branch is taken when its condition fails. -/
  | conditional (negated : Bool) (name markup : String)
      (branches : List Branch)

/-- A branch: its condition, and the nodes rendered when it holds. -/
inductive Branch
  | mk (condition : Condition) (body : List Node)

end

instance : Inhabited Node := ⟨.text ""⟩

instance : Inhabited Branch := ⟨.mk .otherwise []⟩

namespace Branch

/-- The condition of a branch. -/
def condition : Branch → Condition
  | .mk condition _ => condition

/-- The nodes of a branch. -/
def body : Branch → List Node
  | .mk _ body => body

end Branch

namespace Node

/-- Whether a node is text made of blanks. -/
def isBlankText : Node → Bool
  | .text s => Text.isBlankText s.toList
  | _ => false

mutual

/-- Whether a node writes nothing but blanks, whatever the data: text of
blanks, the silent tag, and blocks of such nodes. -/
def isBlank : Node → Bool
  | .text s => Text.isBlankText s.toList
  | .output _ _ => false
  | .leaf tag _ _ => tag == .silent
  | .conditional _ _ _ branches => allBranchesBlank branches

/-- Whether all nodes are blank. -/
def allBlank : List Node → Bool
  | [] => true
  | n :: rest => isBlank n && allBlank rest

/-- Whether the bodies of all branches are blank. -/
def allBranchesBlank : List Branch → Bool
  | [] => true
  | .mk _ body :: rest => allBlank body && allBranchesBlank rest

end

/-- Nodes without the texts of blanks among them. -/
def dropBlankTexts (nodes : List Node) : List Node :=
  nodes.filter fun n => !n.isBlankText

/-- The short text of a node that is an output or a conditional block. -/
def display : Node → String
  | .text s => Text.quote s
  | .output markup _ =>
    "Variable(" ++ String.ofList (Text.trim markup.toList) ++ ")"
  | .leaf _ name markup => name ++ "(" ++ markup ++ ")"
  | .conditional negated _ markup _ =>
    (if negated then "Unless(" else "ConditionalBlock(") ++ markup ++ ")"

end Node
end Stencil
