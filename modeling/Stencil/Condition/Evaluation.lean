/-
Evaluation of conditions.

A chain is folded from left to right. A linked clause is looked at only
if it can change the running result.
-/
import Stencil.Condition
import Stencil.Evaluation

namespace Stencil.Eval

/-- The value that an operator answers. -/
def ofAnswer : Option Bool → Value
  | some b => .bool b
  | none => .nil

/-- The value of a clause alone: that of its operand, or what its operator
says of both. -/
def clause (ctx : ContextId) (c : Clause) : Eval Value := do
  let left ← evaluate ctx c.left
  match c.operator? with
  | none => return left
  | some op =>
    let right ← evaluate ctx c.right
    return ofAnswer (← ofExcept (op.apply (← store) left right))

/-- Tells of the running result after a clause. -/
def noteClause (relation : String) (c : Clause) (result : Bool) :
    Eval Unit :=
  note fun s => do
    return "Condition: " ++ relation ++ " " ++ (← s.clauseText c) ++ " -> " ++
      (Value.bool result).display

/-- The result of the linked clauses of a chain, from a running one. -/
def linked (ctx : ContextId) (result : Bool) :
    List (Relation × Clause) → Eval Bool
  | [] => return result
  | (r, c) :: rest => do
    let result ←
      if r.matters result then pure (← clause ctx c).isTruthy
      else pure result
    noteClause r.word c result
    linked ctx result rest

/-- Whether a condition holds. -/
def condition (ctx : ContextId) (c : Condition) : Eval Bool := do
  if c.isOtherwise then return true
  else
    let result := (← clause ctx c.head).isTruthy
    noteClause "" c.head result
    linked ctx result c.tail

end Stencil.Eval
