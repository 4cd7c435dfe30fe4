/-
The lenient grammar of conditions.

The linking words cut a condition into clauses. A clause is an operand,
an operator, and another operand, of which the last two may be missing;
what comes after them is ignored. The clauses are built from the last to
the first, so of several faults the last is the one reported.
-/
import Stencil.Condition
import Stencil.Expr.Lenient
import Stencil.Markup.Fragment

namespace Stencil.Condition

/-- The pieces up to the first linking word, and the pieces after each of
the linking words. -/
def splitClauses :
    List Fragment → List Fragment × List (Relation × List Fragment)
  | [] => ([], [])
  | f :: rest =>
    let (first, later) := splitClauses rest
    if f.kind == .keyword then
      let relation :=
        (Relation.ofWord? (String.ofList f.text)).getD .or
      ([], (relation, first) :: later)
    else (f :: first, later)

/-- The operator that a piece spells. -/
def operatorOf (f : Fragment) : Except Failure Operator :=
  let text := String.ofList f.text
  match Operator.ofText? text with
  | some op => .ok op
  | none => .error (.malformed (.unknownOperator text))

/-- The operand that a piece spells, nil if there is no piece. -/
def operandOf : Option Fragment → Except Failure Expr
  | some f => Expr.parseChars f.text
  | none => .ok (.const .nil)

/-- The clause that pieces spell, for a tag and its whole markup. -/
def clauseOf (tag markup : String) :
    List Fragment → Except Failure Clause
  | [] => .error (.malformed (.invalidClause tag markup))
  | f :: rest =>
    if f.kind == .operator then
      .error (.malformed (.invalidClause tag markup))
    else do
      let left ← operandOf (some f)
      match rest with
      | [] => return .single left
      | op :: rest =>
        let right ← operandOf rest.head?
        return .compare left (some (← operatorOf op)) right

/-- The chain of clauses, the first of them not linked. -/
def assemble (clause : List Fragment → Except Failure Clause) :
    List Fragment → List (Relation × List Fragment) →
    Except Failure Condition
  | first, [] => return ofClause (← clause first)
  | first, (r, next) :: rest => do
    let later ← assemble clause next rest
    return link (ofClause (← clause first)) r later

/-- The condition that the markup of a tag spells. -/
def parseLenient (tag markup : String) : Except Failure Condition :=
  let clauses := splitClauses (Fragment.scan markup.toList)
  assemble (clauseOf tag markup) clauses.1 clauses.2

end Stencil.Condition
