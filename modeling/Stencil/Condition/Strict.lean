/-
The strict grammar of conditions: comparisons linked by `and` and `or`,
where a comparison is an operand, or two operands with an operator
between them. Nothing may follow.
-/
import Stencil.Condition
import Stencil.Expr.Strict

namespace Stencil

namespace Reader

/-- Reads a comparison. -/
def comparison : Reader Clause := do
  let left ← expression
  match ← accept? .comparison with
  | none => return .single left
  | some text =>
    let right ← expression
    match Operator.ofText? text with
    | some op => return .compare left (some op) right
    | none => refuse (.unknownOperator text)

/-- Reads a linking word, if there is one. -/
def relation? : Reader (Option Relation) := do
  if (← acceptName? "and").isSome then return some .and
  else if (← acceptName? "or").isSome then return some .or
  else return none

/-- Reads the comparisons that are linked on. -/
def linked : (budget : Nat) → Reader (List (Relation × Clause))
  | 0 => throw .tooDeep
  | budget + 1 => do
    match ← relation? with
    | none => return []
    | some r =>
      let clause ← comparison
      return (r, clause) :: (← linked budget)

/-- Reads a condition. -/
def condition : Reader Condition := do
  let head ← comparison
  let tail ← linked (← budget)
  return ⟨head, tail⟩

end Reader

namespace Condition

/-- The condition that tokens spell, all of them. -/
def readTokens (markup : String) (tokens : List Token) :
    Except Failure Condition :=
  let reading : Reader Condition := do
    let c ← Reader.condition
    let _ ← Reader.expect .endOfString
    return c
  (reading (.ofTokens markup tokens)).1

/-- The condition that markup spells under the strict grammar. -/
def parseStrict (markup : String) : Except Failure Condition :=
  match Token.scan markup with
  | .ok tokens => readTokens markup tokens
  | .error e => .error (.malformed e)

end Condition
end Stencil
