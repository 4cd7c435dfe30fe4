/-
Conditions: chains of comparisons linked by `and` and `or`.

A chain is folded from left to right, with no precedence: each link
applies to the running result. A clause is a comparison, or a single
operand that is taken for its truth, or the clause of an `else` branch,
which always holds when it heads a condition.
-/
import Stencil.Operator

namespace Stencil

/-- How a clause is linked to those before it. -/
inductive Relation
  | and
  | or
  deriving DecidableEq, Repr

namespace Relation

/-- The word of a relation. -/
def word : Relation → String
  | .and => "and"
  | .or => "or"

/-- The relation of a word. -/
def ofWord? : String → Option Relation
  | "and" => some .and
  | "or" => some .or
  | _ => none

theorem ofWord?_word (r : Relation) : ofWord? r.word = some r := by
  cases r <;> rfl

/-- Whether a linked clause can change the running result, and so has to
be looked at. -/
def matters : Relation → Bool → Bool
  | .and, result => result
  | .or, result => !result

end Relation

/-- One member of a chain. Without an operator only the left operand
counts. -/
inductive Clause
  /-- Two operands and what is said of them; without an operator the right
  one does not matter. -/
  | compare (left : Expr) (operator : Option Operator) (right : Expr)
  /-- The clause of an `else` branch. -/
  | otherwise
  deriving DecidableEq, Repr

namespace Clause

/-- A clause of one operand. -/
def single (operand : Expr) : Clause := .compare operand none (.const .nil)

/-- The left operand; an `else` clause has none. -/
def left : Clause → Expr
  | .compare left _ _ => left
  | .otherwise => .const .nil

/-- The operator, if there is one. -/
def operator? : Clause → Option Operator
  | .compare _ operator _ => operator
  | .otherwise => none

/-- The right operand. -/
def right : Clause → Expr
  | .compare _ _ right => right
  | .otherwise => .const .nil

end Clause

/-- A chain: its first clause, and the linked ones in order. -/
structure Condition where
  head : Clause
  tail : List (Relation × Clause)
  deriving DecidableEq, Repr

namespace Condition

/-- A chain of one clause. -/
def ofClause (clause : Clause) : Condition := ⟨clause, []⟩

/-- The condition of an `else` branch. -/
def otherwise : Condition := ofClause .otherwise

/-- Whether a condition belongs to an `else` branch. -/
def isOtherwise (c : Condition) : Bool := c.head == .otherwise

/-- The first clause of a chain linked to another chain. What was linked
to it before is dropped. -/
def link (c : Condition) (r : Relation) (next : Condition) : Condition :=
  ⟨c.head, (r, next.head) :: next.tail⟩

/-- The clauses of a chain, each with its link; the first has none. -/
def links (c : Condition) : List (Option Relation × Clause) :=
  (none, c.head) :: c.tail.map fun x => (some x.1, x.2)

end Condition

-- =============================================================== text

/-- The text of a constant in a condition: text is quoted, and probes go
by their words. -/
def Value.wording (print : Value → String) : Value → String
  | .text s => Text.quote s
  | .probe p => p.word
  | v => v.operand print

/-- The text of an operand of a condition. -/
def Expr.wording (print : Value → String) : Expr → String
  | .const v => v.wording print
  | e => e.text print

/-- The text of a clause. -/
def Clause.text (print : Value → String) (c : Clause) : String :=
  match c.operator? with
  | none => c.left.wording print
  | some op =>
    c.left.wording print ++ " " ++ op.text ++ " " ++
      c.right.wording print

/-- The text of a condition, given how values print. -/
def Condition.text (print : Value → String) (c : Condition) : String :=
  if c.isOtherwise then "else"
  else " ".intercalate (c.links.map fun l =>
    match l.1 with
    | some r => r.word ++ " " ++ l.2.text print
    | none => l.2.text print)

/-- Whether a clause can be written, given which constants can. -/
def Clause.isWritable (ok : Value → Bool) (c : Clause) : Bool :=
  c.left.isWritable ok && (c.operator?.isNone || c.right.isWritable ok)

/-- Whether a condition can be written, given which constants can. -/
def Condition.isWritable (ok : Value → Bool) (c : Condition) : Bool :=
  c.isOtherwise || c.links.all fun l => l.2.isWritable ok

/-- The text of a clause over the values of a store. -/
def Store.clauseText (store : Store) (c : Clause) : Except Failure String :=
  written (c.isWritable store.isWritable)
    (c.text fun v => (store.datum v).print)

/-- The text of a condition over the values of a store. -/
def Store.conditionText (store : Store) (c : Condition) :
    Except Failure String :=
  written (c.isWritable store.isWritable)
    (c.text fun v => (store.datum v).print)

-- =========================================================== equality

/-- Structural equality of clauses, given equality of constants. -/
def Clause.same (eq : Value → Value → Bool) : Clause → Clause → Bool
  | .compare a op b, .compare c op' d =>
    a.same eq c && op == op' && b.same eq d
  | .otherwise, .otherwise => true
  | _, _ => false

/-- Structural equality of conditions, given equality of constants. -/
def Condition.same (eq : Value → Value → Bool) (c d : Condition) : Bool :=
  c.head.same eq d.head && c.tail.length == d.tail.length &&
    (c.tail.zip d.tail).all fun x =>
      x.1.1 == x.2.1 && x.1.2.same eq x.2.2

end Stencil
