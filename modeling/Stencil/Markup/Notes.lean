/-
The notes that go with reading markup: which tokens and pieces were
found, which brackets are never closed, what was ignored. Notes follow
the order of reading and end where it fails.
-/
import Stencil.Condition.Lenient
import Stencil.Markup.Token

namespace Stencil.Notes

open Text

-- ============================================================== pieces

/-- A kind of piece with its text. -/
def pairText (kind text : String) : String :=
  "(" ++ quote kind ++ ", " ++ quote text ++ ")"

/-- Kinds of pieces with their texts. -/
def pairsText (pairs : List (String × String)) : String :=
  listText (pairs.map fun p => pairText p.1 p.2)

/-- The note of the tokens of markup. -/
def tokens (markup : String) (tokens : List Token) : String :=
  "tokenize: " ++ quote markup ++ " -> " ++
    pairsText (tokens.map fun t => (t.kind.name, t.text))

/-- Pieces of a condition with their kinds. -/
def fragmentsText (fragments : List Fragment) : String :=
  pairsText (fragments.map fun f => (f.kind.name, String.ofList f.text))

/-- The note of the pieces of a condition. -/
def fragments (markup : String) (fragments : List Fragment) : String :=
  "scan_condition: " ++ quote markup ++ " -> " ++ fragmentsText fragments

/-- The note of pieces behind a whole clause. -/
def ignored (fragments : List Fragment) : String :=
  "Ignored trailing markup: " ++ fragmentsText fragments

-- ============================================================ operands

/-- The notes of readings that follow one another, up to the first that
fails. -/
def inTurn {α : Type} (notes : α → List String) (succeeds : α → Bool) :
    List α → List String
  | [] => []
  | x :: rest =>
    notes x ++ if succeeds x then inTurn notes succeeds rest else []

/-- What stands in the bracket groups among segments. -/
def groups (segments : List Segment) : List (List Char) :=
  segments.filterMap fun
    | .word _ => none
    | .group inner => some inner

/-- Whether an operand can be read. -/
def reads (cs : List Char) : Bool := (Expr.parseChars cs).isOk

/-- The notes of brackets that are never closed. -/
def unclosed (cs : List Char) : List String :=
  (Segment.unclosed cs cs).map fun u =>
    "Unclosed bracket at " ++ toString u.1 ++ ": " ++ String.ofList u.2

/-- The notes of an operand, down to a depth of nested ones. -/
def operandTo : (depth : Nat) → List Char → List String
  | 0, _ => []
  | depth + 1, markup =>
    match Expr.Form.of markup with
    | .integer _ | .value _ => []
    | .range first last => inTurn (operandTo depth) reads [first, last]
    | .path segments =>
      unclosed (trim markup) ++
        inTurn (operandTo depth) reads (groups segments)

/-- The notes of an operand. -/
def operand (markup : List Char) : List String :=
  operandTo (markup.length + 1) markup

-- ========================================================== conditions

/-- The notes of a clause. -/
def clause : List Fragment → List String
  | [] => []
  | f :: rest =>
    if f.kind == .operator then []
    else
      let operands := f :: (rest.drop 1).take 1
      inTurn (fun f => operand f.text) (fun f => reads f.text) operands ++
        if operands.all (fun f => reads f.text) && rest.length > 2 then
          [ignored (rest.drop 2)]
        else []

/-- The notes of a condition under the lenient grammar: of all its
pieces, then of its clauses from the last to the first. -/
def lenientCondition (tag markup : String) : List String :=
  let pieces := Fragment.scan markup.toList
  let (first, later) := Condition.splitClauses pieces
  let clauses := (first :: later.map Prod.snd).reverse
  fragments markup pieces ::
    inTurn clause (fun c => (Condition.clauseOf tag markup c).isOk) clauses

end Stencil.Notes
