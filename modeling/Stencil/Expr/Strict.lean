/-
The strict grammar of operands.

An operand is a literal word, a path, a string, a number, or a range of
two operands in parentheses. A path is a name or a bracketed operand,
followed by names after dots and operands in brackets. A literal word
that goes on like a path is the name of one.

The readers carry a budget, which every token read pays for: one more
than there are tokens is always enough.
-/
import Stencil.Datum.Text
import Stencil.Markup.Cursor
import Stencil.Value.Integer

namespace Stencil

namespace Reader

/-- The number that a token spells. -/
def numberOf (text : String) : Reader Expr :=
  let cs := text.toList
  let value? :=
    if cs.contains '.' then (Numeral.float? cs).map Value.float
    else (Numeral.integer? cs).map Value.int
  match value? with
  | some v => return .const v
  | none => throw (.unreadableInteger text)

/-- The inside of a string token. -/
def unquoted (text : String) : String :=
  String.ofList (text.toList.drop 1).dropLast

/-- The range between two operands. -/
def between (first last : Expr) : Reader Expr :=
  match Expr.between Value.shown first last with
  | .ok e => return e
  | .error f => throw f

/-- Whether the next token goes on a path from the name before it. -/
def goesOn : Reader Bool := do
  if ← lookBeyond .dot then return true else lookBeyond .openSquare

mutual

/-- Reads an operand. -/
def operand : (budget : Nat) → Reader Expr
  | 0 => throw .tooDeep
  | budget + 1 => do
    let t ← peek
    match t.kind with
    | .id =>
      let goesOn ← goesOn
      let name ← advance
      match if goesOn then none else literal? name with
      | some v => return .const v
      | none => return .path (← steps budget (.root (.const (.text name))))
    | .openSquare =>
      let _ ← advance
      let root ← operand budget
      let _ ← expect .closeSquare
      return .path (← steps budget (.root root))
    | .string => return .const (.text (unquoted (← advance)))
    | .number => numberOf (← advance)
    | .openRound =>
      let _ ← advance
      let first ← operand budget
      let _ ← expect .dotdot
      let last ← operand budget
      let _ ← expect .closeRound
      between first last
    | kind =>
      let found := if t.text.isEmpty then kind.name else t.text
      refuse (.notAnExpression found (← get).markup)

/-- Reads the steps that a path goes on with. -/
def steps : (budget : Nat) → Path → Reader Path
  | 0, _ => throw .tooDeep
  | budget + 1, path => do
    if (← accept? .openSquare).isSome then
      let key ← operand budget
      let _ ← expect .closeSquare
      steps budget (.step path key none)
    else if (← accept? .dot).isSome then
      let name ← expect .id
      steps budget
        (.step path (.const (.text name)) (Command.ofWord? name))
    else return path

end

/-- The budget that reads all tokens of the markup. -/
def budget : Reader Nat := do return (← get).tokens.length + 1

/-- Reads an operand. -/
def expression : Reader Expr := do operand (← budget)

end Reader

namespace Expr

/-- The operand that tokens spell, all of them. -/
def readTokens (markup : String) (tokens : List Token) :
    Except Failure Expr :=
  let reading : Reader Expr := do
    let e ← Reader.expression
    let _ ← Reader.expect .endOfString
    return e
  (reading (.ofTokens markup tokens)).1

/-- The operand that markup spells under the strict grammar. -/
def parseStrict (markup : String) : Except Failure Expr :=
  match Token.scan markup with
  | .ok tokens => readTokens markup tokens
  | .error e => .error (.malformed e)

end Expr
end Stencil
