/-
A cursor over the tokens of one markup, and the steps of reading with it.

A reading step looks at tokens, moves the cursor forward, or fails; after
a failure the cursor stands where the step left it. Past the last token
there are only ends.
-/
import Stencil.Markup.Token

namespace Stencil

/-- The tokens of a markup, and how many of them have been read. -/
structure Cursor where
  markup : String
  tokens : List Token
  position : Nat
  deriving DecidableEq, Repr

/-- Reading from a cursor. -/
abbrev Reader := ExceptT Failure (StateM Cursor)

namespace Cursor

/-- A cursor in front of the first token. -/
def ofTokens (markup : String) (tokens : List Token) : Cursor :=
  ⟨markup, tokens, 0⟩

/-- A cursor in front of the first token of markup. -/
def ofMarkup (markup : String) : Except SyntaxError Cursor :=
  (Token.scan markup).map (ofTokens markup)

/-- The tokens not read yet. -/
def rest (c : Cursor) : List Token := c.tokens.drop c.position

/-- The next token. -/
def next (c : Cursor) : Token := c.rest.headD .endOfString

/-- The token that many places ahead of the next one, or behind it. An
index before the first token counts from the last one back. -/
def ahead? (c : Cursor) (offset : Int) : Option Token :=
  let index := c.position + offset
  if index ≥ c.tokens.length then some .endOfString
  else if index ≥ 0 then c.tokens[index.toNat]?
  else if index + c.tokens.length ≥ 0 then
    c.tokens[(index + c.tokens.length).toNat]?
  else none

/-- The cursor after the next token. -/
def advance (c : Cursor) : Cursor := { c with position := c.position + 1 }

theorem rest_ofTokens (markup : String) (tokens : List Token) :
    (ofTokens markup tokens).rest = tokens := rfl

theorem rest_advance (c : Cursor) : c.advance.rest = c.rest.tail := by
  simp [rest, advance]

end Cursor

namespace Reader

/-- Refuses the markup. -/
def refuse {α : Type} (error : SyntaxError) : Reader α :=
  throw (.malformed error)

/-- The next token, which stays. -/
def peek : Reader Token := do return (← get).next

/-- Whether the next token is of a kind. -/
def look (kind : TokenKind) : Reader Bool := do
  return (← peek).kind == kind

/-- Whether the token after the next one is of a kind. -/
def lookBeyond (kind : TokenKind) : Reader Bool := do
  return (← get).advance.next.kind == kind

/-- Reads the next token, whatever it is. -/
def advance : Reader String := do
  let text := (← peek).text
  modify Cursor.advance
  return text

/-- Refuses the next token, where another kind was wanted. -/
def refuseToken {α : Type} (wanted : String) : Reader α := do
  let found := (← peek).kind
  refuse (.unexpectedToken wanted found.name (← get).markup)

/-- Reads the next token, which must be of a kind. -/
def expect (kind : TokenKind) : Reader String := do
  if ← look kind then advance else refuseToken kind.name

/-- Reads the next token if it is of a kind. -/
def accept? (kind : TokenKind) : Reader (Option String) := do
  if ← look kind then return some (← advance) else return none

/-- Reads the next token if it is a certain name. -/
def acceptName? (name : String) : Reader (Option String) := do
  let t ← peek
  if t.kind == .id && t.text == name then return some (← advance)
  else return none

-- ======================================================= kinds by name

/-- The kind of the token that many places ahead. -/
def kindAhead (offset : Int) : Reader TokenKind := do
  match (← get).ahead? offset with
  | some t => return t.kind
  | none => throw .noSuchToken

/-- Whether the token that many places ahead is of the kind of a name. No
token is of a kind that does not exist. -/
def lookNamed (name : String) (offset : Int) : Reader Bool := do
  return (← kindAhead offset).name == name

/-- Reads the next token, which must be of the kind of a name, if there is
one. -/
def consume (name : Option String) : Reader String := do
  match name with
  | none => advance
  | some name =>
    if ← lookNamed name 0 then advance else refuseToken name

/-- Reads the next token if it is of the kind of a name. -/
def consumeNamed? (name : String) : Reader (Option String) := do
  if ← lookNamed name 0 then return some (← advance) else return none

end Reader
end Stencil
