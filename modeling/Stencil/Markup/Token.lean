/-
Tokens: the pieces of markup under the strict grammar.

At each place the first terminal that matches wins, in the order of the
table below, and a character at which none matches is refused. The word
`contains` with a blank after it compares when it follows an operand, and
is a name elsewhere.
-/
import Stencil.Failure
import Stencil.Markup.Fragment
import Stencil.Text.Word

namespace Stencil

open Text

/-- The kinds of tokens. -/
inductive TokenKind
  | comparison
  | id
  | string
  | number
  | dotdot
  | dot
  | comma
  | colon
  | pipe
  | question
  | dash
  | openSquare
  | closeSquare
  | openRound
  | closeRound
  | endOfString
  deriving DecidableEq, Repr

namespace TokenKind

/-- The name of a kind, as messages give it. -/
def name : TokenKind → String
  | .comparison => "comparison"
  | .id => "id"
  | .string => "string"
  | .number => "number"
  | .dotdot => "dotdot"
  | .dot => "dot"
  | .comma => "comma"
  | .colon => "colon"
  | .pipe => "pipe"
  | .question => "question"
  | .dash => "dash"
  | .openSquare => "open_square"
  | .closeSquare => "close_square"
  | .openRound => "open_round"
  | .closeRound => "close_round"
  | .endOfString => "end_of_string"

/-- All kinds. -/
def all : List TokenKind :=
  [.comparison, .id, .string, .number, .dotdot, .dot, .comma, .colon, .pipe,
    .question, .dash, .openSquare, .closeSquare, .openRound, .closeRound,
    .endOfString]

/-- The kind of a name. -/
def ofName? (name : String) : Option TokenKind :=
  all.find? fun k => k.name == name

/-- An operand may end with a token of this kind. -/
def endsOperand : TokenKind → Bool
  | .id | .string | .number | .closeSquare | .closeRound => true
  | _ => false

end TokenKind

/-- A piece of markup, with its text. -/
structure Token where
  kind : TokenKind
  text : String
  deriving DecidableEq, Repr

namespace Token

/-- The token behind the last one. -/
def endOfString : Token := ⟨.endOfString, ""⟩

/-- Whether an operand ends with a token: linking words end none. -/
def endsOperand (t : Token) : Bool :=
  t.kind.endsOperand && !relationWords.contains t.text

-- ========================================================== terminals

/-- What a terminal matches: blanks, which are skipped, the word
`contains`, or a token of a kind. -/
inductive Lexeme
  | skipped
  | contains
  | token (kind : TokenKind)
  deriving DecidableEq, Repr

/-- How much of a text a word of its own matches. -/
def lengthOfWord (word : String) (cs : List Char) : Nat :=
  if word.toList.isPrefixOf cs then word.length else 0

/-- The word `contains` matches in front of a blank. -/
def lengthOfContains (cs : List Char) : Nat :=
  let n := lengthOfWord "contains" cs
  match cs.drop n with
  | c :: _ => if isBlank c then n else 0
  | [] => 0

/-- A name starts with a word character that is no digit, goes on with
dashed-word characters, and may end in a question mark. -/
def lengthOfName : List Char → Nat
  | [] => 0
  | c :: rest =>
    if isWord c && !isDigit c then
      let n := (rest.takeWhile isDashedWord).length
      match rest.drop n with
      | '?' :: _ => n + 2
      | _ => n + 1
    else 0

/-- A string reaches from a quote to the next one like it. -/
def lengthOfString : List Char → Nat
  | [] => 0
  | q :: rest =>
    if (q == '\'' || q == '"') && rest.contains q then
      (rest.takeWhile (· != q)).length + 2
    else 0

/-- A row of digits, and after a point another one. -/
def lengthOfDigits (cs : List Char) : Nat :=
  let n := (cs.takeWhile isDigit).length
  if n == 0 then 0
  else match cs.drop n with
    | '.' :: rest =>
      let k := (rest.takeWhile isDigit).length
      if k == 0 then n else n + k + 1
    | _ => n

/-- A number is digits, perhaps after a minus. -/
def lengthOfNumber : List Char → Nat
  | '-' :: rest =>
    let n := lengthOfDigits rest
    if n == 0 then 0 else n + 1
  | cs => lengthOfDigits cs

/-- The blanks that may stand between tokens. -/
def isSkipped (c : Char) : Bool :=
  c == ' ' || c == '\t' || c == '\x0c' || c == '\r' || c == '\n'

/-- Blanks between tokens. -/
def lengthOfSkipped (cs : List Char) : Nat := (cs.takeWhile isSkipped).length

/-- The comparison operators, each before those it begins with. -/
def comparisonWords : List String := ["==", "!=", "<>", "<=", ">=", "<", ">"]

/-- A comparison operator. -/
def lengthOfComparison (cs : List Char) : Nat :=
  match comparisonWords.find? fun w => w.toList.isPrefixOf cs with
  | some w => w.length
  | none => 0

/-- A terminal: what it stands for, and how much of a text it matches,
nothing if it does not match. -/
structure Terminal where
  lexeme : Lexeme
  length : List Char → Nat

/-- The terminals, in the order in which they are tried. -/
def terminals : List Terminal :=
  [⟨.contains, lengthOfContains⟩,
    ⟨.token .id, lengthOfName⟩,
    ⟨.token .string, lengthOfString⟩,
    ⟨.token .number, lengthOfNumber⟩,
    ⟨.skipped, lengthOfSkipped⟩,
    ⟨.token .comparison, lengthOfComparison⟩,
    ⟨.token .dotdot, lengthOfWord ".."⟩,
    ⟨.token .dot, lengthOfWord "."⟩,
    ⟨.token .comma, lengthOfWord ","⟩,
    ⟨.token .colon, lengthOfWord ":"⟩,
    ⟨.token .pipe, lengthOfWord "|"⟩,
    ⟨.token .question, lengthOfWord "?"⟩,
    ⟨.token .dash, lengthOfWord "-"⟩,
    ⟨.token .openSquare, lengthOfWord "["⟩,
    ⟨.token .closeSquare, lengthOfWord "]"⟩,
    ⟨.token .openRound, lengthOfWord "("⟩,
    ⟨.token .closeRound, lengthOfWord ")"⟩]

/-- The first terminal that matches the start of a text. -/
def firstMatch? (cs : List Char) : Option Terminal :=
  terminals.find? fun t => t.length cs != 0

/-- The kind of token that a match makes after a previous token. -/
def kindAfter (previous : Option Token) : Lexeme → Option TokenKind
  | .skipped => none
  | .contains =>
    match previous with
    | some t => some (if t.endsOperand then .comparison else .id)
    | none => some .id
  | .token kind => some kind

-- =============================================================== scan

/-- The tokens of a text that follow a previous one, or the character at
which no terminal matches. -/
def scanAfter (previous : Option Token) (cs : List Char) :
    Except Char (List Token) :=
  match cs with
  | [] => .ok []
  | c :: rest =>
    match _h : firstMatch? (c :: rest) with
    | none => .error c
    | some terminal =>
      let n := terminal.length (c :: rest)
      let text := String.ofList ((c :: rest).take n)
      match kindAfter previous terminal.lexeme with
      | none => scanAfter previous ((c :: rest).drop n)
      | some kind =>
        let token := ⟨kind, text⟩
        match scanAfter (some token) ((c :: rest).drop n) with
        | .ok tokens => .ok (token :: tokens)
        | .error c => .error c
termination_by cs.length
decreasing_by
  all_goals
    have hpos := List.find?_some _h
    simp only [bne_iff_ne, ne_eq] at hpos
    simp only [List.length_drop, List.length_cons]
    omega

/-- The tokens of markup, the last of them marking its end. -/
def scan (markup : String) : Except SyntaxError (List Token) :=
  match scanAfter none markup.toList with
  | .ok tokens => .ok (tokens ++ [endOfString])
  | .error c => .error (.unexpectedCharacter c markup)

end Token
end Stencil
