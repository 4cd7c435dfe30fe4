/-
Fragments: the pieces of a lenient condition such as `a == "b" and c`.

Blanks separate pieces, and so does the border between comparison
characters and all others. A quoted text, and what stands in brackets or
parentheses, is never split, so it belongs to the operand around it. What
is opened and never closed reaches to the end.
-/
import Stencil.Text.Class

namespace Stencil

open Text

/-- The words that link comparisons. -/
def relationWords : List String := ["and", "or"]

/-- A piece of a condition: a linking word, a run of comparison
characters, or anything else. -/
inductive FragmentKind
  | keyword
  | operator
  | operand
  deriving DecidableEq, Repr

/-- The name of a kind of piece. -/
def FragmentKind.name : FragmentKind → String
  | .keyword => "keyword"
  | .operator => "operator"
  | .operand => "fragment"

/-- A piece of a condition, with its text. -/
structure Fragment where
  kind : FragmentKind
  text : List Char
  deriving DecidableEq, Repr

namespace Fragment

/-- The characters that comparison operators are made of. -/
def isOperatorChar (c : Char) : Bool :=
  c == '=' || c == '!' || c == '<' || c == '>'

/-- Where the scan of an operand stands: in how many brackets and
parentheses, and inside which quote. -/
structure Nesting where
  depth : Nat
  quote : Option Char
  deriving DecidableEq, Repr

namespace Nesting

/-- Outside all brackets and quotes. -/
def outside : Nesting := ⟨0, none⟩

/-- Whether a bracket or a quote is open. -/
def isOpen (n : Nesting) : Bool := n.quote.isSome || n.depth != 0

/-- The nesting after a character. A closing bracket outside all brackets
closes nothing. -/
def next (n : Nesting) (c : Char) : Nesting :=
  match n.quote with
  | some q => if c == q then { n with quote := none } else n
  | none =>
    if c == '\'' || c == '"' then { n with quote := some c }
    else if c == '[' || c == '(' then { n with depth := n.depth + 1 }
    else if c == ']' || c == ')' then { n with depth := n.depth - 1 }
    else n

/-- Whether an operand ends in front of a character. -/
def stops (n : Nesting) (c : Char) : Bool :=
  !n.isOpen && (isBlank c || isOperatorChar c)

end Nesting

/-- The operand that a text starts with, from a nesting on. -/
def takeOperand : Nesting → List Char → List Char
  | _, [] => []
  | n, c :: rest =>
    if n.stops c then [] else c :: takeOperand (n.next c) rest

/-- What follows the operand that a text starts with. -/
def dropOperand : Nesting → List Char → List Char
  | _, [] => []
  | n, c :: rest =>
    if n.stops c then c :: rest else dropOperand (n.next c) rest

theorem takeOperand_append_dropOperand (n : Nesting) (cs : List Char) :
    takeOperand n cs ++ dropOperand n cs = cs := by
  induction cs generalizing n with
  | nil => rfl
  | cons c cs ih =>
    simp only [takeOperand, dropOperand]
    split <;> simp [ih]

theorem length_dropOperand_le (n : Nesting) (cs : List Char) :
    (dropOperand n cs).length ≤ cs.length := by
  have := congrArg List.length (takeOperand_append_dropOperand n cs)
  simp only [List.length_append] at this
  omega

/-- The piece of an operand's text: the linking words are keywords. -/
def ofOperand (text : List Char) : Fragment :=
  if relationWords.contains (String.ofList text) then ⟨.keyword, text⟩
  else ⟨.operand, text⟩

/-- The pieces of a condition. -/
def scan : List Char → List Fragment
  | [] => []
  | c :: rest =>
    if isBlank c then scan rest
    else if isOperatorChar c then
      ⟨.operator, c :: rest.takeWhile isOperatorChar⟩ ::
        scan (rest.dropWhile isOperatorChar)
    else
      let n := Nesting.outside.next c
      ofOperand (c :: takeOperand n rest) :: scan (dropOperand n rest)
termination_by cs => cs.length
decreasing_by
  · simp
  · have := (List.dropWhile_sublist (l := rest) isOperatorChar).length_le
    simp only [List.length_cons]
    omega
  · have := length_dropOperand_le (Nesting.outside.next c) rest
    simp only [List.length_cons]
    omega

end Fragment
end Stencil
