/-
Reading templates under one of three error modes.

The strict mode admits only the strict grammar and the lenient mode only
the lenient one. The warning mode tries the strict grammar first; where
that refuses the markup, it records why and falls back to the lenient
grammar. Failures that are no refusals pass through in every mode.
-/
import Stencil.Condition.Strict
import Stencil.Journal
import Stencil.Markup.Notes
import Stencil.Text.Abridged

namespace Stencil

/-- The error modes. -/
inductive Mode
  /-- Only the lenient grammar. -/
  | lax
  /-- The strict grammar, and where it refuses the lenient one. -/
  | warn
  /-- Only the strict grammar. -/
  | strict
  deriving DecidableEq, Repr

namespace Mode

/-- The name of a mode. -/
def name : Mode → String
  | .lax => "lax"
  | .warn => "warn"
  | .strict => "strict"

/-- The mode of a name; without one it is the lenient mode. -/
def ofName? : Option String → Except Failure Mode
  | none | some "lax" => .ok .lax
  | some "warn" => .ok .warn
  | some "strict" => .ok .strict
  | some other => .error (.unknownMode other)

end Mode

/-- What reading a template keeps track of: the mode, the refusals that
were only recorded, the last first, and the journal. -/
structure Reading where
  mode : Mode
  warnings : List SyntaxError
  journal : Journal
  deriving DecidableEq, Repr

/-- Reading a template, or a part of one. -/
abbrev Parsing := ExceptT Failure (StateM Reading)

namespace Parsing

/-- The start of a reading. -/
def start (mode : Mode) (journal : Journal) : Reading := ⟨mode, [], journal⟩

/-- Changes the journal. -/
def tell (f : Journal → Journal) : Parsing Unit :=
  modify fun r => { r with journal := f r.journal }

/-- An outcome that was found without the journal. -/
def ofExcept {α : Type} : Except Failure α → Parsing α
  | .ok a => pure a
  | .error f => throw f

/-- What a warning in the journal says. -/
def warningText (error : SyntaxError) (markup : String) : String :=
  error.message ++ ", parsed leniently: " ++ Text.shorten markup

/-- Records a refusal. -/
def recordWarning (error : SyntaxError) (markup : String) : Parsing Unit :=
  modify fun r =>
    { r with
      warnings := error :: r.warnings
      journal := r.journal.warn (warningText error markup) }

/-- Reads markup by the grammar of the mode, given readers for both. -/
def select {α : Type} (markup : String) (lenient strict : Parsing α) :
    Parsing α := do
  match (← get).mode with
  | .strict => strict
  | .lax => lenient
  | .warn =>
    tryCatch strict fun
      | .malformed error => do
        recordWarning error markup
        lenient
      | failure => throw failure

/-- Reads tokens under the strict grammar, given what they spell. -/
def strictly {α : Type} (markup : String)
    (read : String → List Token → Except Failure α) : Parsing α := do
  match Token.scan markup with
  | .error e => throw (.malformed e)
  | .ok tokens =>
    tell (·.noteTokens markup fun _ => Notes.tokens markup tokens)
    ofExcept (read markup tokens)

/-- Reads an operand under the lenient grammar. -/
def lenientExpr (markup : String) : Parsing Expr := do
  tell (·.noteAll fun _ => Notes.operand markup.toList)
  ofExcept (Expr.parse markup)

/-- Reads an operand. -/
def expr (markup : String) : Parsing Expr :=
  select markup (lenientExpr markup) (strictly markup Expr.readTokens)

/-- Reads a condition under the lenient grammar. -/
def lenientCondition (tag markup : String) : Parsing Condition := do
  tell (·.noteAll fun _ => Notes.lenientCondition tag markup)
  ofExcept (Condition.parseLenient tag markup)

/-- Reads the condition of a tag. -/
def condition (tag markup : String) : Parsing Condition :=
  select markup (lenientCondition tag markup)
    (strictly markup Condition.readTokens)

end Parsing
end Stencil
