/-
Templates: sources that have been read completely.
-/
import Stencil.Template.Body

namespace Stencil

/-- A template: its nodes, and the refusals recorded while reading it. -/
structure Template where
  nodes : List Node
  warnings : List SyntaxError

namespace Template

/-- The note of a template that has been read. -/
def note (mode : Mode) (nodes : List Node) : String :=
  "Parsed template (" ++ mode.name ++ "): " ++
    tupleText (nodes.map Node.display)

/-- Why a template cannot hold a tag outside all blocks. -/
def strayTag (name : String) : SyntaxError :=
  if name == elseTag || name == elsifTag || isClosingName name then
    .strayTag name
  else .unknownTag name

/-- Reads a template. -/
def read (tags : Registry) (source : String) : Parsing Template := do
  let outcome ←
    ExceptT.lift (Body.readFrom tags (Chunk.split source) (.ofNodes []))
  match outcome.result with
  | .error failure => throw failure
  | .ok (some (name, _)) => throw (.malformed (strayTag name))
  | .ok none =>
    let mode := (← get).mode
    Parsing.tell (·.note fun _ => note mode outcome.nodes)
    return ⟨outcome.nodes, (← get).warnings.reverse⟩

/-- Reads a template; answers the template and the journal that tells of
the reading. -/
def parse (tags : Registry) (mode : Mode) (source : String)
    (journal : Journal) : Except Failure Template × Journal :=
  let (result, reading) := (read tags source).run (Parsing.start mode journal)
  (result, reading.journal)

end Template
end Stencil
