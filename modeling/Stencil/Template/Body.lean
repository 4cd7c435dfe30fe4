/-
Bodies: nodes read from chunks.

Reading is a fold over the chunks with a stack of the blocks that are
open. A conditional block is closed by the tag named after it; `elsif`
and `else` start its next branch. A tag that neither is known nor belongs
to an open block ends the reading of the body.
-/
import Stencil.Template.Chunk
import Stencil.Template.Node
import Stencil.Template.Parsing

namespace Stencil

-- =============================================================== tags

/-- What a known tag is. -/
inductive TagKind
  /-- It opens a conditional block. -/
  | conditional (negated : Bool)
  /-- It stands alone. -/
  | leaf (tag : LeafTag)
  deriving DecidableEq, Repr

/-- The known tags by their names. -/
abbrev Registry := List (String × TagKind)

namespace Registry

/-- The tags that are always known. -/
def standard : Registry :=
  [("if", .conditional false), ("unless", .conditional true)]

/-- Makes a tag known. -/
def register (tags : Registry) (name : String) (kind : TagKind) : Registry :=
  (name, kind) :: tags

/-- The tag of a name. -/
def tag? (tags : Registry) (name : String) : Option TagKind :=
  tags.lookup name

end Registry

/-- The tag that starts another conditional branch. -/
def elsifTag : String := "elsif"

/-- The tag that starts the last branch. -/
def elseTag : String := "else"

/-- Whether a name is one that closes blocks. -/
def isClosingName (name : String) : Bool :=
  "end".toList.isPrefixOf name.toList

-- ============================================================== frames

/-- An open block: its branches so far, the last first, and the condition
and nodes of the branch being read, the last node first. -/
structure Frame where
  negated : Bool
  name : String
  markup : String
  branches : List Branch
  condition : Condition
  nodes : List Node

namespace Frame

/-- An opened block. -/
def opened (negated : Bool) (name markup : String) (condition : Condition) :
    Frame :=
  ⟨negated, name, markup, [], condition, []⟩

/-- The branches of a block, with the one being read. -/
def allBranches (f : Frame) : List Branch :=
  (.mk f.condition f.nodes.reverse :: f.branches).reverse

/-- A block whose next branch is being read. -/
def nextBranch (f : Frame) (condition : Condition) : Frame :=
  { f with
    branches := .mk f.condition f.nodes.reverse :: f.branches
    condition := condition
    nodes := [] }

/-- The node of a finished block. A block that writes nothing but blanks
loses the blank texts that stand directly in it. -/
def close (f : Frame) : Node :=
  let branches := f.allBranches
  let kept :=
    if Node.allBranchesBlank branches then
      branches.map fun b => .mk b.condition (Node.dropBlankTexts b.body)
    else branches
  .conditional f.negated f.name f.markup kept

end Frame

/-- A body being read: its nodes, the last first, and the open blocks, the
innermost first. -/
structure Builder where
  nodes : List Node
  frames : List Frame

namespace Builder

/-- A body that goes on from the given nodes. -/
def ofNodes (nodes : List Node) : Builder := ⟨nodes.reverse, []⟩

/-- Adds a node where the reading stands. -/
def push (b : Builder) (node : Node) : Builder :=
  match b.frames with
  | [] => { b with nodes := node :: b.nodes }
  | f :: outer => { b with frames := { f with nodes := node :: f.nodes } :: outer }

/-- Opens a block. -/
def enter (b : Builder) (f : Frame) : Builder :=
  { b with frames := f :: b.frames }

end Builder

-- ============================================================= reading

/-- What a chunk does to a body being read. -/
inductive Step
  /-- The body goes on. -/
  | proceed (builder : Builder)
  /-- The body ends at a tag that is not known. -/
  | stop (name markup : String)

namespace Body

/-- Refuses the markup. -/
def refuse {α : Type} (error : SyntaxError) : Parsing α :=
  throw (.malformed error)

/-- Reads a tag that is not known, inside an open block. -/
def innerTag (b : Builder) (f : Frame) (outer : List Frame)
    (name markup : String) : Parsing Builder := do
  if name == closingTag f.name then
    return Builder.push { b with frames := outer } f.close
  else if name == elsifTag || name == elseTag then
    if f.condition.isOtherwise then
      refuse (.branchAfterElse name f.name)
    else
      let condition ←
        if name == elseTag then pure Condition.otherwise
        else Parsing.condition f.name markup
      return { b with frames := f.nextBranch condition :: outer }
  else if isClosingName name then refuse (.wrongDelimiter name f.name)
  else refuse (.unknownTag name)

/-- Reads a tag. -/
def tag (tags : Registry) (b : Builder) (name markup : String) :
    Parsing Step := do
  match tags.tag? name with
  | some (.conditional negated) =>
    let condition ← Parsing.condition name markup
    return .proceed (b.enter (.opened negated name markup condition))
  | some (.leaf kind) => return .proceed (b.push (.leaf kind name markup))
  | none =>
    match b.frames with
    | [] => return .stop name markup
    | f :: outer => return .proceed (← innerTag b f outer name markup)

/-- Reads a chunk. -/
def chunk (tags : Registry) (b : Builder) : Chunk → Parsing Step
  | .text s => return .proceed (b.push (.text s))
  | .output markup => do
    return .proceed (b.push (.output markup (← Parsing.expr markup)))
  | .tag name markup => tag tags b name markup
  | .broken s => refuse (.unterminatedTag s)

/-- How the reading of a body ended: the nodes it holds, the chunks not
read, and the unknown tag it stopped at, if it did not fail. -/
structure Outcome where
  nodes : List Node
  rest : List String
  result : Except Failure (Option (String × String))

/-- Reads chunks into a body. What was read before a failure stays. -/
def readFrom (tags : Registry) : List String → Builder →
    StateM Reading Outcome
  | [], b =>
    return {
      nodes := b.nodes.reverse
      rest := []
      result := match b.frames with
        | [] => .ok none
        | f :: _ => .error (.malformed (.unclosedBlock f.name)) }
  | s :: rest, b => do
    match ← (chunk tags b (.ofString s)).run with
    | .ok (.proceed b) => readFrom tags rest b
    | .ok (.stop name markup) =>
      return ⟨b.nodes.reverse, rest, .ok (some (name, markup))⟩
    | .error failure => return ⟨b.nodes.reverse, rest, .error failure⟩

end Body

/-- A body that can be read in several goes until it is finished. -/
structure Body where
  nodes : List Node
  finished : Bool

namespace Body

/-- The body without nodes. -/
def empty : Body := ⟨[], false⟩

/-- Reads chunks until a tag that the body does not know; answers that
tag, if there is one. The body after it and the chunks not read yet are
there whether the reading fails or not. -/
def read (tags : Registry) (body : Body) (chunks : List String) :
    StateM Reading (Except Failure (Option (String × String)) × Body ×
      List String) := do
  if body.finished then return (.error .finishedBody, body, chunks)
  else
    let outcome ← readFrom tags chunks (.ofNodes body.nodes)
    return (outcome.result, { body with nodes := outcome.nodes },
      outcome.rest)

/-- Whether a body writes nothing but blanks. -/
def isBlank (body : Body) : Bool := Node.allBlank body.nodes

/-- The body without its blank texts, which can be read on. -/
def dropBlankTexts (body : Body) : Body :=
  ⟨Node.dropBlankTexts body.nodes, false⟩

/-- The finished body. -/
def finish (body : Body) : Body := { body with finished := true }

end Body
end Stencil
