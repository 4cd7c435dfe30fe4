/-
The journal: what is told about reading and rendering while it goes on.

Warnings are always told. The finer notes, which follow every step, are
told only when the journal is tracing. The tokens of a markup are noted
when they are first found; they are kept for the markups read last, and
not noted again as long as they are kept.
-/

namespace Stencil

/-- How important an entry is. -/
inductive Level
  | debug
  | warning
  deriving DecidableEq, Repr

/-- What has been told so far, the last entry first, and the markups
whose tokens are kept, the one read last first. -/
structure Journal where
  tracing : Bool
  entries : List (Level × String)
  kept : List String
  deriving DecidableEq, Repr

namespace Journal

/-- A journal in which nothing has been told. -/
def fresh (tracing : Bool) : Journal := ⟨tracing, [], []⟩

/-- For how many markups the tokens are kept. -/
def capacity : Nat := 128

/-- Tells a warning. -/
def warn (j : Journal) (message : String) : Journal :=
  { j with entries := (.warning, message) :: j.entries }

/-- Tells a finer note, when tracing. -/
def note (j : Journal) (message : Unit → String) : Journal :=
  if j.tracing then { j with entries := (.debug, message ()) :: j.entries }
  else j

/-- Tells a finer note that may be impossible to write, when tracing. What
cannot be written is left out. -/
def noteWritten (j : Journal) (message : Unit → Option String) : Journal :=
  if j.tracing then
    match message () with
    | some text => { j with entries := (.debug, text) :: j.entries }
    | none => j
  else j

/-- Tells finer notes, when tracing. -/
def noteAll (j : Journal) (messages : Unit → List String) : Journal :=
  if j.tracing then
    (messages ()).foldl (fun j message => j.note fun _ => message) j
  else j

/-- Tells of the tokens of a markup, unless they are kept. -/
def noteTokens (j : Journal) (markup : String) (message : Unit → String) :
    Journal :=
  let told := if j.kept.contains markup then j else j.note message
  { told with
    kept := (markup :: j.kept.filter (· != markup)).take capacity }

/-- All entries, in the order they were told. -/
def toList (j : Journal) : List (Level × String) := j.entries.reverse

end Journal
end Stencil
