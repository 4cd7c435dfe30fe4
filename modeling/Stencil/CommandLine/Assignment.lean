/-
Assignments on the command line: `key=value`, where the value is an
integer or a float if it reads as one, and else text.
-/
import Stencil.Failure
import Stencil.Number.Numeral
import Stencil.Value

namespace Stencil.CommandLine

/-- The value that a text on the command line gives. -/
def valueOf (s : String) : Value :=
  match Numeral.integer? s.toList with
  | some n => .int n
  | none =>
    match Numeral.float? s.toList with
    | some x => .float x
    | none => .text s

/-- The key and the value of an assignment. The key reaches to the first
equals sign and must not be empty. -/
def assignment (argument : String) : Except Failure (String × Value) :=
  let key := argument.toList.takeWhile (· != '=')
  match argument.toList.drop key.length with
  | _ :: value =>
    if key.isEmpty then .error (.notAnAssignment argument)
    else .ok (String.ofList key, valueOf (String.ofList value))
  | [] => .error (.notAnAssignment argument)

/-- Assignments as a table: of those with the same key, the first
gives the place and the last the value. -/
def collect (assigns : List (String × Value)) : List (String × Value) :=
  assigns.foldl
    (fun entries a =>
      if entries.any (·.1 == a.1) then
        entries.map fun e => if e.1 == a.1 then a else e
      else entries ++ [a]) []

end Stencil.CommandLine
