/-
What the command does: it renders a template with the assignments, prints
the text, and reports warnings and errors. In a file a carriage return, alone
or before a line feed, ends a line like a line feed does.
-/
import Stencil.CommandLine.Arguments
import Stencil.Template.Rendering

namespace Stencil

/-- A text whose line ends are all line feeds. -/
def Text.unifyNewlines : List Char → List Char
  | '\r' :: '\n' :: rest => '\n' :: unifyNewlines rest
  | '\r' :: rest => '\n' :: unifyNewlines rest
  | c :: rest => c :: unifyNewlines rest
  | [] => []

namespace CommandLine

/-- What a run writes: the text for the output, the lines for the error
output, and the exit code. -/
structure Report where
  exitCode : Nat
  output : String
  errors : List String
  deriving DecidableEq, Repr

/-- The line that reports an error. -/
def errorLine (failure : Failure) : String := "Error: " ++ failure.message

/-- The line that reports a warning. -/
def warningLine (error : SyntaxError) : String := "Warning: " ++ error.message

/-- The line that shows an assigned value. -/
def assignLine (a : String × Value) : Except Failure String := do
  return "  " ++ a.1 ++ " = " ++ (← a.2.shown)

/-- The outcome of a failure, after the lines written before it. The
library's own errors are reported, others end the command. -/
def fail (failure : Failure) (lines : List String) :
    Except Failure Report :=
  if failure.isOwn then .ok ⟨1, "", lines ++ [errorLine failure]⟩
  else .error failure

/-- Renders a template and reports, given its source. -/
def run (settings : Settings) (source : String) : Eval Report := do
  match ← Eval.attempt (Eval.readTemplate .standard settings.mode source) with
  | .error failure => Eval.ofExcept (fail failure [])
  | .ok template =>
    let warnings := template.warnings.map warningLine
    let assigns ← Eval.alloc
      (.table (settings.assigns.map fun a => (.text a.1, a.2)))
    match ← Eval.attempt
        (Eval.render (some assigns) [] settings.strictVariables template) with
    | .error failure => Eval.ofExcept (fail failure warnings)
    | .ok text =>
      let dump ← Eval.ofExcept
        ((if settings.dumpContext then settings.assigns else []).mapM
          assignLine)
      return ⟨0, text ++ "\n", warnings ++ dump⟩

/-- The source in a file, whose line ends are all read as line feeds. -/
def sourceOfFile (contents : String) : String :=
  String.ofList (Text.unifyNewlines contents.toList)

end CommandLine

end Stencil
