/-
The command: reads its arguments and the template, renders it, and writes
the outcome.
-/
import Stencil.CommandLine.Run

namespace Stencil.CommandLine

/-- The line that says how the command is used. -/
def usage : String :=
  "usage: stencil [-h] [--strict | --warn] [-S] [-c] file [args ...]"

/-- The source that is to be rendered. -/
def readSource (file : String) : IO String := do
  if file == "-" then (← IO.getStdin).readToEnd
  else return sourceOfFile (← IO.FS.readFile file)

/-- Reads the template, renders it and writes the outcome. -/
def execute (settings : Settings) : IO UInt32 := do
  let stderr ← IO.getStderr
  match (run settings (← readSource settings.file)).run (.fresh false) with
  | (.ok report, world) =>
    for entry in world.journal.toList do
      stderr.putStrLn entry.2
    for line in report.errors do
      stderr.putStrLn line
    (← IO.getStdout).putStr report.output
    return report.exitCode.toUInt32
  | (.error failure, _) =>
    stderr.putStrLn failure.message
    return 1

/-- Does what the arguments ask for, and answers the exit code. -/
def start (arguments : List String) : IO UInt32 := do
  match request arguments with
  | .help =>
    IO.println usage
    return 0
  | .refused =>
    (← IO.getStderr).putStrLn usage
    return 2
  | .run settings => execute settings

end Stencil.CommandLine

/-- The command. -/
def main (arguments : List String) : IO UInt32 :=
  Stencil.CommandLine.start arguments
