/-
The arguments of the command.

    stencil [-h] [--strict | --warn] [-S] [-c] file [key=value ...]

Long options may be cut short as long as they stay unique, and short ones
may be run together. The file and the assignments stand in one row: the
first arguments that are no options, up to the next option. Two dashes end
the options. What looks like an option is one, unless it is a negative
number or holds a space.
-/
import Stencil.CommandLine.Assignment
import Stencil.Template.Parsing

namespace Stencil.CommandLine

open Text

/-- The options, none of which takes an argument. -/
inductive Flag
  | help
  | strict
  | warn
  | strictVariables
  | dumpContext
  deriving DecidableEq, Repr

/-- The spellings of the options. -/
def flags : List (String × Flag) :=
  [("-h", .help), ("--help", .help), ("--strict", .strict),
    ("--warn", .warn), ("-S", .strictVariables),
    ("--strict-variables", .strictVariables), ("-c", .dumpContext),
    ("--dump-ctx", .dumpContext)]

/-- What one argument is: no option, or options, of which the last may be
unknown. An option that is refused is cut too short, or is given a
value. -/
inductive Argument
  | plain (text : String)
  | options (flags : List Flag) (known : Bool)
  | refused
  deriving DecidableEq, Repr

-- ====================================================== one argument

/-- Whether a text is a negative number. -/
def isNegativeNumber (cs : List Char) : Bool :=
  match cs with
  | '-' :: rest =>
    Numeral.isDigits rest ||
      match rest.dropWhile isDigit with
      | '.' :: part => Numeral.isDigits part
      | _ => false
  | _ => false

/-- The options that are run together behind a first one. They end at a
letter that is no option, and neither a dash nor a value may follow. -/
def runTogether (first : Flag) : List Char → Argument
  | [] => .options [first] true
  | c :: rest =>
    if c == '-' || c == '=' then .refused
    else match flags.lookup (String.ofList ['-', c]) with
      | none => .options [first] false
      | some flag =>
        match runTogether flag rest with
        | .options more known => .options (first :: more) known
        | other => other

/-- A long option that may have been cut short. It takes no value. -/
def longOption (cs : List Char) : Argument :=
  let name := cs.takeWhile (· != '=')
  let hasValue := name.length < cs.length
  let meant := match flags.lookup (String.ofList name) with
    | some flag => [flag]
    | none => (flags.filter fun f => name.isPrefixOf f.1.toList).map Prod.snd
  match meant with
  | [] => .options [] false
  | [flag] => if hasValue then .refused else .options [flag] true
  | _ => .refused

/-- What an argument that starts with a dash and goes on names. -/
def optionsOf : List Char → Argument
  | '-' :: '-' :: rest => longOption ('-' :: '-' :: rest)
  | '-' :: c :: rest =>
    match flags.lookup (String.ofList ['-', c]) with
    | some flag => runTogether flag rest
    | none => .options [] false
  | _ => .options [] false

/-- What an argument is. One that names no option is none if it is a
negative number or holds a space. -/
def classify (argument : String) : Argument :=
  let cs := argument.toList
  match cs with
  | '-' :: _ :: _ =>
    match optionsOf cs with
    | .options [] false =>
      if isNegativeNumber cs || cs.contains ' ' then .plain argument
      else .options [] false
    | a => a
  | _ => .plain argument

-- ====================================================== all arguments

/-- What a command is to do. -/
structure Settings where
  file : String
  assigns : List (String × Value)
  mode : Mode
  strictVariables : Bool
  dumpContext : Bool
  deriving DecidableEq, Repr

/-- What the arguments ask for: help, a run, or nothing that makes
sense. -/
inductive Request
  | help
  | refused
  | run (settings : Settings)
  deriving DecidableEq, Repr

/-- What has been gathered from the arguments so far. -/
structure Gathered where
  positionals : Option (String × List (String × Value))
  strict : Bool
  warn : Bool
  strictVariables : Bool
  dumpContext : Bool
  superfluous : Bool
  deriving DecidableEq, Repr

namespace Gathered

/-- Nothing. -/
def nothing : Gathered := ⟨none, false, false, false, false, false⟩

/-- Takes options in turn, until one ends the matter. -/
def takeFlags (g : Gathered) : List Flag → Except Request Gathered
  | [] => .ok g
  | .help :: _ => .error .help
  | .strict :: rest =>
    if g.warn then .error .refused else takeFlags { g with strict := true } rest
  | .warn :: rest =>
    if g.strict then .error .refused else takeFlags { g with warn := true } rest
  | .strictVariables :: rest =>
    takeFlags { g with strictVariables := true } rest
  | .dumpContext :: rest => takeFlags { g with dumpContext := true } rest

/-- Takes the file and the assignments. -/
def takePositionals (g : Gathered) (file : String)
    (arguments : List String) : Except Request Gathered :=
  match arguments.mapM assignment with
  | .ok assigns => .ok { g with positionals := some (file, assigns) }
  | .error _ => .error .refused

/-- Takes a row of arguments that are no options. Only the first row is
wanted. -/
def takeRow (g : Gathered) : List String → Except Request Gathered
  | [] => .ok g
  | file :: rest =>
    if g.positionals.isSome then .ok { g with superfluous := true }
    else g.takePositionals file rest

/-- Takes the last row, with the arguments behind the two dashes, if there
are any. The dashes go with the row, and where the assignments hold two
dashes once more these go as well. -/
def takeLastRow (g : Gathered) (row : List String) :
    Option (List String) → Except Request Gathered
  | none => g.takeRow row
  | some behind =>
    if g.positionals.isSome then .ok { g with superfluous := true }
    else match row, behind with
      | [], [] => .ok { g with superfluous := true }
      | [], file :: rest => g.takePositionals file (rest.erase "--")
      | [file], rest => g.takePositionals file (rest.erase "--")
      | file :: more, rest => g.takePositionals file (more ++ rest)

/-- What was gathered amounts to. -/
def request (g : Gathered) : Request :=
  match g.positionals with
  | none => .refused
  | some (file, assigns) =>
    if g.superfluous then .refused
    else .run
      { file := file
        assigns := collect assigns
        mode :=
          if g.strict then .strict
          else if g.warn then .warn else .lax
        strictVariables := g.strictVariables
        dumpContext := g.dumpContext }

end Gathered

/-- Gathers arguments in front of two dashes, given the row of plain ones
read last and what stands behind the dashes. -/
def gather (g : Gathered) (row : List String)
    (behind : Option (List String)) : List Argument → Except Request Gathered
  | [] => g.takeLastRow row behind
  | .plain text :: rest => gather g (row ++ [text]) behind rest
  | .options flags known :: rest => do
    let g ← (← g.takeRow row).takeFlags flags
    gather { g with superfluous := g.superfluous || !known } [] behind rest
  | .refused :: _ => do
    let _ ← g.takeRow row
    .error .refused

/-- Whether an argument is cut too short to tell which option it is. Such
an argument is refused before anything else is done. -/
def isAmbiguous (argument : String) : Bool :=
  let name := argument.toList.takeWhile (· != '=')
  "--".toList.isPrefixOf name &&
    (flags.lookup (String.ofList name)).isNone &&
    (flags.filter fun f => name.isPrefixOf f.1.toList).length > 1

/-- What the arguments ask for. -/
def request (arguments : List String) : Request :=
  let front := arguments.takeWhile (· != "--")
  let behind := match arguments.drop front.length with
    | [] => none
    | _ :: rest => some rest
  if front.any isAmbiguous then .refused
  else match gather .nothing [] behind (front.map classify) with
    | .ok g => g.request
    | .error request => request

end Stencil.CommandLine
