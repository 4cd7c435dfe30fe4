/-
The text of data.

There are two: `display` is how a datum shows inside containers and in
messages, with text in quotes, and `print` how it reads by itself. They
differ for text, for the probes, for quoted expressions and for frozen
tables. What a template writes into its output is a third one,
`Store.output`, for which nil is empty and a list is its items written
one after the other.

The texts of data are those without a limit on the digits of integers. A
text of a value in a store is written only if all integers in it keep to
the limit (`isWritable`).
-/
import Stencil.Datum
import Stencil.Failure
import Stencil.Number.Shortest
import Stencil.Text.Utf8

namespace Stencil

/-- Floats are written positionally from 0.0001 up to 10 ^ 16, and else
with an exponent of at least two digits. -/
def floatLayout : FloatLayout :=
  { positionalFrom := -4, scientificFrom := 16, exponentWidth := 2 }

-- ========================================================== containers

/-- A tuple of shown items: one alone keeps a comma. -/
def tupleText : List String → String
  | [x] => "(" ++ x ++ ",)"
  | xs => "(" ++ ", ".intercalate xs ++ ")"

/-- A set of shown items. -/
def setText (xs : List String) : String :=
  if xs.isEmpty then "set()" else "\x7b" ++ ", ".intercalate xs ++ "\x7d"

/-- A table of shown entries. -/
def tableText (xs : List String) : String :=
  "\x7b" ++ ", ".intercalate xs ++ "\x7d"

/-- A frozen table of shown entries. -/
def frozenText (xs : List String) : String :=
  "mappingproxy(" ++ tableText xs ++ ")"

/-- A list of shown items. -/
def listText (xs : List String) : String :=
  "[" ++ ", ".intercalate xs ++ "]"

/-- How a container shows inside itself. -/
def Shape.againText : Shape → String
  | .list => listText ["..."]
  | .tuple => "(...)"
  | .set => "set(...)"
  | .table => tableText ["..."]
  | .frozen => frozenText ["..."]

-- ============================================================ scalars

/-- How a probe shows. -/
def Probe.display (p : Probe) : String :=
  "MethodLiteral(name=" ++ Text.quote p.word ++ ")"

/-- How a command shows. -/
def Command.display (c : Command) : String :=
  "<Command." ++ c.word.toUpper ++ ": " ++ Text.quote c.word ++ ">"

/-- How a scalar shows. -/
def Value.display : Value → String
  | .nil => "None"
  | .bool b => if b then "True" else "False"
  | .int n => toString n
  | .float x => floatLayout.print x
  | .text s => Text.quote s
  | .bytes bs => Text.quoteBytes bs
  | .range first stop =>
    "range(" ++ toString first ++ ", " ++ toString stop ++ ")"
  | .probe p => p.display
  | .object id => "<object " ++ toString id ++ ">"

/-- How a scalar reads by itself. -/
def Value.print : Value → String
  | .text s => s
  | .probe _ => ""
  | v => v.display

/-- How a scalar shows, if it can be written. -/
def Value.shown (v : Value) : Except Failure String :=
  written v.isWritable v.display

mutual

/-- How an expression shows. -/
def Expr.display : Expr → String
  | .const v => v.display
  | .path p =>
    let (root, steps) := p.displayParts
    "VariableLookup(name=" ++ root ++ ", lookups=" ++ tupleText steps ++ ")"
  | .range first last =>
    "RangeLookup(start=" ++ first.display ++ ", end=" ++ last.display ++ ")"

/-- How the root of a path and its steps show. -/
def Path.displayParts : Path → String × List String
  | .root name => (name.display, [])
  | .step path key command =>
    let (root, steps) := path.displayParts
    let command := match command with
      | some c => c.display
      | none => "None"
    (root, steps ++
      ["LookupStep(key=" ++ key.display ++ ", command=" ++ command ++ ")"])

end

-- =============================================================== data

namespace Datum

/-- The integer that a member of a set is sorted by, if it is one. -/
def sortKey? : Datum → Option Int
  | .atom (.int n) => some n
  | _ => none

/-- The shown members of a set in the order they are written. The host writes
them in the order of its hash table, which is not known here. Here integers
ascend and other members stay in place, whatever the order there. -/
def arrange (members : List (Datum × String)) : List String :=
  (members.mergeSort fun a b =>
    match a.1.sortKey?, b.1.sortKey? with
    | some m, some n => m ≤ n
    | _, _ => true).map Prod.snd

mutual

/-- How a datum shows inside containers and in messages. -/
def display : Datum → String
  | .atom v => v.display
  | .list _ items => listText (displayAll items)
  | .tuple _ items => tupleText (displayAll items)
  | .set _ items => setText (arrange (items.zip (displayAll items)))
  | .table _ entries => tableText (displayEntries entries)
  | .frozen _ entries => frozenText (displayEntries entries)
  | .host _ _ => "<HostValue>"
  | .handle _ label => "<opaque " ++ label ++ ">"
  | .drop _ _ _ => "<HostDrop>"
  | .deferred _ label _ => "<deferred " ++ label ++ ">"
  | .quoted _ expr => expr.display
  | .again _ shape => shape.againText

/-- How the items of a container show. -/
def displayAll : List Datum → List String
  | [] => []
  | d :: rest => display d :: displayAll rest

/-- How the entries of a table show. -/
def displayEntries : List (Datum × Datum) → List String
  | [] => []
  | (k, v) :: rest => (display k ++ ": " ++ display v) :: displayEntries rest

end

/-- How a datum reads by itself. A frozen table reads like any
other. -/
def print : Datum → String
  | .atom v => v.print
  | .quoted _ expr => expr.text Value.print
  | .frozen _ entries => tableText (displayEntries entries)
  | d => d.display

mutual

/-- Whether a datum can be written: all integers that its text shows
can. -/
def isWritable : Datum → Bool
  | .atom v => v.isWritable
  | .list _ items | .tuple _ items | .set _ items => allWritable items
  | .table _ entries | .frozen _ entries => entriesWritable entries
  | .quoted _ expr => expr.isWritable Value.isWritable
  | .host .. | .handle .. | .drop .. | .deferred .. | .again .. => true

/-- Whether all of the data can be written. -/
def allWritable : List Datum → Bool
  | [] => true
  | d :: rest => isWritable d && allWritable rest

/-- Whether the keys and values of all entries can be written. -/
def entriesWritable : List (Datum × Datum) → Bool
  | [] => true
  | (k, v) :: rest => isWritable k && isWritable v && entriesWritable rest

end

end Datum

-- ============================================================== store

namespace Store

/-- Whether a value can be written. -/
def isWritable (store : Store) (v : Value) : Bool :=
  (store.datum v).isWritable

/-- How a value shows. -/
def display (store : Store) (v : Value) : Except Failure String :=
  written (store.isWritable v) (store.datum v).display

/-- How a value reads by itself. -/
def print (store : Store) (v : Value) : Except Failure String :=
  written (store.isWritable v) (store.datum v).print

/-- What a scalar writes into the output of a template. -/
def outputScalar : Value → Except Failure String
  | .nil => .ok ""
  | .bool b => .ok (if b then "true" else "false")
  | .bytes bs => .ok (Text.Utf8.decode bs)
  | .range first stop =>
    written (Numeral.isWritable first && Numeral.isWritable (stop - 1))
      (toString first ++ ".." ++ toString (stop - 1))
  | v => written v.isWritable v.print

/-- What a value writes into the output, its items to the given depth. -/
def outputTo (store : Store) : (depth : Nat) → Value → Except Failure String
  | 0, _ => .error .tooDeep
  | depth + 1, v =>
    match store.object? v with
    | some (.list items) | some (.tuple items) => do
      return String.join (← items.mapM (store.outputTo depth))
    | some _ => store.print v
    | none => outputScalar v

/-- What a value writes into the output of a template: nothing for nil,
the words of the truth values, text as it is, and the items of a list one
after the other. Lists in each other are fewer than there are objects,
unless a list contains itself, which writes without end. -/
def output (store : Store) (v : Value) : Except Failure String :=
  store.outputTo (store.size + 1) v

-- ======================================================== expressions

/-- The text of an expression over the values of a store. -/
def exprText (store : Store) (e : Expr) : Except Failure String :=
  written (e.isWritable store.isWritable)
    (e.text fun v => (store.datum v).print)

end Store
end Stencil
