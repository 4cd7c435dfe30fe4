/-
The values that templates compute with.

A value is a scalar, held as it is, or an object of a store, known by its
place there. Containers and host objects are objects: they can be shared,
they are told apart by identity, and lists and tables can change
under the values that refer to them.
-/
import Stencil.Number.Numeral

namespace Stencil

/-- The place of an object in its store. -/
abbrev ObjectId := Nat

/-- The literals `empty` and `blank`. They stand for no value: to compare
with one is to ask whether the other side is empty, or blank. -/
inductive Probe
  /-- Asks whether something is empty. -/
  | empty
  /-- Asks whether something is blank. -/
  | blank
  deriving DecidableEq, Repr

/-- The word that stands for a probe in markup. -/
def Probe.word : Probe → String
  | .empty => "empty"
  | .blank => "blank"

/-- A value. -/
inductive Value
  /-- The absence of a value. -/
  | nil
  /-- A truth value. -/
  | bool (b : Bool)
  /-- An integer of any size. -/
  | int (n : Int)
  /-- A floating-point number. -/
  | float (x : Binary64)
  /-- A text, a sequence of Unicode scalar values. -/
  | text (s : String)
  /-- Raw bytes. -/
  | bytes (bs : List UInt8)
  /-- The integers from `first` up to and without `stop`. -/
  | range (first stop : Int)
  /-- One of the literals that ask instead of stating. -/
  | probe (p : Probe)
  /-- The object at a place of the store. -/
  | object (id : ObjectId)
  deriving DecidableEq, Repr

namespace Value

/-- Only nil and false fail a condition: zero, empty text and empty
containers hold. -/
def isTruthy : Value → Bool
  | .nil | .bool false => false
  | _ => true

/-- Integers count as positions in a sequence; truth values do not. -/
def isIndex : Value → Bool
  | .int _ => true
  | _ => false

/-- Whether a value can be written: the integers that its text shows must
not have too many digits. -/
def isWritable : Value → Bool
  | .int n => Numeral.isWritable n
  | .range first stop => Numeral.isWritable first && Numeral.isWritable stop
  | _ => true

end Value

-- ======================================================= literal words

/-- The words in markup that denote values, with what they denote. -/
def literalWords : List (String × Value) :=
  [("nil", .nil), ("null", .nil), ("true", .bool true),
    ("false", .bool false), ("empty", .probe .empty),
    ("blank", .probe .blank)]

/-- The value that a literal word denotes. -/
def literal? (word : String) : Option Value := literalWords.lookup word

-- =========================================================== commands

/-- The operations that a path can ask of a value by name, where the
value holds no key of that name. -/
inductive Command
  /-- How many items or characters there are. -/
  | size
  /-- The first item or entry. -/
  | first
  /-- The last item. -/
  | last
  deriving DecidableEq, Repr

namespace Command

/-- The name of a command. -/
def word : Command → String
  | .size => "size"
  | .first => "first"
  | .last => "last"

/-- The command of a name. -/
def ofWord? : String → Option Command
  | "size" => some .size
  | "first" => some .first
  | "last" => some .last
  | _ => none

theorem ofWord?_word (c : Command) : ofWord? c.word = some c := by
  cases c <;> rfl

end Command
end Stencil
