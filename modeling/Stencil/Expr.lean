/-
Expressions: what an operand in markup denotes before it is evaluated.

An expression is a constant, a path into the data, or a range whose
bounds are found out at rendering time. A path is a root name followed by
steps; both the root and the keys of the steps are expressions.
-/
import Stencil.Value

namespace Stencil

mutual

/-- An expression. -/
inductive Expr
  /-- A value that needs no data. -/
  | const (value : Value)
  /-- A path into the data. -/
  | path (path : Path)
  /-- The range between two bounds, the second included. -/
  | range (first last : Expr)

/-- A path: the name it starts from, then one step after the other. -/
inductive Path
  /-- The value of a name. -/
  | root (name : Expr)
  /-- What a path leads to, and from there a key. The command is a hint
  for values that hold no such key. -/
  | step (path : Path) (key : Expr) (command : Option Command)

end

deriving instance DecidableEq for Expr, Path
deriving instance Repr for Expr, Path

instance : Inhabited Expr := ⟨.const .nil⟩

namespace Path

/-- The root name of a path. -/
def rootName : Path → Expr
  | .root name => name
  | .step path _ _ => path.rootName

/-- The steps of a path, first to last. -/
def steps : Path → List (Expr × Option Command)
  | .root _ => []
  | .step path key command => path.steps ++ [(key, command)]

end Path

namespace Expr

/-- Whether an expression is evaluated against the data, and is not a
value already. -/
def isOpen : Expr → Bool
  | .const _ => false
  | _ => true

end Expr

-- =============================================================== text

/-- The text of a constant where it stands for itself in an expression:
nil and the truth values by their words, the rest as values print. -/
def Value.operand (print : Value → String) : Value → String
  | .nil => "nil"
  | .bool b => if b then "true" else "false"
  | v => print v

mutual

/-- The text of an expression, given how values print. -/
def Expr.text (print : Value → String) : Expr → String
  | .const v => v.operand print
  | .path p => p.text print
  | .range first last =>
    "(" ++ first.text print ++ ".." ++ last.text print ++ ")"

/-- The text of a path: its root, then every key in brackets, a key that
is text also in quotes. -/
def Path.text (print : Value → String) : Path → String
  | .root name => name.text print
  | .step path key _ =>
    path.text print ++
      match key with
      | .const (.text s) => "['" ++ s ++ "']"
      | key => "[" ++ key.text print ++ "]"

end

mutual

/-- Whether an expression can be written, given which constants can. -/
def Expr.isWritable (ok : Value → Bool) : Expr → Bool
  | .const v => ok v
  | .path p => p.isWritable ok
  | .range first last => first.isWritable ok && last.isWritable ok

/-- Whether a path can be written, given which constants can. -/
def Path.isWritable (ok : Value → Bool) : Path → Bool
  | .root name => name.isWritable ok
  | .step path key _ => path.isWritable ok && key.isWritable ok

end

-- =========================================================== equality

mutual

/-- Structural equality, given equality of constants. -/
def Expr.same (eq : Value → Value → Bool) : Expr → Expr → Bool
  | .const a, .const b => eq a b
  | .path p, .path q => p.same eq q
  | .range a b, .range c d => a.same eq c && b.same eq d
  | _, _ => false

/-- Structural equality of paths, given equality of constants. -/
def Path.same (eq : Value → Value → Bool) : Path → Path → Bool
  | .root a, .root b => a.same eq b
  | .step p k c, .step q l d => p.same eq q && k.same eq l && c == d
  | _, _ => false

end

end Stencil
