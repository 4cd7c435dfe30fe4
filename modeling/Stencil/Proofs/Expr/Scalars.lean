/-
What markup spells refers to no object.

The constants in an expression that was read from markup are texts,
numbers, truth values and the like, never objects: an object has no
spelling. So an expression means the same wherever the objects stand.
-/
import Stencil.Proofs.Datum.Relocation
import Stencil.Proofs.Expr.Spelled

namespace Stencil

-- ============================================================= scalars

mutual

/-- All constants of an expression are scalars. -/
def Expr.Scalar : Expr → Prop
  | .const v => v.IsScalar
  | .path p => p.Scalar
  | .range first last => first.Scalar ∧ last.Scalar

/-- All constants of a path are scalars. -/
def Path.Scalar : Path → Prop
  | .root name => name.Scalar
  | .step path key _ => path.Scalar ∧ key.Scalar

end

/-- All constants of a clause are scalars. -/
def Clause.Scalar (c : Clause) : Prop := c.left.Scalar ∧ c.right.Scalar

/-- All constants of a condition are scalars. -/
def Condition.Scalar (c : Condition) : Prop :=
  c.head.Scalar ∧ ∀ link ∈ c.tail, link.2.Scalar

-- ============================================================= spelled

section

variable {ranges large : Prop}

/-- No object is spelled. -/
theorem Value.Spelled.isScalar {v : Value} (h : v.Spelled ranges large) :
    v.IsScalar := by
  rintro i rfl
  exact h

mutual

theorem Expr.Spelled.scalar :
    ∀ {e : Expr}, e.Spelled ranges large → e.Scalar
  | .const _, h => Value.Spelled.isScalar h
  | .path _, h => Path.Spelled.scalar h
  | .range _ _, ⟨_, hfirst, hlast⟩ => ⟨hfirst.scalar, hlast.scalar⟩

theorem Path.Spelled.scalar :
    ∀ {p : Path}, p.Spelled ranges large → p.Scalar
  | .root _, h => Expr.Spelled.scalar h
  | .step _ _ _, ⟨hpath, hkey⟩ =>
    ⟨Path.Spelled.scalar hpath, Expr.Spelled.scalar hkey⟩

end

theorem Clause.Meets.scalar {c : Clause} (h : c.Spelled ranges large) :
    c.Scalar :=
  ⟨h.1.scalar, h.2.scalar⟩

theorem Condition.Meets.scalar {c : Condition} (h : c.Spelled ranges large) :
    c.Scalar :=
  ⟨h.1.scalar, fun link hlink => (h.2 link hlink).scalar⟩

end

/-- Markup spells no object in the lenient grammar. -/
theorem Expr.parseChars_scalar {markup : List Char} {e : Expr}
    (h : parseChars markup = .ok e) : e.Scalar := by
  have hspelled : e.Spelled True True :=
    parseChars_spelled (fun _ => True.intro) h
  exact hspelled.scalar

end Stencil
