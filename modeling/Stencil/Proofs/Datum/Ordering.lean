/-
The four order relations are one order.

Seen from the other side a relation is its flip (`order?_flip`), and to be
smaller or equal is to be smaller, or else equal (`order?_lessEqual`). In
both cases the relations are defined of the same things, so one fails to
answer exactly where the other does. This is shown here of scalars and of
sets, on which the order of whole values rests.
-/
import Mathlib.Data.List.Basic
import Stencil.Datum.Equality

namespace Stencil

-- ============================================================== sequences

theorem lexOrder_swap (xs ys : List Nat) :
    lexOrder ys xs = (lexOrder xs ys).swap := by
  induction xs generalizing ys with
  | nil => cases ys <;> rfl
  | cons x xs ih =>
    cases ys with
    | nil => rfl
    | cons y ys =>
      rw [lexOrder, lexOrder]
      rcases Nat.lt_trichotomy x y with hxy | rfl | hxy
      · rw [if_pos hxy, if_neg (Nat.lt_asymm hxy), if_pos hxy]
        rfl
      · simp only [Nat.lt_irrefl, if_false]
        exact ih ys
      · rw [if_pos hxy, if_neg (Nat.lt_asymm hxy), if_pos hxy]
        rfl

theorem lexOrder_eq_iff {xs ys : List Nat} :
    lexOrder xs ys = .eq ↔ xs = ys := by
  induction xs generalizing ys with
  | nil => cases ys <;> simp [lexOrder]
  | cons x xs ih =>
    cases ys with
    | nil => simp [lexOrder]
    | cons y ys =>
      rw [lexOrder, List.cons.injEq]
      split
      · next hlt => simp [Nat.ne_of_lt hlt]
      · split
        · next hlt => simp [Nat.ne_of_gt hlt]
        · next hle hge =>
          rw [ih, Nat.le_antisymm (Nat.not_lt.1 hge) (Nat.not_lt.1 hle)]
          simp

namespace Direction

theorem holds_flip_swap (d : Direction) (o : Ordering) :
    d.flip.holds o.swap = d.holds o := by
  cases d <;> cases o <;> rfl

/-- To compare as not greater is to compare as smaller, or as equal. -/
theorem holds_lessEqual (o : Ordering) :
    lessEqual.holds o = (less.holds o || o == .eq) := by
  cases o <;> rfl

end Direction

-- ================================================================ scalars

namespace Value

theorem codePoints_injective {s t : String} (h : codePoints s = codePoints t) :
    s = t :=
  String.toList_injective
    (List.map_injective_iff.2 (fun _ _ => Char.toNat_inj.1) h)

theorem orderPlain?_flip (d : Direction) (a b : Value) :
    b.orderPlain? d.flip a = a.orderPlain? d b := by
  cases a with
  | text s =>
    cases b with
    | text t =>
      rw [orderPlain?, orderPlain?, lexOrder_swap (codePoints s),
        Direction.holds_flip_swap]
    | _ => rfl
  | bytes s =>
    cases b with
    | bytes t =>
      rw [orderPlain?, orderPlain?, lexOrder_swap (s.map _),
        Direction.holds_flip_swap]
    | _ => rfl
  | _ => cases b <;> rfl

theorem orderPlain?_lessEqual (a b : Value) :
    a.orderPlain? .lessEqual b =
      (a.orderPlain? .less b).map (· || a.equalPlain b) := by
  cases a with
  | text s =>
    cases b with
    | text t =>
      have heq : (lexOrder (codePoints s) (codePoints t) == .eq) = (s == t) := by
        rw [Bool.eq_iff_iff, beq_iff_eq, beq_iff_eq, lexOrder_eq_iff]
        exact ⟨codePoints_injective, congrArg _⟩
      simp only [orderPlain?, Direction.holds_lessEqual, heq, equalPlain,
        Option.map_some]
    | _ => rfl
  | bytes s =>
    cases b with
    | bytes t =>
      have heq : (lexOrder (s.map UInt8.toNat) (t.map UInt8.toNat) == .eq) =
          (s == t) := by
        rw [Bool.eq_iff_iff, beq_iff_eq, beq_iff_eq, lexOrder_eq_iff]
        exact (List.map_injective_iff.2 fun _ _ => UInt8.toNat_inj.1).eq_iff
      simp only [orderPlain?, Direction.holds_lessEqual, heq, equalPlain,
        Option.map_some]
    | _ => rfl
  | _ => cases b <;> rfl

theorem order?_flip (d : Direction) (a b : Value) :
    b.order? d.flip a = a.order? d b := by
  unfold order?
  cases a.quantity? with
  | none =>
    cases b.quantity? with
    | none => exact orderPlain?_flip d a b
    | some q => exact orderPlain?_flip d a b
  | some p =>
    cases b.quantity? with
    | none => exact orderPlain?_flip d a b
    | some q => exact congrArg some (d.ofQuantities_flip p q)

theorem order?_lessEqual (a b : Value) :
    a.order? .lessEqual b = (a.order? .less b).map (· || a.equal b) := by
  unfold order? equal
  cases a.quantity? with
  | none =>
    cases b.quantity? with
    | none => exact orderPlain?_lessEqual a b
    | some q => exact orderPlain?_lessEqual a b
  | some p =>
    cases b.quantity? with
    | none => exact orderPlain?_lessEqual a b
    | some q => rfl

end Value

-- =================================================================== data

namespace Datum

/-- Sets have one order, by inclusion and length. -/
theorem orderSets_lessEqual (xs ys : List Datum) :
    orderSets .lessEqual xs ys =
      (orderSets .less xs ys || (xs.length == ys.length && subset xs ys)) := by
  cases hsub : subset xs ys with
  | false => simp [orderSets, hsub]
  | true =>
    simp only [orderSets, hsub, Bool.and_true]
    rw [Bool.eq_iff_iff]
    simp only [Bool.or_eq_true, decide_eq_true_eq, beq_iff_eq]
    exact Nat.le_iff_lt_or_eq

/-- Sets have one order, seen from either side. -/
theorem orderSets_flip (d : Direction) (xs ys : List Datum) :
    orderSets d.flip ys xs = orderSets d xs ys := by
  cases d <;> rfl

end Datum
end Stencil
