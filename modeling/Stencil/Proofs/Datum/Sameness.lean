/-
Which data count as one is an equivalence.

Equality of scalars is symmetric and transitive, though not reflexive: what
is no number equals nothing. Data count as one if they are equal or are one
object. This is symmetric and transitive as well. The one thing to know for
it is that data at one place are alike wherever they are met: they have one
core (`Placed`).
-/
import Stencil.Datum.Equality
import Stencil.Proofs.Store.Keys

namespace Stencil

-- ============================================================== scalars

/-- Quantities are equal when they are the same number. -/
theorem Quantity.equal_iff {p q : Quantity} :
    p.equal q = true ↔ p ≠ .nan ∧ p = q := by
  cases p <;> simp [equal]

namespace Value

variable {a b c : Value}

theorem equalRanges_iff {a b c d : Int} :
    equalRanges a b c d = true ↔
      (b ≤ a ∧ d ≤ c) ∨ (a = c ∧ b = d) := by
  simp [equalRanges]

/-- What is no number is equal to itself seen from either side. -/
theorem equalPlain_symm (h : a.equalPlain b = true) :
    b.equalPlain a = true := by
  unfold equalPlain at h
  split at h
  · rfl
  · rw [beq_iff_eq] at h
    rw [h, equalPlain, beq_self_eq_true]
  · rw [beq_iff_eq] at h
    rw [h, equalPlain, beq_self_eq_true]
  · rw [equalRanges_iff] at h
    rw [equalPlain, equalRanges_iff]
    omega
  · rw [beq_iff_eq] at h
    rw [h, equalPlain, beq_self_eq_true]
  · rw [beq_iff_eq] at h
    rw [h, equalPlain, beq_self_eq_true]
  · cases h

theorem equalPlain_trans (h : a.equalPlain b = true)
    (h' : b.equalPlain c = true) : a.equalPlain c = true := by
  unfold equalPlain at h
  split at h
  · exact h'
  · exact beq_iff_eq.1 h ▸ h'
  · exact beq_iff_eq.1 h ▸ h'
  · cases c with
    | range =>
      rw [equalPlain, equalRanges_iff] at h'
      rw [equalRanges_iff] at h
      rw [equalPlain, equalRanges_iff]
      omega
    | _ => cases h'
  · exact beq_iff_eq.1 h ▸ h'
  · exact beq_iff_eq.1 h ▸ h'
  · cases h

/-- Values are equal when they are one number, or equal otherwise. -/
theorem equal_iff :
    a.equal b = true ↔
      (∃ p, p ≠ .nan ∧ a.quantity? = some p ∧ b.quantity? = some p) ∨
        a.equalPlain b = true := by
  have hplain {p : Quantity} (ha : a.quantity? = some p) :
      a.equalPlain b = false := by
    cases a with
    | bool | int | float => cases b <;> rfl
    | _ => cases ha
  unfold equal
  split
  · next p q ha hb =>
    rw [Quantity.equal_iff, ha, hb, hplain ha]
    constructor
    · rintro ⟨hp, rfl⟩
      exact Or.inl ⟨p, hp, rfl, rfl⟩
    · rintro (⟨r, hr, hp, hq⟩ | h)
      · cases hp
        cases hq
        exact ⟨hr, rfl⟩
      · cases h
  · next hnone =>
    constructor
    · exact Or.inr
    · rintro (⟨p, -, ha, hb⟩ | h)
      · exact absurd hb (hnone p p ha)
      · exact h

theorem equal_symm (h : a.equal b = true) : b.equal a = true := by
  rcases equal_iff.1 h with ⟨p, hp, ha, hb⟩ | h
  · exact equal_iff.2 (Or.inl ⟨p, hp, hb, ha⟩)
  · exact equal_iff.2 (Or.inr (equalPlain_symm h))

theorem equal_trans (h : a.equal b = true) (h' : b.equal c = true) :
    a.equal c = true := by
  have hmixed {p : Quantity} {x : Value} (hb : b.quantity? = some p) :
      b.equalPlain x = false ∧ x.equalPlain b = false := by
    cases b with
    | bool | int | float => cases x <;> exact ⟨rfl, rfl⟩
    | _ => cases hb
  rcases equal_iff.1 h with ⟨p, hp, ha, hb⟩ | h
  · rcases equal_iff.1 h' with ⟨q, -, hb', hc⟩ | h'
    · obtain rfl : p = q := Option.some.inj (hb.symm.trans hb')
      exact equal_iff.2 (Or.inl ⟨p, hp, ha, hc⟩)
    · rw [(hmixed hb).1] at h'
      cases h'
  · rcases equal_iff.1 h' with ⟨q, -, hb', -⟩ | h'
    · rw [(hmixed hb').2] at h
      cases h
    · exact equal_iff.2 (Or.inr (equalPlain_trans h h'))

end Value

-- ========================================================= expressions

section

variable {eq : Value → Value → Bool}

mutual

theorem Expr.same_symm
    (heq : ∀ a b, eq a b = true → eq b a = true) :
    ∀ a b : Expr, a.same eq b = true → b.same eq a = true
  | .const a, b, h => by
    cases b with
    | const b => exact heq a b h
    | _ => simp [Expr.same] at h
  | .path p, b, h => by
    cases b with
    | path q => exact Path.same_symm heq p q h
    | _ => simp [Expr.same] at h
  | .range first last, b, h => by
    cases b with
    | range first' last' =>
      simp only [Expr.same, Bool.and_eq_true] at h ⊢
      exact ⟨first.same_symm heq first' h.1, last.same_symm heq last' h.2⟩
    | _ => simp [Expr.same] at h

theorem Path.same_symm
    (heq : ∀ a b, eq a b = true → eq b a = true) :
    ∀ p q : Path, p.same eq q = true → q.same eq p = true
  | .root name, q, h => by
    cases q with
    | root name' => exact Expr.same_symm heq name name' h
    | step => simp [Path.same] at h
  | .step p key command, q, h => by
    cases q with
    | root => simp [Path.same] at h
    | step q key' command' =>
      simp only [Path.same, Bool.and_eq_true, beq_iff_eq] at h ⊢
      exact ⟨⟨p.same_symm heq q h.1.1, key.same_symm heq key' h.1.2⟩,
        h.2.symm⟩

end

mutual

theorem Expr.same_trans
    (heq : ∀ a b c, eq a b = true → eq b c = true → eq a c = true) :
    ∀ a b c : Expr, a.same eq b = true → b.same eq c = true →
      a.same eq c = true
  | .const a, b, c, h, h' => by
    cases b with
    | const b =>
      cases c with
      | const c => exact heq a b c h h'
      | _ => simp [Expr.same] at h'
    | _ => simp [Expr.same] at h
  | .path p, b, c, h, h' => by
    cases b with
    | path q =>
      cases c with
      | path r => exact Path.same_trans heq p q r h h'
      | _ => simp [Expr.same] at h'
    | _ => simp [Expr.same] at h
  | .range first last, b, c, h, h' => by
    cases b with
    | range first₁ last₁ =>
      cases c with
      | range first₂ last₂ =>
        simp only [Expr.same, Bool.and_eq_true] at h h' ⊢
        exact ⟨first.same_trans heq first₁ first₂ h.1 h'.1,
          last.same_trans heq last₁ last₂ h.2 h'.2⟩
      | _ => simp [Expr.same] at h'
    | _ => simp [Expr.same] at h

theorem Path.same_trans
    (heq : ∀ a b c, eq a b = true → eq b c = true → eq a c = true) :
    ∀ p q r : Path, p.same eq q = true → q.same eq r = true →
      p.same eq r = true
  | .root name, q, r, h, h' => by
    cases q with
    | root name₁ =>
      cases r with
      | root name₂ => exact Expr.same_trans heq name name₁ name₂ h h'
      | step => simp [Path.same] at h'
    | step => simp [Path.same] at h
  | .step p key command, q, r, h, h' => by
    cases q with
    | root => simp [Path.same] at h
    | step q key₁ command₁ =>
      cases r with
      | root => simp [Path.same] at h'
      | step r key₂ command₂ =>
        simp only [Path.same, Bool.and_eq_true, beq_iff_eq] at h h' ⊢
        exact ⟨⟨p.same_trans heq q r h.1.1 h'.1.1,
          key.same_trans heq key₁ key₂ h.1.2 h'.1.2⟩, h.2.trans h'.2⟩

end

end

-- ================================================================= data

namespace Datum

mutual

/-- Data at one place, down through tuples, have the core that is given for
the place. -/
def Placed (cores : ObjectId → Datum) : Datum → Prop
  | .tuple id items => .tuple id (coreAll items) = cores id ∧
    AllPlaced cores items
  | d => ∀ i, d.id? = some i → d.core = cores i

/-- All of the data are placed. -/
def AllPlaced (cores : ObjectId → Datum) : List Datum → Prop
  | [] => True
  | d :: rest => Placed cores d ∧ AllPlaced cores rest

end

variable {cores : ObjectId → Datum} {a b c : Datum}

theorem Placed.core_eq (h : a.Placed cores) {i : ObjectId}
    (hi : a.id? = some i) : a.core = cores i := by
  cases a with
  | tuple id items =>
    obtain rfl := Option.some.inj hi
    exact h.1
  | _ => exact h i hi

theorem allPlaced_iff {ds : List Datum} :
    AllPlaced cores ds ↔ ∀ d ∈ ds, d.Placed cores := by
  induction ds with
  | nil => simp [AllPlaced]
  | cons d ds ih => rw [AllPlaced, ih, List.forall_mem_cons]

theorem identical_iff :
    identical a b = true ↔ ∃ i, a.id? = some i ∧ b.id? = some i := by
  unfold identical
  split
  · next i j hi hj =>
    rw [beq_iff_eq, hi, hj]
    constructor
    · rintro rfl
      exact ⟨i, rfl, rfl⟩
    · rintro ⟨k, hk, hk'⟩
      exact Option.some.inj (hk.trans hk'.symm)
  · next hnone =>
    constructor
    · exact fun h => by cases h
    · rintro ⟨i, hi, hi'⟩
      exact absurd hi' (hnone i i hi)

/-- Data at one place count as one with the same data. -/
theorem Placed.core_eq_core (ha : a.Placed cores) (hb : b.Placed cores)
    (h : identical a b = true) : a.core = b.core := by
  obtain ⟨i, hi, hi'⟩ := identical_iff.1 h
  rw [ha.core_eq hi, hb.core_eq hi']

theorem same_iff : same a b = true ↔
    identical a b = true ∨ equal a b = true := by
  rw [same, Bool.or_eq_true]

/-- Counting as one is transitive if equality is. -/
theorem same_trans_of (ha : a.Placed cores) (hb : b.Placed cores)
    (hc : c.Placed cores)
    (hequal : equal a b = true → equal b c = true → equal a c = true)
    (h : same a b = true) (h' : same b c = true) : same a c = true := by
  rcases same_iff.1 h with hab | hab
  · rw [← same_core, ha.core_eq_core hb hab, same_core]
    exact h'
  · rcases same_iff.1 h' with hbc | hbc
    · rw [← same_core, ← hb.core_eq_core hc hbc, same_core]
      exact h
    · exact same_iff.2 (Or.inr (hequal hab hbc))

mutual

/-- Equality of data is transitive. -/
theorem equal_trans : ∀ {a b c : Datum}, a.Placed cores →
    b.Placed cores → c.Placed cores →
    equal a b = true → equal b c = true → equal a c = true
  | .atom v, b, c, _, _, _, h, h' => by
    cases b <;> simp only [equal, Bool.false_eq_true] at h
    cases c <;> simp only [equal, Bool.false_eq_true] at h'
    simpa only [equal] using Value.equal_trans h h'
  | .tuple _ xs, b, c, ha, hb, hc, h, h' => by
    cases b <;> simp only [equal, Bool.false_eq_true] at h
    cases c <;> simp only [equal, Bool.false_eq_true] at h'
    simpa only [equal] using equalItems_trans ha.2 hb.2 hc.2 h h'
  | .quoted _ e, b, c, _, _, _, h, h' => by
    cases b <;> simp only [equal, Bool.false_eq_true] at h
    cases c <;> simp only [equal, Bool.false_eq_true] at h'
    have hvalues (u v w : Value) (huv : u.equal v = true)
        (hvw : v.equal w = true) : u.equal w = true :=
      Value.equal_trans huv hvw
    simpa only [equal] using Expr.same_trans hvalues _ _ _ h h'
  | .host i _, b, c, _, _, _, h, h' | .handle i _, b, c, _, _, _, h, h'
  | .drop i _ _, b, c, _, _, _, h, h'
  | .deferred i _ _, b, c, _, _, _, h, h' => by
    cases b <;> simp only [equal, Bool.false_eq_true, beq_iff_eq] at h
    cases c <;> simp only [equal, Bool.false_eq_true, beq_iff_eq] at h'
    simpa only [equal, beq_iff_eq] using h.trans h'
  | .list .., b, _, _, _, _, h, _ | .set .., b, _, _, _, _, h, _
  | .table .., b, _, _, _, _, h, _ | .frozen .., b, _, _, _, _, h, _
  | .again .., b, _, _, _, _, h, _ => by
    cases b <;> simp only [equal, Bool.false_eq_true] at h

/-- Equality of tuples, item by item, is transitive. -/
theorem equalItems_trans : ∀ {xs ys zs : List Datum},
    AllPlaced cores xs → AllPlaced cores ys → AllPlaced cores zs →
    equalItems xs ys = true → equalItems ys zs = true →
    equalItems xs zs = true
  | [], ys, zs, _, _, _, h, h' => by
    cases ys with
    | nil => exact h'
    | cons => simp only [equalItems, Bool.false_eq_true] at h
  | x :: xs, ys, zs, ⟨hx, hxs⟩, hy, hz, h, h' => by
    cases ys with
    | nil => simp only [equalItems, Bool.false_eq_true] at h
    | cons y ys =>
      cases zs with
      | nil => simp only [equalItems, Bool.false_eq_true] at h'
      | cons z zs =>
        simp only [equalItems, Bool.and_eq_true] at h h' ⊢
        exact ⟨same_trans_of hx hy.1 hz.1 (equal_trans hx hy.1 hz.1)
          h.1 h'.1, equalItems_trans hxs hy.2 hz.2 h.2 h'.2⟩

end

theorem same_trans (ha : a.Placed cores) (hb : b.Placed cores)
    (hc : c.Placed cores) (h : same a b = true) (h' : same b c = true) :
    same a c = true :=
  same_trans_of ha hb hc (equal_trans ha hb hc) h h'

/-- Counting as one is symmetric if equality is. -/
theorem same_symm_of (hequal : equal a b = true → equal b a = true)
    (h : same a b = true) : same b a = true := by
  rcases same_iff.1 h with hab | hab
  · obtain ⟨i, hi, hi'⟩ := identical_iff.1 hab
    exact same_iff.2 (Or.inl (identical_iff.2 ⟨i, hi', hi⟩))
  · exact same_iff.2 (Or.inr (hequal hab))

mutual

/-- Equality of data is symmetric. -/
theorem equal_symm : ∀ {a b : Datum},
    equal a b = true → equal b a = true
  | .atom v, b, h => by
    cases b <;> simp only [equal, Bool.false_eq_true] at h
    simpa only [equal] using Value.equal_symm h
  | .tuple _ xs, b, h => by
    cases b <;> simp only [equal, Bool.false_eq_true] at h
    simpa only [equal] using equalItems_symm h
  | .quoted _ e, b, h => by
    cases b <;> simp only [equal, Bool.false_eq_true] at h
    simpa only [equal] using
      Expr.same_symm (fun _ _ => Value.equal_symm) _ _ h
  | .host i _, b, h | .handle i _, b, h | .drop i _ _, b, h
  | .deferred i _ _, b, h => by
    cases b <;> simp only [equal, Bool.false_eq_true, beq_iff_eq] at h
    simpa only [equal, beq_iff_eq] using h.symm
  | .list .., b, h | .set .., b, h | .table .., b, h | .frozen .., b, h
  | .again .., b, h => by
    cases b <;> simp only [equal, Bool.false_eq_true] at h

/-- Equality of tuples, item by item, is symmetric. -/
theorem equalItems_symm : ∀ {xs ys : List Datum},
    equalItems xs ys = true → equalItems ys xs = true
  | [], ys, h => by
    cases ys with
    | nil => exact h
    | cons => simp only [equalItems, Bool.false_eq_true] at h
  | x :: xs, ys, h => by
    cases ys with
    | nil => simp only [equalItems, Bool.false_eq_true] at h
    | cons y ys =>
      simp only [equalItems, Bool.and_eq_true] at h ⊢
      exact ⟨same_symm_of equal_symm h.1, equalItems_symm h.2⟩

end

theorem same_symm (h : same a b = true) : same b a = true :=
  same_symm_of equal_symm h

end Datum

end Stencil
