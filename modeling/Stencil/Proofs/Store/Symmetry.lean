/-
Comparisons seen from either side.

Where two values are compared from both sides, and both comparisons answer,
the answers agree: equality is symmetric (`equal_agree`), an order is its
flip (`order?_agree`). To be smaller or equal is to be smaller, or else
equal (`order?_lessEqual`). Whether a comparison answers at all is another
matter. Two tables are compared by looking for the entries of the one among
those of the other, one after the other, so of values that contain
themselves one side may find a difference that the other one never comes
to.

For sets and tables the answers agree because keys are all different
(`covers_of_keys`). The values in tables can be anything, tables again
included, which is what the induction on the budget is for.
-/
import Stencil.Proofs.Store.Comparison
import Stencil.Proofs.Store.WellKeyed

namespace Stencil.Store

variable {store : Store} {v w : Value} {m n : Nat}

-- =========================================================== both sides

/-- What is compared of two values seen from the other side: of most kinds
the same with the sides exchanged, of tables perhaps not exchanged. -/
def Swapped : Counterparts → Counterparts → Prop
  | .lists xs ys, c => c = .lists ys xs
  | .tuples xs ys, c => c = .tuples ys xs
  | .sets xs ys, c => c = .sets ys xs
  | .tables es fs, c => c = .tables fs es ∨ c = .tables es fs
  | .quotes e f, c => c = .quotes f e

theorem counterparts?_swapped (store : Store) (v w : Value) :
    Option.Rel Swapped (store.counterparts? v w)
      (store.counterparts? w v) := by
  unfold counterparts?
  cases store.object? v with
  | none =>
    cases store.object? w with
    | none => exact .none
    | some o => cases o <;> exact .none
  | some o =>
    cases store.object? w with
    | none => cases o <;> exact .none
    | some o' =>
      cases o <;> cases o' <;> first
        | exact .none
        | exact .some rfl
        | exact .some (Or.inl rfl)
        | exact .some (Or.inr rfl)

/-- The keys and members that are compared are all different. -/
def AreKeyed (store : Store) : Counterparts → Prop
  | .sets xs ys => store.Keys xs ∧ store.Keys ys
  | .tables es fs =>
    store.Keys (es.map Prod.fst) ∧ store.Keys (fs.map Prod.fst)
  | _ => True

theorem WellKeyed.areKeyed (h : store.WellKeyed) {c : Counterparts}
    (hc : store.counterparts? v w = some c) : store.AreKeyed c := by
  unfold counterparts? at hc
  split at hc
  case h_3 hv hw | h_4 hv hw | h_5 hv hw =>
    cases hc
    exact ⟨h.keys hv, h.keys hw⟩
  case h_6 hv hw | h_7 hv hw =>
    cases hc
    exact ⟨h.keys hw, h.keys hv⟩
  case h_9 => cases hc
  all_goals
    cases hc
    trivial

-- ============================================================= equality

theorem inside_agree {equal equal' : Value → Value → Except Failure Bool}
    {b b' : Bool}
    (h : ∀ b b', equal v w = .ok b → equal' w v = .ok b' → b = b')
    (hb : inside equal v w = .ok b) (hb' : inside equal' w v = .ok b') :
    b = b' := by
  have hidentical : w.identical v = v.identical w := by
    cases v <;> cases w <;> simp [Value.identical, eq_comm]
  unfold inside at hb hb'
  rw [hidentical] at hb'
  split at hb
  · next hsame =>
    rw [if_pos hsame] at hb'
    exact Except.ok.inj (hb.symm.trans hb')
  · next hother =>
    rw [if_neg hother] at hb'
    exact h b b' hb hb'

theorem subset_iff {xs ys : List Value} :
    Datum.subset (xs.map store.datum) (ys.map store.datum) = true ↔
      ∀ x ∈ xs, ∃ y ∈ ys, store.sameKey x y = true := by
  simp [Datum.subset, sameKey]

/-- Sets of one size hold each other or neither does. -/
theorem subset_comm (hclosed : store.Closed []) {xs ys : List Value}
    (hx : store.Keys xs) (hy : store.Keys ys)
    (hlen : xs.length = ys.length) :
    Datum.subset (ys.map store.datum) (xs.map store.datum) =
      Datum.subset (xs.map store.datum) (ys.map store.datum) := by
  have hcovers {xs ys : List Value} (hx : store.Keys xs)
      (hy : store.Keys ys) (hlen : xs.length = ys.length)
      (h : ∀ x ∈ xs, ∃ y ∈ ys, store.sameKey x y = true) :
      ∀ y ∈ ys, ∃ x ∈ xs, store.sameKey y x = true := by
    intro y hys
    obtain ⟨x, hxs, hxy⟩ := covers_of_keys (k := id) hclosed
      (by rwa [List.map_id]) (by rwa [List.map_id]) hlen
      (fun _ _ => id) h y hys
    exact ⟨x, hxs, sameKey_symm hxy⟩
  rw [Bool.eq_iff_iff, subset_iff, subset_iff]
  exact ⟨hcovers hy hx hlen.symm, hcovers hx hy hlen⟩

/-- Where each entry of the one table has its partner in the other, so it is
from the other side, as far as that side answers. -/
theorem eq_true_of_equalEntries
    {eq eq' : Value → Value → Except Failure Bool}
    {es fs : List (Value × Value)} {b : Bool} (hclosed : store.Closed [])
    (hes : store.Keys (es.map Prod.fst)) (hfs : store.Keys (fs.map Prod.fst))
    (hlen : es.length = fs.length)
    (hagree : ∀ e ∈ es, ∀ f ∈ fs, ∀ b b', eq f.2 e.2 = .ok b →
      eq' e.2 f.2 = .ok b' → b = b')
    (h : store.equalEntries eq es fs = .ok true)
    (hb : store.equalEntries eq' fs es = .ok b) : b = true := by
  refine eq_true_of_partners hb fun f hf => ?_
  obtain ⟨e, he, hkey, hvalue⟩ := covers_of_keys hclosed hes hfs hlen
    (fun _ _ h => h.1) (exists_partner h) f hf
  refine ⟨e, he, sameKey_symm hkey, fun hfalse => ?_⟩
  cases hagree e he f hf _ _ hvalue hfalse

theorem equalTables_agree {eq : Value → Value → Except Failure Bool}
    {es fs : List (Value × Value)} {b b' : Bool} (hclosed : store.Closed [])
    (hes : store.Keys (es.map Prod.fst)) (hfs : store.Keys (fs.map Prod.fst))
    (hagree : ∀ e ∈ es, ∀ f ∈ fs, ∀ b b', eq f.2 e.2 = .ok b →
      eq e.2 f.2 = .ok b' → b = b')
    (hb : store.equalTables eq es fs = .ok b)
    (hb' : store.equalTables eq fs es = .ok b') : b = b' := by
  unfold equalTables at hb hb'
  rw [Bool.beq_comm] at hb'
  split at hb
  · next hlength =>
    rw [if_pos hlength] at hb'
    have hlen := beq_iff_eq.1 hlength
    rw [Bool.eq_iff_iff]
    constructor
    · rintro rfl
      exact eq_true_of_equalEntries hclosed hes hfs hlen hagree hb hb'
    · rintro rfl
      exact eq_true_of_equalEntries hclosed hfs hes hlen.symm
        (fun f hf e he b b' hb hb' => (hagree e he f hf b' b hb' hb).symm)
        hb' hb
  · next hlength =>
    rw [if_neg hlength] at hb'
    exact Except.ok.inj (hb.symm.trans hb')

/-- Two values are equal, or not, from whichever side they are compared. -/
theorem equalWithin_agree (hstore : store.WellKeyed) {b b' : Bool}
    (hb : store.equalWithin n v w = .ok b)
    (hb' : store.equalWithin n w v = .ok b') : b = b' := by
  induction n generalizing v w b b' with
  | zero => cases hb
  | succ n ih =>
    have hinside (x y : Value) (b b' : Bool)
        (h : inside (store.equalWithin n) x y = .ok b)
        (h' : inside (store.equalWithin n) y x = .ok b') : b = b' :=
      inside_agree (fun _ _ => ih) h h'
    have hswap := store.counterparts?_swapped v w
    unfold equalWithin at hb hb'
    cases hc : store.counterparts? v w with
    | none =>
      rw [hc] at hb hswap
      generalize store.counterparts? w v = c' at hb' hswap
      cases hswap
      obtain rfl : v.equal w = b := Except.ok.inj hb
      obtain rfl : w.equal v = b' := Except.ok.inj hb'
      exact Bool.eq_iff_iff.2 ⟨Value.equal_symm, Value.equal_symm⟩
    | some c =>
      have hkeyed := hstore.areKeyed hc
      rw [hc] at hb hswap
      generalize store.counterparts? w v = c' at hb' hswap
      obtain ⟨hswap⟩ := hswap
      cases c with
      | lists xs ys =>
        cases hswap
        dsimp only at hb hb'
        rw [Bool.beq_comm] at hb'
        split at hb
        · next hlength =>
          rw [if_pos hlength] at hb'
          exact equalItems_agree (fun x _ y _ => hinside x y) hb hb'
        · next hlength =>
          rw [if_neg hlength] at hb'
          exact Except.ok.inj (hb.symm.trans hb')
      | tuples xs ys =>
        cases hswap
        exact equalItems_agree (fun x _ y _ => hinside x y) hb hb'
      | sets xs ys =>
        cases hswap
        dsimp only at hb hb'
        rw [← Except.ok.inj hb, ← Except.ok.inj hb', Bool.beq_comm]
        cases hlength : ys.length == xs.length with
        | false => rfl
        | true =>
          rw [subset_comm hstore.closed hkeyed.2 hkeyed.1
            (beq_iff_eq.1 hlength)]
      | tables es fs =>
        rcases hswap with rfl | rfl
        · exact equalTables_agree hstore.closed hkeyed.1 hkeyed.2
            (fun e _ f _ => hinside f.2 e.2) hb hb'
        · exact Except.ok.inj (hb.symm.trans hb')
      | quotes e f =>
        cases hswap
        obtain rfl : e.same Value.equal f = b := Except.ok.inj hb
        obtain rfl : f.same Value.equal e = b' := Except.ok.inj hb'
        have hvalues (x y : Value) (h : x.equal y = true) :
            y.equal x = true := Value.equal_symm h
        exact Bool.eq_iff_iff.2
          ⟨Expr.same_symm hvalues e f, Expr.same_symm hvalues f e⟩

theorem equal_agree (hstore : store.WellKeyed) {b b' : Bool}
    (hb : store.equal v w = .ok b) (hb' : store.equal w v = .ok b') :
    b = b' :=
  equalWithin_agree hstore hb hb'

-- ================================================================= order

/-- An order and its flip are one comparison seen from either side. -/
theorem orderWithin_agree (hstore : store.WellKeyed) {d : Direction}
    {o o' : Option Bool} (ho : store.orderWithin d n v w = .ok o)
    (ho' : store.orderWithin d.flip n w v = .ok o') : o = o' := by
  induction n generalizing v w o o' with
  | zero => cases ho
  | succ n ih =>
    have hitems {xs ys : List Value}
        (ho : orderItems store.same (store.orderWithin d n) d xs ys = .ok o)
        (ho' : orderItems store.same (store.orderWithin d.flip n) d.flip ys
          xs = .ok o') : o = o' :=
      orderItems_agree
        (fun _ _ _ _ _ _ => inside_agree fun _ _ => equal_agree hstore)
        (fun _ _ _ _ _ _ => ih) ho ho'
    have hscalars (ho : Except.ok (v.order? d w) = .ok (ε := Failure) o)
        (ho' : Except.ok (w.order? d.flip v) = .ok (ε := Failure) o') :
        o = o' := by
      rw [Value.order?_flip] at ho'
      exact Except.ok.inj (ho.symm.trans ho')
    have hswap := store.counterparts?_swapped v w
    unfold orderWithin at ho ho'
    cases hc : store.counterparts? v w with
    | none =>
      rw [hc] at ho hswap
      generalize store.counterparts? w v = c' at ho' hswap
      cases hswap
      exact hscalars ho ho'
    | some c =>
      rw [hc] at ho hswap
      generalize store.counterparts? w v = c' at ho' hswap
      obtain ⟨hswap⟩ := hswap
      cases c with
      | lists xs ys | tuples xs ys =>
        cases hswap
        exact hitems ho ho'
      | sets xs ys =>
        cases hswap
        dsimp only at ho ho'
        rw [Datum.orderSets_flip] at ho'
        exact Except.ok.inj (ho.symm.trans ho')
      | tables es fs =>
        rcases hswap with rfl | rfl
        · exact hscalars ho ho'
        · exact hscalars ho ho'
      | quotes =>
        cases hswap
        exact hscalars ho ho'

theorem order?_agree (hstore : store.WellKeyed) {d : Direction}
    {o o' : Option Bool} (ho : store.order? d v w = .ok o)
    (ho' : store.order? d.flip w v = .ok o') : o = o' :=
  orderWithin_agree hstore ho ho'

/-- Where only items that differ are ordered, and those alike, smaller or
equal is smaller, or else all of them equal. -/
theorem orderItems_lessEqual
    {same : Value → Value → Except Failure Bool}
    {less lessEqual : Value → Value → Except Failure (Option Bool)}
    {xs ys : List Value} {o o' : Option Bool} {b : Bool}
    (hitems : ∀ x ∈ xs, ∀ y ∈ ys, ∀ o o', same x y = .ok false →
      less x y = .ok o → lessEqual x y = .ok o' → o' = o)
    (hb : b = true ↔ equalItems same xs ys = .ok true)
    (ho : orderItems same less .less xs ys = .ok o)
    (ho' : orderItems same lessEqual .lessEqual xs ys = .ok o') :
    o' = o.map (· || b) := by
  induction xs generalizing ys with
  | nil =>
    cases ys with
    | nil =>
      rw [← Except.ok.inj ho, ← Except.ok.inj ho', hb.2 rfl]
      rfl
    | cons =>
      rw [← Except.ok.inj ho, ← Except.ok.inj ho']
      rfl
  | cons x xs ih =>
    cases ys with
    | nil =>
      rw [← Except.ok.inj ho, ← Except.ok.inj ho']
      cases b with
      | false => rfl
      | true => cases hb.1 rfl
    | cons y ys =>
      obtain ⟨hfirst, hitems⟩ := forall_pairs_cons hitems
      rw [equalItems_cons_eq_ok] at hb
      rcases orderItems_cons_eq_ok.1 ho with ⟨hxy, ho⟩ | ⟨hxy, ho⟩
      · rcases orderItems_cons_eq_ok.1 ho' with ⟨-, ho'⟩ | ⟨hxy', -⟩
        · exact ih hitems (by simpa [hxy] using hb) ho ho'
        · cases hxy.symm.trans hxy'
      · rcases orderItems_cons_eq_ok.1 ho' with ⟨hxy', -⟩ | ⟨-, ho'⟩
        · cases hxy.symm.trans hxy'
        · -- the first items differ, so nothing is equal any more
          obtain rfl : b = false := by
            rw [Bool.eq_false_iff]
            simpa [hxy] using hb
          rw [hfirst o o' hxy ho ho']
          cases o with
          | none => rfl
          | some answer => simp

/-- Lists and tuples are equal where all their items are. -/
theorem equal_iff_equalItems {xs ys : List Value} {b : Bool}
    (hc : store.counterparts? v w = some (.lists xs ys) ∨
      store.counterparts? v w = some (.tuples xs ys))
    (hb : store.equal v w = .ok b) :
    b = true ↔ equalItems store.same xs ys = .ok true := by
  have hsame {b : Bool}
      (h : equalItems (inside (store.equalWithin (store.size * store.size)))
        xs ys = .ok b) : equalItems store.same xs ys = .ok b :=
    equalItems_imp (fun _ _ _ => inside_imp fun h =>
      equalWithin_mono h (Nat.le_succ _)) h
  have hiff (h : equalItems
      (inside (store.equalWithin (store.size * store.size))) xs ys = .ok b) :
      b = true ↔ equalItems store.same xs ys = .ok true := by
    rw [hsame h, Except.ok.injEq]
  unfold equal comparisonDepth equalWithin at hb
  rcases hc with hc | hc
  · rw [hc] at hb
    dsimp only at hb
    split at hb
    · exact hiff hb
    · next hlength =>
      obtain rfl := Except.ok.inj hb
      refine iff_of_false Bool.false_ne_true fun h => hlength ?_
      exact beq_iff_eq.2 (length_eq_of_equalItems h)
  · rw [hc] at hb
    exact hiff hb

/-- What has parts to compare has no order as it is. -/
theorem order?_eq_none {c : Counterparts}
    (hc : store.counterparts? v w = some c) (d : Direction) :
    v.order? d w = none := by
  cases v with
  | object i => cases w <;> rfl
  | _ => cases hc

/-- To be smaller or equal is to be smaller, or equal. -/
theorem orderWithin_lessEqual {b : Bool} {o o' : Option Bool}
    (hb : store.equal v w = .ok b)
    (ho : store.orderWithin .less n v w = .ok o)
    (ho' : store.orderWithin .lessEqual n v w = .ok o') :
    o' = o.map (· || b) := by
  induction n generalizing v w b o o' with
  | zero => cases ho
  | succ n ih =>
    have hitems (x y : Value) (o o' : Option Bool)
        (hsame : store.same x y = .ok false)
        (ho : store.orderWithin .less n x y = .ok o)
        (ho' : store.orderWithin .lessEqual n x y = .ok o') : o' = o := by
      unfold same inside at hsame
      split at hsame
      · cases hsame
      · rw [ih hsame ho ho']
        cases o with
        | none => rfl
        | some answer => simp
    unfold orderWithin at ho ho'
    cases hc : store.counterparts? v w with
    | none =>
      rw [hc] at ho ho'
      rw [equal, comparisonDepth, equalWithin, hc] at hb
      rw [← Except.ok.inj ho, ← Except.ok.inj ho', ← Except.ok.inj hb]
      exact Value.order?_lessEqual v w
    | some c =>
      rw [hc] at ho ho'
      cases c with
      | lists xs ys =>
        exact orderItems_lessEqual (fun x _ y _ => hitems x y)
          (equal_iff_equalItems (Or.inl hc) hb) ho ho'
      | tuples xs ys =>
        exact orderItems_lessEqual (fun x _ y _ => hitems x y)
          (equal_iff_equalItems (Or.inr hc) hb) ho ho'
      | sets xs ys =>
        rw [equal, comparisonDepth, equalWithin, hc] at hb
        rw [← Except.ok.inj ho, ← Except.ok.inj ho', ← Except.ok.inj hb,
          Datum.orderSets_lessEqual, List.length_map, List.length_map]
        rfl
      | tables | quotes =>
        rw [order?_eq_none hc] at ho ho'
        rw [← Except.ok.inj ho, ← Except.ok.inj ho']
        rfl

theorem order?_lessEqual {b : Bool} {o o' : Option Bool}
    (hb : store.equal v w = .ok b) (ho : store.order? .less v w = .ok o)
    (ho' : store.order? .lessEqual v w = .ok o') : o' = o.map (· || b) :=
  orderWithin_lessEqual hb ho ho'

end Stencil.Store
