/-
Comparisons that answer.

A comparison goes down two values side by side, so it answers as soon as the
ways down from one of them end: its budget is then no reason to stop
(`equal_succeeds`, `order_succeeds`). A larger budget changes no answer, and
neither does the place of the objects. Both come from what is true of lists
alone: to compare moved items answers what comparing the items did.

The comparisons of items are abstract in the first part, which says of each
kind of list what it takes to answer and what the answer follows from.
-/
import Stencil.Proofs.Datum.Ordering
import Stencil.Proofs.Sequence
import Stencil.Proofs.Store.Acyclic

namespace Stencil

theorem forall_pairs_cons {α : Type} {P : α → α → Prop} {x y : α}
    {xs ys : List α} (h : ∀ a ∈ x :: xs, ∀ b ∈ y :: ys, P a b) :
    P x y ∧ ∀ a ∈ xs, ∀ b ∈ ys, P a b :=
  ⟨h x (List.mem_cons_self ..) y (List.mem_cons_self ..), fun a ha b hb =>
    h a (List.mem_cons_of_mem _ ha) b (List.mem_cons_of_mem _ hb)⟩

/-- An outcome is an answer. -/
def Succeeds {α : Type} (x : Except Failure α) : Prop := ∃ a, x = .ok a

-- ============================================================== searching

section

variable {α β : Type} {p : α → Except Failure Bool}
  {q : β → Except Failure Bool} {m : α → β} {xs : List α} {b : Bool}

/-- A search stops at the first that is found. -/
theorem anyM_cons_eq_ok {x : α} :
    (x :: xs).anyM p = .ok b ↔
      p x = .ok true ∧ b = true ∨ p x = .ok false ∧ xs.anyM p = .ok b := by
  rw [List.anyM]
  cases p x with
  | error f => simp [Bind.bind, Except.bind]
  | ok found =>
    cases found <;>
      simp [Bind.bind, Except.bind, Pure.pure, Except.pure, eq_comm]

theorem anyM_succeeds (h : ∀ x ∈ xs, Succeeds (p x)) :
    Succeeds (xs.anyM p) := by
  induction xs with
  | nil => exact ⟨false, rfl⟩
  | cons x xs ih =>
    obtain ⟨⟨found, hfound⟩, hrest⟩ := List.forall_mem_cons.1 h
    cases found with
    | true => exact ⟨true, anyM_cons_eq_ok.2 (Or.inl ⟨hfound, rfl⟩)⟩
    | false =>
      obtain ⟨b, hb⟩ := ih hrest
      exact ⟨b, anyM_cons_eq_ok.2 (Or.inr ⟨hfound, hb⟩)⟩

theorem anyM_map (h : ∀ x ∈ xs, ∀ b, p x = .ok b → q (m x) = .ok b)
    (hb : xs.anyM p = .ok b) : (xs.map m).anyM q = .ok b := by
  induction xs with
  | nil => exact hb
  | cons x xs ih =>
    obtain ⟨hfirst, hrest⟩ := List.forall_mem_cons.1 h
    rw [List.map_cons, anyM_cons_eq_ok]
    rcases anyM_cons_eq_ok.1 hb with ⟨hx, rfl⟩ | ⟨hx, hxs⟩
    · exact Or.inl ⟨hfirst true hx, rfl⟩
    · exact Or.inr ⟨hfirst false hx, ih hrest hxs⟩

theorem exists_of_anyM (h : xs.anyM p = .ok true) :
    ∃ x ∈ xs, p x = .ok true := by
  induction xs with
  | nil => cases h
  | cons x xs ih =>
    rcases anyM_cons_eq_ok.1 h with ⟨hx, -⟩ | ⟨-, hxs⟩
    · exact ⟨x, List.mem_cons_self .., hx⟩
    · obtain ⟨y, hy, hfound⟩ := ih hxs
      exact ⟨y, List.mem_cons_of_mem _ hy, hfound⟩

theorem eq_false_of_anyM (h : xs.anyM p = .ok false) :
    ∀ x ∈ xs, p x = .ok false := by
  induction xs with
  | nil => exact nofun
  | cons x xs ih =>
    rcases anyM_cons_eq_ok.1 h with ⟨-, hfalse⟩ | ⟨hx, hxs⟩
    · cases hfalse
    · exact List.forall_mem_cons.2 ⟨hx, ih hxs⟩

end

namespace Store

variable {store store' : Store}

-- ================================================================== lists

section

variable {eq eq' : Value → Value → Except Failure Bool}
  {m : Value → Value} {xs ys : List Value} {b b' : Bool}

/-- Items are compared up to the first that differ. -/
theorem equalItems_cons_eq_ok {x y : Value} :
    equalItems eq (x :: xs) (y :: ys) = .ok b ↔
      eq x y = .ok true ∧ equalItems eq xs ys = .ok b ∨
        eq x y = .ok false ∧ b = false := by
  rw [equalItems]
  cases eq x y with
  | error f => simp [Bind.bind, Except.bind]
  | ok same =>
    cases same <;>
      simp [Bind.bind, Except.bind, Pure.pure, Except.pure, eq_comm]

theorem equalItems_succeeds (h : ∀ x ∈ xs, ∀ y ∈ ys, Succeeds (eq x y)) :
    Succeeds (equalItems eq xs ys) := by
  induction xs generalizing ys with
  | nil => cases ys <;> exact ⟨_, rfl⟩
  | cons x xs ih =>
    cases ys with
    | nil => exact ⟨_, rfl⟩
    | cons y ys =>
      obtain ⟨⟨same, hsame⟩, hrest⟩ := forall_pairs_cons h
      cases same with
      | false => exact ⟨_, equalItems_cons_eq_ok.2 (Or.inr ⟨hsame, rfl⟩)⟩
      | true =>
        obtain ⟨b, hb⟩ := ih hrest
        exact ⟨b, equalItems_cons_eq_ok.2 (Or.inl ⟨hsame, hb⟩)⟩

theorem equalItems_map
    (h : ∀ x ∈ xs, ∀ y ∈ ys, ∀ b, eq x y = .ok b → eq' (m x) (m y) = .ok b)
    (hb : equalItems eq xs ys = .ok b) :
    equalItems eq' (xs.map m) (ys.map m) = .ok b := by
  induction xs generalizing ys with
  | nil => cases ys <;> exact hb
  | cons x xs ih =>
    cases ys with
    | nil => exact hb
    | cons y ys =>
      obtain ⟨hfirst, hrest⟩ := forall_pairs_cons h
      rw [List.map_cons, List.map_cons, equalItems_cons_eq_ok]
      rcases equalItems_cons_eq_ok.1 hb with ⟨hxy, hb⟩ | ⟨hxy, rfl⟩
      · exact Or.inl ⟨hfirst true hxy, ih hrest hb⟩
      · exact Or.inr ⟨hfirst false hxy, rfl⟩

/-- Equal lists are of one length. -/
theorem length_eq_of_equalItems (h : equalItems eq xs ys = .ok true) :
    xs.length = ys.length := by
  induction xs generalizing ys with
  | nil =>
    cases ys with
    | nil => rfl
    | cons => cases h
  | cons x xs ih =>
    cases ys with
    | nil => cases h
    | cons y ys =>
      rcases equalItems_cons_eq_ok.1 h with ⟨-, hrest⟩ | ⟨-, hfalse⟩
      · exact congrArg Nat.succ (ih hrest)
      · cases hfalse

/-- Lists are compared alike from either side, if their items are. -/
theorem equalItems_agree
    (h : ∀ x ∈ xs, ∀ y ∈ ys, ∀ b b', eq x y = .ok b → eq' y x = .ok b' →
      b = b')
    (hb : equalItems eq xs ys = .ok b) (hb' : equalItems eq' ys xs = .ok b') :
    b = b' := by
  induction xs generalizing ys with
  | nil =>
    cases ys with
    | nil => exact Except.ok.inj (hb.symm.trans hb')
    | cons => exact Except.ok.inj (hb.symm.trans hb')
  | cons x xs ih =>
    cases ys with
    | nil => exact Except.ok.inj (hb.symm.trans hb')
    | cons y ys =>
      obtain ⟨hfirst, hrest⟩ := forall_pairs_cons h
      rcases equalItems_cons_eq_ok.1 hb with ⟨hxy, hb⟩ | ⟨hxy, rfl⟩
      · rcases equalItems_cons_eq_ok.1 hb' with ⟨-, hb'⟩ | ⟨hyx, rfl⟩
        · exact ih hrest hb hb'
        · cases hfirst _ _ hxy hyx
      · rcases equalItems_cons_eq_ok.1 hb' with ⟨hyx, -⟩ | ⟨-, rfl⟩
        · cases hfirst _ _ hxy hyx
        · rfl

end

-- ================================================================= tables

section

variable {eq eq' : Value → Value → Except Failure Bool}
  {m : Value → Value} {es fs : List (Value × Value)} {b : Bool}

/-- What the search for the partner of an entry asks of each other one. -/
def isPartner (store : Store) (eq : Value → Value → Except Failure Bool)
    (e f : Value × Value) : Except Failure Bool :=
  if store.sameKey e.1 f.1 then eq f.2 e.2 else .ok false

theorem isPartner_eq_true {e f : Value × Value} :
    store.isPartner eq e f = .ok true ↔
      store.sameKey e.1 f.1 = true ∧ eq f.2 e.2 = .ok true := by
  unfold isPartner
  split
  · next hkey => simp [hkey]
  · next hkey => simp [hkey]

/-- Entries are compared up to the first that has no partner. -/
theorem equalEntries_cons_eq_ok {e : Value × Value} :
    store.equalEntries eq (e :: es) fs = .ok b ↔
      fs.anyM (store.isPartner eq e) = .ok true ∧
          store.equalEntries eq es fs = .ok b ∨
        fs.anyM (store.isPartner eq e) = .ok false ∧ b = false := by
  obtain ⟨k, v⟩ := e
  rw [equalEntries]
  show (fs.anyM (store.isPartner eq (k, v)) >>= fun found => _) = _ ↔ _
  cases fs.anyM (store.isPartner eq (k, v)) with
  | error f => simp [Bind.bind, Except.bind]
  | ok found =>
    cases found <;>
      simp [Bind.bind, Except.bind, Pure.pure, Except.pure, eq_comm]

theorem equalEntries_succeeds
    (h : ∀ e ∈ es, ∀ f ∈ fs, Succeeds (eq f.2 e.2)) :
    Succeeds (store.equalEntries eq es fs) := by
  induction es with
  | nil => exact ⟨_, by rw [equalEntries]⟩
  | cons e es ih =>
    obtain ⟨hfirst, hrest⟩ := List.forall_mem_cons.1 h
    obtain ⟨found, hfound⟩ :=
      anyM_succeeds (p := store.isPartner eq e) fun f hf => by
        unfold isPartner
        split
        · exact hfirst f hf
        · exact ⟨_, rfl⟩
    cases found with
    | false => exact ⟨_, equalEntries_cons_eq_ok.2 (Or.inr ⟨hfound, rfl⟩)⟩
    | true =>
      obtain ⟨b, hb⟩ := ih hrest
      exact ⟨b, equalEntries_cons_eq_ok.2 (Or.inl ⟨hfound, hb⟩)⟩

theorem equalEntries_map
    (hkeys : ∀ e ∈ es, ∀ f ∈ fs,
      store'.sameKey (m e.1) (m f.1) = store.sameKey e.1 f.1)
    (h : ∀ e ∈ es, ∀ f ∈ fs, ∀ b, eq f.2 e.2 = .ok b →
      eq' (m f.2) (m e.2) = .ok b)
    (hb : store.equalEntries eq es fs = .ok b) :
    store'.equalEntries eq' (es.map fun e => (m e.1, m e.2))
      (fs.map fun f => (m f.1, m f.2)) = .ok b := by
  induction es with
  | nil =>
    rw [equalEntries] at hb
    rw [List.map_nil, equalEntries]
    exact hb
  | cons e es ih =>
    obtain ⟨hkey, hkeys⟩ := List.forall_mem_cons.1 hkeys
    obtain ⟨hfirst, hrest⟩ := List.forall_mem_cons.1 h
    have hfound : ∀ found, fs.anyM (store.isPartner eq e) = .ok found →
        (fs.map fun f => (m f.1, m f.2)).anyM
          (store'.isPartner eq' (m e.1, m e.2)) = .ok found := by
      intro found
      refine anyM_map fun f hf b hb => ?_
      unfold isPartner at hb ⊢
      rw [hkey f hf]
      split
      · next hsame =>
        rw [if_pos hsame] at hb
        exact hfirst f hf b hb
      · next hother =>
        rw [if_neg hother] at hb
        exact hb
    rw [List.map_cons, equalEntries_cons_eq_ok]
    rcases equalEntries_cons_eq_ok.1 hb with ⟨hpartner, hes⟩ | ⟨hnone, rfl⟩
    · exact Or.inl ⟨hfound true hpartner, ih hkeys hrest hes⟩
    · exact Or.inr ⟨hfound false hnone, rfl⟩

/-- Where entries are found equal, each has a partner. -/
theorem exists_partner (h : store.equalEntries eq es fs = .ok true) :
    ∀ e ∈ es, ∃ f ∈ fs, store.sameKey e.1 f.1 = true ∧
      eq f.2 e.2 = .ok true := by
  induction es with
  | nil => exact nofun
  | cons e es ih =>
    rcases equalEntries_cons_eq_ok.1 h with ⟨hpartner, hes⟩ | ⟨-, hfalse⟩
    · obtain ⟨f, hf, hfound⟩ := exists_of_anyM hpartner
      exact List.forall_mem_cons.2
        ⟨⟨f, hf, isPartner_eq_true.1 hfound⟩, ih hes⟩
    · cases hfalse

/-- Where each entry has a partner that is not found to differ, they are
found equal. -/
theorem eq_true_of_partners (h : store.equalEntries eq es fs = .ok b)
    (hall : ∀ e ∈ es, ∃ f ∈ fs, store.sameKey e.1 f.1 = true ∧
      eq f.2 e.2 ≠ .ok false) : b = true := by
  induction es with
  | nil =>
    rw [equalEntries] at h
    exact (Except.ok.inj h).symm
  | cons e es ih =>
    obtain ⟨⟨f, hf, hkey, hdiffer⟩, hrest⟩ := List.forall_mem_cons.1 hall
    rcases equalEntries_cons_eq_ok.1 h with ⟨-, hes⟩ | ⟨hnone, -⟩
    · exact ih hes hrest
    · have hpartner := eq_false_of_anyM hnone f hf
      rw [isPartner, if_pos hkey] at hpartner
      exact absurd hpartner hdiffer

end

-- ================================================================== order

section

variable {same same' : Value → Value → Except Failure Bool}
  {order order' : Value → Value → Except Failure (Option Bool)}
  {d : Direction} {m : Value → Value} {xs ys : List Value}
  {o o' : Option Bool}

/-- The first items that differ decide. -/
theorem orderItems_cons_eq_ok {x y : Value} :
    orderItems same order d (x :: xs) (y :: ys) = .ok o ↔
      same x y = .ok true ∧ orderItems same order d xs ys = .ok o ∨
        same x y = .ok false ∧ order x y = .ok o := by
  rw [orderItems]
  cases same x y with
  | error f => simp [Bind.bind, Except.bind]
  | ok found => cases found <;> simp [Bind.bind, Except.bind]

theorem orderItems_succeeds (hsame : ∀ x ∈ xs, ∀ y ∈ ys, Succeeds (same x y))
    (horder : ∀ x ∈ xs, ∀ y ∈ ys, Succeeds (order x y)) :
    Succeeds (orderItems same order d xs ys) := by
  induction xs generalizing ys with
  | nil => cases ys <;> exact ⟨_, rfl⟩
  | cons x xs ih =>
    cases ys with
    | nil => exact ⟨_, rfl⟩
    | cons y ys =>
      obtain ⟨⟨found, hfound⟩, hsame⟩ := forall_pairs_cons hsame
      obtain ⟨⟨o, ho⟩, horder⟩ := forall_pairs_cons horder
      cases found with
      | false => exact ⟨o, orderItems_cons_eq_ok.2 (Or.inr ⟨hfound, ho⟩)⟩
      | true =>
        obtain ⟨o, ho⟩ := ih hsame horder
        exact ⟨o, orderItems_cons_eq_ok.2 (Or.inl ⟨hfound, ho⟩)⟩

theorem orderItems_map
    (hsame : ∀ x ∈ xs, ∀ y ∈ ys, ∀ b, same x y = .ok b →
      same' (m x) (m y) = .ok b)
    (horder : ∀ x ∈ xs, ∀ y ∈ ys, ∀ o, order x y = .ok o →
      order' (m x) (m y) = .ok o)
    (ho : orderItems same order d xs ys = .ok o) :
    orderItems same' order' d (xs.map m) (ys.map m) = .ok o := by
  induction xs generalizing ys with
  | nil => cases ys <;> exact ho
  | cons x xs ih =>
    cases ys with
    | nil => exact ho
    | cons y ys =>
      obtain ⟨hfirst, hsame⟩ := forall_pairs_cons hsame
      obtain ⟨hfirst', horder⟩ := forall_pairs_cons horder
      rw [List.map_cons, List.map_cons, orderItems_cons_eq_ok]
      rcases orderItems_cons_eq_ok.1 ho with ⟨hxy, ho⟩ | ⟨hxy, ho⟩
      · exact Or.inl ⟨hfirst true hxy, ih hsame horder ho⟩
      · exact Or.inr ⟨hfirst false hxy, hfirst' o ho⟩

/-- Lists are ordered alike from either side, if their items are. -/
theorem orderItems_agree
    (hsame : ∀ x ∈ xs, ∀ y ∈ ys, ∀ b b', same x y = .ok b →
      same' y x = .ok b' → b = b')
    (horder : ∀ x ∈ xs, ∀ y ∈ ys, ∀ o o', order x y = .ok o →
      order' y x = .ok o' → o = o')
    (ho : orderItems same order d xs ys = .ok o)
    (ho' : orderItems same' order' d.flip ys xs = .ok o') : o = o' := by
  induction xs generalizing ys with
  | nil =>
    cases ys with
    | nil =>
      rw [← Except.ok.inj ho, ← Except.ok.inj ho']
      exact congrArg some (d.holds_flip_swap .eq).symm
    | cons =>
      rw [← Except.ok.inj ho, ← Except.ok.inj ho']
      exact congrArg some (d.holds_flip_swap .lt).symm
  | cons x xs ih =>
    cases ys with
    | nil =>
      rw [← Except.ok.inj ho, ← Except.ok.inj ho']
      exact congrArg some (d.holds_flip_swap .gt).symm
    | cons y ys =>
      obtain ⟨hfirst, hsame⟩ := forall_pairs_cons hsame
      obtain ⟨hfirst', horder⟩ := forall_pairs_cons horder
      rcases orderItems_cons_eq_ok.1 ho with ⟨hxy, ho⟩ | ⟨hxy, ho⟩
      · rcases orderItems_cons_eq_ok.1 ho' with ⟨-, ho'⟩ | ⟨hyx, -⟩
        · exact ih hsame horder ho ho'
        · cases hfirst _ _ hxy hyx
      · rcases orderItems_cons_eq_ok.1 ho' with ⟨hyx, -⟩ | ⟨-, ho'⟩
        · cases hfirst _ _ hxy hyx
        · exact hfirst' o o' ho ho'

end

-- ================================================================ values

variable {v w : Value} {n n' : Nat}

/-- All values that are compared. -/
def comparedValues : Counterparts → List Value
  | .lists xs ys | .tuples xs ys | .sets xs ys => xs ++ ys
  | .tables es fs => Object.entryValues es ++ Object.entryValues fs
  | .quotes .. => []

/-- What is compared of two values belongs to one of them. -/
theorem exists_object?_of_mem {c : Counterparts}
    (h : store.counterparts? v w = some c) {x : Value}
    (hx : x ∈ comparedValues c) :
    ∃ u o, (u = v ∨ u = w) ∧ store.object? u = some o ∧ x ∈ o.values := by
  have hside {o o' : Object} (hv : store.object? v = some o)
      (hw : store.object? w = some o') (hx : x ∈ o.values ++ o'.values) :
      ∃ u o, (u = v ∨ u = w) ∧ store.object? u = some o ∧ x ∈ o.values := by
    rcases List.mem_append.1 hx with hx | hx
    · exact ⟨v, o, Or.inl rfl, hv, hx⟩
    · exact ⟨w, o', Or.inr rfl, hw, hx⟩
  unfold counterparts? at h
  split at h
  case h_1 hv hw | h_2 hv hw | h_3 hv hw | h_4 hv hw | h_5 hv hw =>
    cases h
    exact hside hv hw hx
  case h_6 hv hw | h_7 hv hw =>
    cases h
    exact hside hv hw (List.mem_append.2 (List.mem_append.1 hx).symm)
  case h_8 =>
    cases h
    cases hx
  case h_9 => cases h

/-- What is compared of two values are parts of theirs, one of each. Which of
two tables asks for the entries of the other is left open. -/
def ArePartsOf (store : Store) (v w : Value) :
    Counterparts → Prop
  | .lists xs ys | .tuples xs ys =>
    ∀ x ∈ xs, ∀ y ∈ ys, store.HasPart v x ∧ store.HasPart w y
  | .tables es fs =>
    ∀ e ∈ es, ∀ f ∈ fs, store.HasPart v e.2 ∧ store.HasPart w f.2 ∨
      store.HasPart v f.2 ∧ store.HasPart w e.2
  | .sets .. | .quotes .. => True

theorem arePartsOf_counterparts? {c : Counterparts}
    (h : store.counterparts? v w = some c) : store.ArePartsOf v w c := by
  have hentries {u : Value} {es : List (Value × Value)}
      (hu : store.object? u = some (.table es) ∨
        store.object? u = some (.frozen es)) {e : Value × Value}
      (he : e ∈ es) : store.HasPart u e.2 := by
    have hes : store.entries u = es :=
      hu.elim (fun h => (access_table h).2) fun h => (access_frozen h).2
    rw [HasPart, parts, hes]
    exact List.mem_append_right _ (List.mem_map_of_mem he)
  unfold counterparts? at h
  split at h
  · next hv hw =>
    cases h
    intro x hx y hy
    simp [HasPart, parts, items, hv, hw, hx, hy]
  · next hv hw =>
    cases h
    intro x hx y hy
    simp [HasPart, parts, items, hv, hw, hx, hy]
  · cases h
    trivial
  · next hv hw =>
    cases h
    exact fun e he f hf =>
      Or.inl ⟨hentries (Or.inl hv) he, hentries (Or.inl hw) hf⟩
  · next hv hw =>
    cases h
    exact fun e he f hf =>
      Or.inl ⟨hentries (Or.inr hv) he, hentries (Or.inl hw) hf⟩
  · next hv hw =>
    cases h
    exact fun e he f hf =>
      Or.inr ⟨hentries (Or.inl hv) hf, hentries (Or.inr hw) he⟩
  · next hv hw =>
    cases h
    exact fun e he f hf =>
      Or.inr ⟨hentries (Or.inr hv) hf, hentries (Or.inr hw) he⟩
  · cases h
    trivial
  · cases h

theorem inside_succeeds {equal : Value → Value → Except Failure Bool}
    (h : Succeeds (equal v w)) : Succeeds (inside equal v w) := by
  unfold inside
  split
  · exact ⟨true, rfl⟩
  · exact h

theorem equalTables_succeeds {equal : Value → Value → Except Failure Bool}
    {es fs : List (Value × Value)}
    (h : ∀ e ∈ es, ∀ f ∈ fs, Succeeds (equal f.2 e.2)) :
    Succeeds (store.equalTables equal es fs) := by
  unfold equalTables
  split
  · exact equalEntries_succeeds h
  · exact ⟨false, rfl⟩

/-- Two values are equal or not, if the ways down from one of them end within
the budget. -/
theorem equalWithin_succeeds
    (h : store.EndsWithin n v ∨ store.EndsWithin n w) :
    Succeeds (store.equalWithin n v w) := by
  induction n generalizing v w with
  | zero => exact (h.elim id id).elim
  | succ n ih =>
    have hparts {x y : Value}
        (hxy : store.HasPart v x ∧ store.HasPart w y) :
        Succeeds (inside (store.equalWithin n) x y) ∧
          Succeeds (inside (store.equalWithin n) y x) :=
      have hends := h.imp (· x hxy.1) (· y hxy.2)
      ⟨inside_succeeds (ih hends), inside_succeeds (ih hends.symm)⟩
    unfold equalWithin
    cases hc : store.counterparts? v w with
    | none => exact ⟨_, rfl⟩
    | some c =>
      have hc := arePartsOf_counterparts? hc
      cases c with
      | lists xs ys =>
        dsimp only
        split
        · exact equalItems_succeeds fun x hx y hy =>
            (hparts (hc x hx y hy)).1
        · exact ⟨false, rfl⟩
      | tuples xs ys =>
        exact equalItems_succeeds fun x hx y hy => (hparts (hc x hx y hy)).1
      | tables es fs =>
        refine equalTables_succeeds fun e he f hf => ?_
        rcases hc e he f hf with hef | hfe
        · exact (hparts hef).2
        · exact (hparts hfe).1
      | sets | quotes => exact ⟨_, rfl⟩

theorem equal_succeeds (h : store.Acyclic v ∨ store.Acyclic w) :
    Succeeds (store.equal v w) :=
  equalWithin_succeeds (h.imp Acyclic.endsWithin_comparisonDepth
    Acyclic.endsWithin_comparisonDepth)

theorem same_succeeds (h : store.Acyclic v ∨ store.Acyclic w) :
    Succeeds (store.same v w) :=
  inside_succeeds (equal_succeeds h)

/-- Two values have an order or none, if the ways down from one of them end
within the budget. -/
theorem orderWithin_succeeds {d : Direction}
    (h : store.EndsWithin n v ∨ store.EndsWithin n w) :
    Succeeds (store.orderWithin d n v w) := by
  induction n generalizing v w with
  | zero => exact (h.elim id id).elim
  | succ n ih =>
    unfold orderWithin
    cases hc : store.counterparts? v w with
    | none => exact ⟨_, rfl⟩
    | some c =>
      have hc := arePartsOf_counterparts? hc
      cases c with
      | lists xs ys | tuples xs ys =>
        have hends : ∀ x ∈ xs, ∀ y ∈ ys,
            store.EndsWithin n x ∨ store.EndsWithin n y := fun x hx y hy =>
          h.imp (· x (hc x hx y hy).1) (· y (hc x hx y hy).2)
        refine orderItems_succeeds (fun x hx y hy => ?_) fun x hx y hy =>
          ih (hends x hx y hy)
        exact same_succeeds
          ((hends x hx y hy).imp EndsWithin.acyclic EndsWithin.acyclic)
      | sets | tables | quotes => exact ⟨_, rfl⟩

theorem order?_succeeds {d : Direction}
    (h : store.Acyclic v ∨ store.Acyclic w) :
    Succeeds (store.order? d v w) :=
  orderWithin_succeeds (h.imp Acyclic.endsWithin_comparisonDepth
    Acyclic.endsWithin_comparisonDepth)

-- ================================================================ budgets

theorem inside_imp {equal equal' : Value → Value → Except Failure Bool}
    {b : Bool} (h : equal v w = .ok b → equal' v w = .ok b)
    (hb : inside equal v w = .ok b) : inside equal' v w = .ok b := by
  unfold inside at hb ⊢
  split
  · next hsame => rwa [if_pos hsame] at hb
  · next hother =>
    rw [if_neg hother] at hb
    exact h hb

theorem equalItems_imp {eq eq' : Value → Value → Except Failure Bool}
    {xs ys : List Value} {b : Bool}
    (h : ∀ x y b, eq x y = .ok b → eq' x y = .ok b)
    (hb : equalItems eq xs ys = .ok b) : equalItems eq' xs ys = .ok b := by
  simpa using equalItems_map (m := id) (fun x _ y _ => h x y) hb

theorem equalTables_imp {eq eq' : Value → Value → Except Failure Bool}
    {es fs : List (Value × Value)} {b : Bool}
    (h : ∀ x y b, eq x y = .ok b → eq' x y = .ok b)
    (hb : store.equalTables eq es fs = .ok b) :
    store.equalTables eq' es fs = .ok b := by
  unfold equalTables at hb ⊢
  split
  · next hlength =>
    rw [if_pos hlength] at hb
    have hmap : store.equalEntries eq' (es.map fun e => (id e.1, id e.2))
        (fs.map fun f => (id f.1, id f.2)) = .ok b :=
      equalEntries_map (fun _ _ _ _ => rfl) (fun e _ f _ => h f.2 e.2) hb
    simpa using hmap
  · next hlength => rwa [if_neg hlength] at hb

/-- A larger budget changes no answer. -/
theorem equalWithin_mono {b : Bool} (hb : store.equalWithin n v w = .ok b)
    (hn : n ≤ n') : store.equalWithin n' v w = .ok b := by
  induction n generalizing n' v w b with
  | zero => cases hb
  | succ n ih =>
    obtain ⟨n', rfl⟩ := Nat.exists_eq_add_of_lt hn
    have hinside (x y : Value) (b : Bool)
        (h : inside (store.equalWithin n) x y = .ok b) :
        inside (store.equalWithin (n + n')) x y = .ok b :=
      inside_imp (ih · (Nat.le_add_right n n')) h
    unfold equalWithin at hb ⊢
    cases hc : store.counterparts? v w with
    | none =>
      rw [hc] at hb
      exact hb
    | some c =>
      rw [hc] at hb
      cases c with
      | lists xs ys =>
        dsimp only at hb ⊢
        split
        · next hlength =>
          rw [if_pos hlength] at hb
          exact equalItems_imp hinside hb
        · next hlength => rwa [if_neg hlength] at hb
      | tuples xs ys => exact equalItems_imp hinside hb
      | tables es fs => exact equalTables_imp hinside hb
      | sets | quotes => exact hb

theorem orderWithin_mono {d : Direction} {o : Option Bool}
    (ho : store.orderWithin d n v w = .ok o) (hn : n ≤ n') :
    store.orderWithin d n' v w = .ok o := by
  induction n generalizing n' v w o with
  | zero => cases ho
  | succ n ih =>
    obtain ⟨n', rfl⟩ := Nat.exists_eq_add_of_lt hn
    unfold orderWithin at ho ⊢
    cases hc : store.counterparts? v w with
    | none =>
      rw [hc] at ho
      exact ho
    | some c =>
      rw [hc] at ho
      cases c with
      | lists xs ys | tuples xs ys =>
        simpa using orderItems_map (m := id) (fun _ _ _ _ _ => id)
          (fun _ _ _ _ _ h => ih h (Nat.le_add_right n n')) ho
      | sets | tables | quotes => exact ho

end Store
end Stencil
