/-
Numerals in markup are numbers.

The terminal for numbers is narrower than what is read as a number: it has
no blanks, no plus, no underscores and no exponents. So a text that it
matches is read, a text with a point as a float and one without as an
integer, unless it is an integer of too many digits.
-/
import Mathlib.Algebra.Group.Int.Defs
import Mathlib.Algebra.Group.Nat.Defs
import Mathlib.Data.List.Induction
import Stencil.Proofs.Markup.Derivation
import Stencil.Proofs.Markup.Placement

namespace Stencil

open Text

namespace Numeral

-- ============================================================ clean texts

/-- A text without blanks has nothing around it. -/
theorem unpad_eq_self {cs : List Char} (h : ∀ c ∈ cs, isBlank c = false) :
    unpad cs = cs := by
  have hkeep : ∀ ds : List Char, (∀ c ∈ ds, isBlank c = false) →
      ds.dropWhile isPadding = ds := by
    intro ds hds
    cases ds with
    | nil => rfl
    | cons d ds =>
      rw [List.dropWhile_cons_of_neg]
      simp [isPadding, hds d (List.mem_cons_self ..)]
  rw [unpad, hkeep cs h, hkeep cs.reverse, List.reverse_reverse]
  exact fun c hc => h c (List.mem_reverse.1 hc)

/-- A text without underscores is joined already. -/
theorem joinGroups_eq_self {cs : List Char} (h : '_' ∉ cs) (b : Bool) :
    joinGroups b cs = some cs := by
  induction cs generalizing b with
  | nil => rfl
  | cons c cs ih =>
    obtain ⟨hc, hcs⟩ := not_or.1 (mt List.mem_cons.2 h)
    rw [joinGroups, ih hcs]
    · rfl
    · exact fun heq => hc heq.symm

theorem sign_of_isDigits {cs : List Char} (h : isDigits cs = true)
    (more : List Char) : sign (cs ++ more) = (false, cs ++ more) := by
  obtain ⟨hne, hall⟩ := Bool.and_eq_true_iff.1 h
  cases cs with
  | nil => cases hne
  | cons c cs =>
    have hc : isDigit c = true := (Bool.and_eq_true_iff.1 hall).1
    rw [List.cons_append, sign]
    · rintro _ ⟨⟩
      exact absurd hc (by decide)
    · rintro _ ⟨⟩
      exact absurd hc (by decide)

end Numeral

-- =============================================================== reading

open Numeral

theorem IsNumeral.of_mem {cs : List Char} (h : IsNumeral cs) {c : Char}
    (hc : c ∈ cs) : isDigit c = true ∨ c = '-' ∨ c = '.' := by
  have hrow : ∀ {ds : List Char}, isDigits ds = true → c ∈ ds →
      isDigit c = true := fun hds hmem =>
    List.all_eq_true.1 (Bool.and_eq_true_iff.1 hds).2 c hmem
  obtain ⟨minus, whole, part, rfl, hminus, hwhole, hpart⟩ := h
  rcases List.mem_append.1 hc with hc | hc
  · rcases List.mem_append.1 hc with hc | hc
    · rcases hminus with rfl | rfl
      · cases hc
      · exact Or.inr (Or.inl (List.mem_singleton.1 hc))
    · exact Or.inl (hrow hwhole hc)
  · rcases hpart with rfl | ⟨digits, rfl, hdigits⟩
    · cases hc
    · rcases List.mem_cons.1 hc with hc | hc
      · exact Or.inr (Or.inr hc)
      · exact Or.inl (hrow hdigits hc)

theorem IsNumeral.unpad_eq {cs : List Char} (h : IsNumeral cs) :
    unpad cs = cs := by
  refine unpad_eq_self fun c hc => ?_
  rcases h.of_mem hc with hdigit | rfl | rfl
  · exact isBlank_of_isDigit hdigit
  · decide
  · decide

theorem IsNumeral.joinGroups_eq {cs : List Char} (h : IsNumeral cs)
    (b : Bool) : joinGroups b cs = some cs := by
  refine joinGroups_eq_self (fun hmem => ?_) b
  rcases h.of_mem hmem with hdigit | heq | heq
  · exact absurd hdigit (by decide)
  · cases heq
  · cases heq

/-- Digits, perhaps behind a minus, are an integer unless they are too
many. -/
theorem integer?_of_isDigits {minus whole : List Char}
    (hminus : minus = [] ∨ minus = ['-']) (hwhole : isDigits whole = true) :
    integer? (minus ++ whole) =
      if whole.length ≤ maxDigits then
        some (signed (minus == ['-']) (digitsValue whole))
      else none := by
  have h : IsNumeral (minus ++ whole) :=
    ⟨minus, whole, [], by simp, hminus, hwhole, Or.inl rfl⟩
  have hsign : sign (minus ++ whole) = (minus == ['-'], whole) := by
    rcases hminus with rfl | rfl
    · simpa using sign_of_isDigits hwhole []
    · rfl
  have hjoin : joinGroups false whole = some whole :=
    IsNumeral.joinGroups_eq
      ⟨[], whole, [], by simp, Or.inl rfl, hwhole, Or.inl rfl⟩ false
  simp only [integer?, h.unpad_eq, hsign, hjoin, hwhole, Bool.true_and,
    decide_eq_true_eq]

/-- A plus in front of digits makes no difference. -/
theorem integer?_of_plus {whole : List Char} (hwhole : isDigits whole = true) :
    integer? ('+' :: whole) =
      if whole.length ≤ maxDigits then some (digitsValue whole : Int)
      else none := by
  have h : IsNumeral whole :=
    ⟨[], whole, [], by simp, Or.inl rfl, hwhole, Or.inl rfl⟩
  have hblank : ∀ c ∈ '+' :: whole, isBlank c = false := by
    refine List.forall_mem_cons.2 ⟨by decide, fun c hc => ?_⟩
    exact isBlank_of_isDigit
      (List.all_eq_true.1 (Bool.and_eq_true_iff.1 hwhole).2 c hc)
  simp only [integer?, unpad_eq_self hblank, sign, h.joinGroups_eq, hwhole,
    Bool.true_and, decide_eq_true_eq]
  rfl

theorem special?_eq_none {cs : List Char} (h : '.' ∈ cs) (negative : Bool) :
    special? negative cs = none := by
  have hlower : '.' ∈ lower cs := List.mem_map.2 ⟨'.', h, rfl⟩
  have hword : ∀ word : String, '.' ∉ word.toList →
      String.ofList (lower cs) ≠ word := by
    rintro word hmem rfl
    exact hmem (by rwa [String.toList_ofList])
  unfold special?
  split
  · next heq => exact absurd heq (hword _ (by decide))
  · next heq => exact absurd heq (hword _ (by decide))
  · next heq => exact absurd heq (hword _ (by decide))
  · rfl

/-- What digits spell is a number, if an infinite one. -/
theorem ofDecimal_ne_nan (negative : Bool) (digits : Nat) (exponent : Int) :
    Binary64.ofDecimal negative digits exponent ≠ .nan := by
  have hzero : Binary64.zero negative ≠ .nan := by
    unfold Binary64.zero
    exact nofun
  have hquotient : ∀ num den, Binary64.ofQuotient negative num den ≠ .nan := by
    intro num den h
    simp only [Binary64.ofQuotient] at h
    split at h
    · exact hzero h
    · split at h <;> split at h <;> cases h
  unfold Binary64.ofDecimal
  split
  · exact hzero
  · split
    · exact nofun
    · split
      · exact hzero
      · split
        · exact hquotient _ _
        · exact hquotient _ _

/-- Digits, a point and digits are a decimal fraction. -/
theorem exists_decimal? {whole digits : List Char}
    (hwhole : isDigits whole = true) (hdigits : isDigits digits = true)
    (negative : Bool) :
    ∃ x, decimal? negative (whole ++ '.' :: digits) = some x ∧
      x ≠ .nan := by
  obtain ⟨hne, hall⟩ := Bool.and_eq_true_iff.1 hwhole
  have hall' := (Bool.and_eq_true_iff.1 hdigits).2
  have hpoint : isDigit '.' = false := by decide
  have htake : (whole ++ '.' :: digits).takeWhile isDigit = whole := by
    rw [List.takeWhile_append_of_pos (List.all_eq_true.1 hall)]
    simp [hpoint]
  have hdrop : (whole ++ '.' :: digits).dropWhile isDigit =
      '.' :: digits := by
    rw [List.dropWhile_append_of_pos (List.all_eq_true.1 hall)]
    simp [hpoint]
  have hfraction : fraction ('.' :: digits) = (digits, []) := by
    have hrest : digits.dropWhile isDigit = [] := by
      rw [← List.append_nil digits,
        List.dropWhile_append_of_pos (List.all_eq_true.1 hall')]
      rfl
    have hsplit := List.takeWhile_append_dropWhile (p := isDigit)
      (l := digits)
    rw [hrest, List.append_nil] at hsplit
    rw [fraction, hsplit, hrest]
  have hempty : (whole ++ digits).isEmpty = false := by
    cases whole with
    | nil => cases hne
    | cons => rfl
  simp only [decimal?, htake, hdrop, hfraction, hempty, exponent?]
  exact ⟨_, rfl, ofDecimal_ne_nan _ _ _⟩

/-- A numeral with a point is a float. -/
theorem exists_float? {minus whole digits : List Char}
    (hminus : minus = [] ∨ minus = ['-']) (hwhole : isDigits whole = true)
    (hdigits : isDigits digits = true) :
    ∃ x, float? (minus ++ whole ++ '.' :: digits) = some x ∧
      x ≠ .nan := by
  have h : IsNumeral (minus ++ whole ++ '.' :: digits) :=
    ⟨minus, whole, _, rfl, hminus, hwhole, Or.inr ⟨digits, rfl, hdigits⟩⟩
  have hsign : sign (minus ++ whole ++ '.' :: digits) =
      (minus == ['-'], whole ++ '.' :: digits) := by
    rcases hminus with rfl | rfl
    · exact sign_of_isDigits hwhole _
    · rfl
  have hpoint : '.' ∈ whole ++ '.' :: digits := by simp
  have hspecial := special?_eq_none hpoint (minus == ['-'])
  simp only [float?, h.unpad_eq, h.joinGroups_eq, hsign, hspecial]
  exact exists_decimal? hwhole hdigits _

/-- A text is an integer, perhaps behind a minus, of more digits than an
integer is read from. -/
def Numeral.Overlong (cs : List Char) : Prop :=
  ∃ minus digits, cs = minus ++ digits ∧ (minus = [] ∨ minus = ['-']) ∧
    isDigits digits = true ∧ maxDigits < digits.length

/-- More digits stand side by side in a text than an integer is read
from. -/
def Numeral.OverlongIn (cs : List Char) : Prop :=
  ∃ digits, digits <:+: cs ∧ isDigits digits = true ∧
    maxDigits < digits.length

theorem Numeral.Overlong.overlongIn {cs : List Char} (h : Overlong cs) :
    OverlongIn cs := by
  obtain ⟨minus, digits, rfl, -, hdigits, hlong⟩ := h
  exact ⟨digits, (List.suffix_append _ _).isInfix, hdigits, hlong⟩

theorem Numeral.OverlongIn.of_part {part cs : List Char}
    (h : OverlongIn part) (hpart : part <:+: cs) : OverlongIn cs := by
  obtain ⟨digits, hrow, hdigits, hlong⟩ := h
  exact ⟨digits, hrow.trans hpart, hdigits, hlong⟩

theorem point_notMem {minus whole : List Char}
    (hminus : minus = [] ∨ minus = ['-']) (hwhole : isDigits whole = true) :
    '.' ∉ minus ++ whole := by
  rw [List.mem_append]
  rintro (hmem | hmem)
  · rcases hminus with rfl | rfl
    · cases hmem
    · exact absurd hmem (by decide)
  · have hdigit := List.all_eq_true.1 (Bool.and_eq_true_iff.1 hwhole).2 _ hmem
    exact absurd hdigit (by decide)

/-- A text without a point is read as an integer. -/
theorem numeral?_of_isDigits {text : String} {minus whole : List Char}
    (htext : text.toList = minus ++ whole)
    (hminus : minus = [] ∨ minus = ['-']) (hwhole : isDigits whole = true) :
    numeral? text =
      if whole.length ≤ maxDigits then
        some (.int (signed (minus == ['-']) (digitsValue whole)))
      else none := by
  have hpoint := point_notMem hminus hwhole
  rw [numeral?, htext, if_neg (by simpa using hpoint),
    integer?_of_isDigits hminus hwhole]
  split <;> rfl

/-- An integer of too many digits spells no number. -/
theorem numeral?_of_overlong {text : String}
    (h : Numeral.Overlong text.toList) : numeral? text = none := by
  obtain ⟨minus, digits, htext, hminus, hdigits, hlong⟩ := h
  rw [numeral?_of_isDigits htext hminus hdigits,
    if_neg (Nat.not_le_of_lt hlong)]

/-- Every other numeral spells a number. -/
theorem IsNumeral.exists_numeral? {text : String}
    (h : IsNumeral text.toList) (hshort : ¬Numeral.Overlong text.toList) :
    ∃ v, numeral? text = some v := by
  obtain ⟨minus, whole, part, htext, hminus, hwhole, hpart⟩ := h
  rcases hpart with rfl | ⟨digits, rfl, hdigits⟩
  · rw [List.append_nil] at htext
    have hlength : whole.length ≤ maxDigits :=
      Nat.le_of_not_lt fun hlong =>
        hshort ⟨minus, whole, htext, hminus, hwhole, hlong⟩
    rw [numeral?_of_isDigits htext hminus hwhole, if_pos hlength]
    exact ⟨_, rfl⟩
  · obtain ⟨x, hx, -⟩ := exists_float? hminus hwhole hdigits
    have hsome : (minus ++ whole ++ '.' :: digits).contains '.' = true := by
      simp
    unfold numeral?
    rw [htext, hsome, if_pos rfl, hx]
    exact ⟨_, rfl⟩

-- ============================================================== writing

namespace Numeral

theorem digitValue?_of_isDigit {c : Char} (h : c.isDigit = true) :
    digitValue? c = some (c.toNat - '0'.toNat) := by
  have hrange : 0x30 ≤ c.toNat ∧ c.toNat ≤ 0x39 := by
    simpa [Char.isDigit, UInt32.le_iff_toNat_le] using h
  obtain ⟨hlow, hhigh⟩ := hrange
  unfold digitValue?
  dsimp only
  rw [if_pos (by omega), if_pos (by simp [hlow, hhigh])]
  rfl

/-- A decimal digit is less than ten. -/
theorem digitValue?_lt {c : Char} {d : Nat} (h : digitValue? c = some d) :
    d < 10 := by
  unfold digitValue? at h
  dsimp only at h
  split at h
  · split at h
    · next hrange =>
      cases h
      simp only [Bool.and_eq_true, decide_eq_true_eq] at hrange
      omega
    · cases h
  · obtain ⟨row, -, rfl⟩ := Option.map_eq_some_iff.1 h
    exact Nat.mod_lt _ (by decide)

theorem natAbs_signed (negative : Bool) (n : Nat) :
    (signed negative n).natAbs = n := by
  cases negative with
  | false => rfl
  | true => exact Int.natAbs_neg n

/-- A natural number is read back from its digits. -/
theorem digitsValue_toDigits (n : Nat) :
    digitsValue (Nat.toDigits 10 n) = n := by
  have hfold : ∀ (cs : List Char) (k : Nat), (∀ c ∈ cs, c.isDigit = true) →
      cs.foldl (fun n c => 10 * n + (digitValue? c).getD 0) k =
        Nat.ofDigitChars 10 cs k := by
    intro cs
    induction cs with
    | nil =>
      intro k _
      rfl
    | cons c cs ih =>
      intro k hcs
      obtain ⟨hc, hcs⟩ := List.forall_mem_cons.1 hcs
      rw [List.foldl_cons, digitValue?_of_isDigit hc]
      exact ih _ hcs
  have hdigits : ∀ c ∈ Nat.toDigits 10 n, c.isDigit = true :=
    fun c hc => Nat.isDigit_of_mem_toDigits (by decide) (by decide) hc
  calc digitsValue (Nat.toDigits 10 n)
      = Nat.ofDigitChars 10 (Nat.toDigits 10 n) 0 := hfold _ 0 hdigits
    _ = n := Nat.ofDigitChars_toDigits (by decide) (by decide)

theorem isDigits_toDigits (n : Nat) :
    isDigits (Nat.toDigits 10 n) = true := by
  have hall : (Nat.toDigits 10 n).all isDigit = true := by
    rw [List.all_eq_true]
    intro c hc
    have hdigit := Nat.isDigit_of_mem_toDigits (by decide) (by decide) hc
    simp [isDigit, digitValue?_of_isDigit hdigit]
  simp [isDigits, hall, Nat.toDigits_ne_nil]

/-- The integers that can be written, by their size. -/
theorem isWritable_iff {n : Int} :
    isWritable n = true ↔ n.natAbs < 10 ^ maxDigits := by
  rw [isWritable, decide_eq_true_iff]
  exact Nat.length_toDigits_le_iff (by decide) (by decide)

/-- A row of digits spells a number of no more digits. -/
theorem digitsValue_lt (cs : List Char) :
    digitsValue cs < 10 ^ cs.length := by
  have hdigit (c : Char) : (digitValue? c).getD 0 < 10 := by
    cases hvalue : digitValue? c with
    | none => decide
    | some d => exact digitValue?_lt hvalue
  induction cs using List.reverseRecOn with
  | nil => decide
  | append_singleton cs c ih =>
    have hlast : digitsValue (cs ++ [c]) =
        10 * digitsValue cs + (digitValue? c).getD 0 := by
      simp [digitsValue]
    have hc := hdigit c
    rw [hlast, List.length_append, List.length_singleton, Nat.pow_succ]
    omega

/-- An integer that was read can be written. -/
theorem isWritable_of_integer? {cs : List Char} {n : Int}
    (h : integer? cs = some n) : isWritable n = true := by
  simp only [integer?] at h
  split at h
  · next digits _ =>
    split at h
    · next hdigits =>
      cases h
      have hlength := of_decide_eq_true (Bool.and_eq_true_iff.1 hdigits).2
      rw [isWritable_iff]
      calc (signed _ (digitsValue digits)).natAbs
          = digitsValue digits := natAbs_signed _ _
        _ < 10 ^ digits.length := digitsValue_lt digits
        _ ≤ 10 ^ maxDigits := Nat.pow_le_pow_right (by decide) hlength
    · cases h
  · cases h

end Numeral

/-- An integer is written with digits, perhaps behind a minus. -/
theorem exists_digits_of_int (n : Int) :
    ∃ minus whole, (toString n).toList = minus ++ whole ∧
      (minus = [] ∨ minus = ['-']) ∧ whole = Nat.toDigits 10 n.natAbs ∧
      signed (minus == ['-']) n.natAbs = n := by
  cases n with
  | ofNat m => exact ⟨[], _, Nat.toList_repr, Or.inl rfl, rfl, rfl⟩
  | negSucc m =>
    refine ⟨['-'], _, ?_, Or.inr rfl, rfl, rfl⟩
    show ("-" ++ (m + 1).repr).toList = _
    rw [String.toList_append, Nat.toList_repr]
    rfl

/-- An integer that can be written is read back from its digits. -/
theorem numeral?_toString {n : Int} (h : isWritable n = true) :
    numeral? (toString n) = some (.int n) := by
  obtain ⟨minus, whole, htext, hminus, rfl, hsign⟩ := exists_digits_of_int n
  rw [numeral?_of_isDigits htext hminus (isDigits_toDigits _),
    if_pos (of_decide_eq_true h), digitsValue_toDigits, hsign]

end Stencil
