/-
The character classes of markup keep apart.

Names are made of word characters, numbers of digits, and what stands
between them of blanks, quotes, brackets and the signs of comparison. No
character belongs to two of these, and every reader of markup relies on
it: a blank ends a name in both grammars, and a bracket is never part of
one.
-/
import Stencil.Markup.Token

namespace Stencil.Text

/-- The blanks that the strict grammar skips are blank. -/
theorem isBlank_of_isSkipped {c : Char} (h : Token.isSkipped c = true) :
    isBlank c = true := by
  simp only [Token.isSkipped, Bool.or_eq_true, beq_iff_eq] at h
  rcases h with (((rfl | rfl) | rfl) | rfl) | rfl <;> decide

/-- The code points of the blanks outside the first script. -/
private def farBlanks : List Nat :=
  [0x85, 0xa0, 0x1680, 0x2000, 0x2001, 0x2002, 0x2003, 0x2004, 0x2005,
    0x2006, 0x2007, 0x2008, 0x2009, 0x200a, 0x2028, 0x2029, 0x202f, 0x205f,
    0x3000]

/-- Blanks outside the first script are few. -/
private theorem mem_farBlanks {n : Nat} (hn : ¬n < 0x80)
    (h : blankRanges.contains n = true) : n ∈ farBlanks := by
  simp only [Ranges.contains, blankRanges, List.any_cons, List.any_nil,
    Bool.or_eq_true, Bool.and_eq_true, decide_eq_true_eq,
    Bool.or_false] at h
  simp only [farBlanks, List.mem_cons, List.not_mem_nil, or_false]
  omega

/-- None of the blanks outside the first script is a letter or a digit. -/
private theorem farBlanks_classes :
    ∀ n ∈ farBlanks, letterRanges.contains n = false ∧
      digitRows.find? n = none := by
  decide +kernel

/-- A blank is no letter. -/
theorem isLetter_of_isBlank {c : Char} (h : isBlank c = true) :
    isLetter c = false := by
  unfold isBlank at h
  unfold isLetter
  dsimp only at h ⊢
  split at h
  · next hn =>
    rw [if_pos hn]
    simp only [Bool.or_eq_true, Bool.and_eq_true, decide_eq_true_eq] at h
    simp only [Bool.or_eq_false_iff, Bool.and_eq_false_iff,
      decide_eq_false_iff_not]
    omega
  · next hn =>
    rw [if_neg hn]
    exact (farBlanks_classes _ (mem_farBlanks hn h)).1

/-- A blank is no digit. -/
theorem isDigit_of_isBlank {c : Char} (h : isBlank c = true) :
    isDigit c = false := by
  unfold isBlank at h
  unfold isDigit digitValue?
  dsimp only at h ⊢
  split at h
  · next hn =>
    rw [if_pos hn, if_neg]
    · rfl
    · simp only [Bool.or_eq_true, Bool.and_eq_true,
        decide_eq_true_eq] at h ⊢
      omega
  · next hn =>
    rw [if_neg hn, (farBlanks_classes _ (mem_farBlanks hn h)).2]
    rfl

/-- A blank is no word character, and no dash either. -/
theorem isDashedWord_of_isBlank {c : Char} (h : isBlank c = true) :
    isDashedWord c = false := by
  have hletter := isLetter_of_isBlank h
  have hdigit := isDigit_of_isBlank h
  have hunder : c ≠ '_' := by
    rintro rfl
    exact absurd h (by decide)
  have hdash : c ≠ '-' := by
    rintro rfl
    exact absurd h (by decide)
  simp [isDashedWord, isWord, isAlphanumeric, hletter, hdigit, hunder, hdash]

/-- A dashed-word character is not blank. -/
theorem isBlank_of_isDashedWord {c : Char} (h : isDashedWord c = true) :
    isBlank c = false := by
  cases hb : isBlank c with
  | false => rfl
  | true => exact absurd h (by simp [isDashedWord_of_isBlank hb])

/-- A digit is not blank. -/
theorem isBlank_of_isDigit {c : Char} (h : isDigit c = true) :
    isBlank c = false := by
  cases hb : isBlank c with
  | false => rfl
  | true => exact absurd h (by simp [isDigit_of_isBlank hb])

/-- Every digit may stand in a dashed word. -/
theorem isDashedWord_of_isDigit {c : Char} (h : isDigit c = true) :
    isDashedWord c = true := by
  simp [isDashedWord, isWord_of_isDigit h]

end Stencil.Text
