/-
What a terminal matches when more text follows.

A terminal looks at the text ahead, so it may match more of a longer text:
a name goes on, a point becomes one of two, a quote is closed after all.
None of this happens behind a text that is severed from what follows, by a
blank, a closing parenthesis or two dots. There each terminal matches as
much as before, with two exceptions that do no harm: blanks go on, and the
word `contains`, if it is all of the text, now stands in front of a blank.
-/
import Mathlib.Data.List.Basic
import Mathlib.Data.List.Find
import Stencil.Proofs.Markup.Lexing

namespace Stencil

open Text

namespace Token

-- ============================================================= lengths

theorem lengthOfWord_le (word : String) (cs : List Char) :
    lengthOfWord word cs ≤ cs.length := by
  unfold lengthOfWord
  split
  · next hp =>
    exact (List.isPrefixOf_iff_prefix.1 hp).length_le
  · exact Nat.zero_le _

theorem lengthOfName_le (cs : List Char) :
    lengthOfName cs ≤ cs.length := by
  unfold lengthOfName
  split
  · exact Nat.zero_le _
  · next c rest =>
    have hle := (List.takeWhile_prefix isDashedWord (l := rest)).length_le
    split
    · dsimp only
      split
      · next more hdrop =>
        have hlength := congrArg List.length hdrop
        simp only [List.length_drop, List.length_cons] at hlength ⊢
        omega
      · exact Nat.succ_le_succ hle
    · exact Nat.zero_le _

/-- In front of a quote there is less than the whole text. -/
theorem length_takeWhile_ne {q : Char} {cs : List Char} (hq : q ∈ cs) :
    (cs.takeWhile (· != q)).length ≠ cs.length := by
  intro hlength
  rw [← (List.takeWhile_prefix _).eq_of_length hlength] at hq
  simpa using List.all_eq_true.1 List.all_takeWhile q hq

theorem lengthOfString_le (cs : List Char) :
    lengthOfString cs ≤ cs.length := by
  unfold lengthOfString
  split
  · exact Nat.zero_le _
  · next q rest =>
    split
    · next hq =>
      have hne := length_takeWhile_ne
        (List.contains_iff_mem.1 (Bool.and_eq_true_iff.1 hq).2)
      have hle := (List.takeWhile_prefix (· != q) (l := rest)).length_le
      simp only [List.length_cons]
      omega
    · exact Nat.zero_le _

theorem lengthOfDigits_le (cs : List Char) :
    lengthOfDigits cs ≤ cs.length := by
  have hle := (List.takeWhile_prefix isDigit (l := cs)).length_le
  simp only [lengthOfDigits]
  split
  · exact Nat.zero_le _
  · split
    · next rest hdrop =>
      have hle' := (List.takeWhile_prefix isDigit (l := rest)).length_le
      have hlength := congrArg List.length hdrop
      simp only [List.length_drop, List.length_cons] at hlength
      split <;> omega
    · exact hle

theorem lengthOfNumber_le (cs : List Char) :
    lengthOfNumber cs ≤ cs.length := by
  unfold lengthOfNumber
  split
  · next rest =>
    have hle := lengthOfDigits_le rest
    simp only [List.length_cons]
    split <;> omega
  · exact lengthOfDigits_le _

/-- No terminal matches more than there is. -/
theorem length_le {t : Terminal} (ht : t ∈ terminals) (cs : List Char) :
    t.length cs ≤ cs.length := by
  simp only [terminals, List.mem_cons, List.not_mem_nil, or_false] at ht
  rcases ht with rfl | rfl | rfl | rfl | rfl | rfl | ht
  · have hle := lengthOfWord_le "contains" cs
    simp only [lengthOfContains]
    split
    · split <;> omega
    · exact Nat.zero_le _
  · exact lengthOfName_le cs
  · exact lengthOfString_le cs
  · exact lengthOfNumber_le cs
  · exact (List.takeWhile_prefix isSkipped).length_le
  · simp only [lengthOfComparison]
    split
    · next w hw =>
      have hp := List.find?_some hw
      exact (List.isPrefixOf_iff_prefix.1 hp).length_le
    · exact Nat.zero_le _
  · rcases ht with rfl | rfl | rfl | rfl | rfl | rfl | rfl | rfl | rfl |
      rfl | rfl
    all_goals exact lengthOfWord_le _ cs

-- ============================================================ severing

/-- A row of characters of a class ends where the next text starts with
another character. -/
theorem takeWhile_append_of_head {p : Char → Bool} {rest : List Char}
    (h : ∀ c ∈ rest.head?, p c = false) (cs : List Char) :
    (cs ++ rest).takeWhile p = cs.takeWhile p := by
  induction cs with
  | nil =>
    cases rest with
    | nil => rfl
    | cons c rest => simp [h c rfl]
  | cons c cs ih =>
    cases hc : p c with
    | false => simp [hc]
    | true => simp [hc, ih]

/-- What follows a row of characters of a class goes on with the next
text. -/
theorem drop_takeWhile_append (p : Char → Bool) (cs rest : List Char) :
    (cs ++ rest).drop (cs.takeWhile p).length =
      cs.drop (cs.takeWhile p).length ++ rest :=
  List.drop_append_of_le_length (List.takeWhile_prefix p).length_le

/-- Behind a text something else begins: a blank, a closing parenthesis,
or two dots that no dot stands in front of. -/
def Severs (cs rest : List Char) : Prop :=
  ∀ c ∈ rest.head?, isSkipped c = true ∨ c = ')' ∨
    c = '.' ∧ rest.tail.head? = some '.' ∧ cs.getLast? ≠ some '.'

section

variable {cs rest : List Char}

/-- What begins behind a text goes on with none of its words. -/
theorem Severs.head (h : Severs cs rest) :
    ∀ c ∈ rest.head?, isDashedWord c = false ∧ isDigit c = false ∧
      c ≠ '?' ∧ c ∉ "ontains".toList ∧ c ≠ '=' ∧ c ≠ '>' := by
  intro c hc
  rcases h c hc with hskip | rfl | ⟨rfl, -⟩
  · simp only [isSkipped, Bool.or_eq_true, beq_iff_eq] at hskip
    rcases hskip with (((rfl | rfl) | rfl) | rfl) | rfl <;> decide
  · decide
  · decide

/-- What is severed from a text is severed from each end of it. -/
theorem Severs.of_append {ds : List Char} (h : Severs (ds ++ cs) rest) :
    Severs cs rest := by
  intro c hc
  rcases h c hc with hskip | hround | ⟨hdot, hnext, hlast⟩
  · exact Or.inl hskip
  · exact Or.inr (Or.inl hround)
  · refine Or.inr (Or.inr ⟨hdot, hnext, fun hcs => hlast ?_⟩)
    rw [List.getLast?_append, hcs]
    rfl

/-- Whether a word matches at a text is settled before the text ends, if it
cannot go on behind it. -/
theorem prefix_append_iff {word : List Char} (hne : cs ≠ [])
    (h : ∀ c ∈ rest.head?, c ∈ word.tail → ∃ d ∈ cs, d ∉ word) :
    word <+: cs ++ rest ↔ word <+: cs := by
  refine ⟨fun ⟨zs, hzs⟩ => ?_, fun hp => hp.trans (List.prefix_append ..)⟩
  rcases List.append_eq_append_iff.1 hzs with ⟨us, hus, -⟩ | ⟨us, hus, hrest⟩
  · exact ⟨us, hus.symm⟩
  · cases us with
    | nil => exact ⟨[], by simpa using hus⟩
    | cons u us =>
      -- the word would reach into what follows
      have htail : u ∈ word.tail := by
        obtain ⟨c, cs, rfl⟩ := List.exists_cons_of_ne_nil hne
        simp [hus]
      obtain ⟨d, hd, hword⟩ := h u (by simp [hrest]) htail
      exact absurd (by simp [hus, hd]) hword

theorem lengthOfWord_severed {word : String} (hne : cs ≠ [])
    (h : ∀ c ∈ rest.head?, c ∈ word.toList.tail →
      ∃ d ∈ cs, d ∉ word.toList) :
    lengthOfWord word (cs ++ rest) = lengthOfWord word cs := by
  have hiff := prefix_append_iff hne h
  simp only [lengthOfWord, List.isPrefixOf_iff_prefix, hiff]

theorem lengthOfComparison_severed (hne : cs ≠ []) (h : Severs cs rest) :
    lengthOfComparison (cs ++ rest) = lengthOfComparison cs := by
  have hfind : comparisonWords.find? (fun w =>
      w.toList.isPrefixOf (cs ++ rest)) =
      comparisonWords.find? fun w => w.toList.isPrefixOf cs := by
    refine List.find?_congr fun w hw => ?_
    rw [Bool.eq_iff_iff, List.isPrefixOf_iff_prefix,
      List.isPrefixOf_iff_prefix]
    refine prefix_append_iff hne fun c hc htail => ?_
    obtain ⟨-, -, -, -, hequal, hgreater⟩ := h.head c hc
    have htails : ∀ w ∈ comparisonWords, ∀ c ∈ w.toList.tail,
        c = '=' ∨ c = '>' := by simp [comparisonWords]
    rcases htails w hw c htail with rfl | rfl
    · exact absurd rfl hequal
    · exact absurd rfl hgreater
  rw [lengthOfComparison, hfind, lengthOfComparison]

/-- The word that may compare is found in the text, unless it is all of the
text. -/
theorem lengthOfContains_severed (hne : cs ≠ []) (h : Severs cs rest)
    (hall : cs = "contains".toList → ∀ c ∈ rest.head?, isBlank c = false) :
    lengthOfContains (cs ++ rest) = lengthOfContains cs := by
  have hword : lengthOfWord "contains" (cs ++ rest) =
      lengthOfWord "contains" cs :=
    lengthOfWord_severed hne fun c hc htail =>
      absurd htail (h.head c hc).2.2.2.1
  simp only [lengthOfContains, hword]
  by_cases hprefix : "contains".toList <+: cs
  · obtain ⟨more, rfl⟩ := hprefix
    have hlength : lengthOfWord "contains" ("contains".toList ++ more) =
        "contains".toList.length := by
      rw [lengthOfWord, if_pos (List.isPrefixOf_iff_prefix.2
        (List.prefix_append ..))]
      rfl
    rw [hlength, List.append_assoc, List.drop_left, List.drop_left]
    cases more with
    | cons d more => rfl
    | nil =>
      rw [List.nil_append]
      cases rest with
      | nil => rfl
      | cons c rest => simp [hall (List.append_nil _) c rfl]
  · have hzero : lengthOfWord "contains" cs = 0 := by
      rw [lengthOfWord, if_neg]
      simpa [List.isPrefixOf_iff_prefix] using hprefix
    obtain ⟨c, cs, rfl⟩ := List.exists_cons_of_ne_nil hne
    rw [hzero]
    exact (ite_self 0).trans (ite_self 0).symm

theorem lengthOfName_severed (hne : cs ≠ []) (h : Severs cs rest) :
    lengthOfName (cs ++ rest) = lengthOfName cs := by
  obtain ⟨c, cs, rfl⟩ := List.exists_cons_of_ne_nil hne
  rw [List.cons_append, lengthOfName, lengthOfName,
    takeWhile_append_of_head (fun c hc => (h.head c hc).1) cs]
  simp only [drop_takeWhile_append]
  cases cs.drop (cs.takeWhile isDashedWord).length with
  | cons d ds =>
    by_cases hd : d = '?'
    · subst hd
      rfl
    · simp [hd]
  | nil =>
    rw [List.nil_append]
    split
    · split
      · next more =>
        exact absurd rfl (h.head '?' rfl).2.2.1
      · rfl
    · rfl

theorem lengthOfDigits_severed
    (hdigit : ∀ c ∈ rest.head?, isDigit c = false)
    (hdots : ∀ more, rest = '.' :: more → ∀ c ∈ more.head?, c = '.') :
    lengthOfDigits (cs ++ rest) = lengthOfDigits cs := by
  rw [lengthOfDigits, lengthOfDigits, takeWhile_append_of_head hdigit]
  simp only [drop_takeWhile_append]
  cases cs.drop (cs.takeWhile isDigit).length with
  | cons d ds =>
    by_cases hd : d = '.'
    · subst hd
      simp only [List.cons_append, takeWhile_append_of_head hdigit]
    · simp [hd]
  | nil =>
    rw [List.nil_append]
    split
    · rfl
    · split
      · next more =>
        -- the dot that follows is the first of two
        have hnone : more.takeWhile isDigit = [] := by
          cases more with
          | nil => rfl
          | cons c more =>
            obtain rfl := hdots _ rfl c rfl
            rfl
        rw [hnone]
        rfl
      · rfl

theorem lengthOfNumber_severed (hne : cs ≠ []) (h : Severs cs rest) :
    lengthOfNumber (cs ++ rest) = lengthOfNumber cs := by
  have hdigits : ∀ ds, lengthOfDigits (ds ++ rest) = lengthOfDigits ds := by
    intro ds
    refine lengthOfDigits_severed (fun c hc => (h.head c hc).2.1) ?_
    rintro more rfl c hc
    rcases h '.' rfl with hskip | hround | ⟨-, hdots, -⟩
    · exact absurd hskip (by decide)
    · exact absurd hround (by decide)
    · exact Option.some.inj (hc.symm.trans hdots)
  obtain ⟨c, cs, rfl⟩ := List.exists_cons_of_ne_nil hne
  by_cases hc : c = '-'
  · subst hc
    rw [List.cons_append, lengthOfNumber, lengthOfNumber, hdigits]
  · have hminus : ∀ ds, lengthOfNumber (c :: ds) = lengthOfDigits (c :: ds) := by
      intro ds
      rw [lengthOfNumber]
      rintro more heq
      exact hc (List.cons.inj heq).1
    rw [List.cons_append, hminus, hminus, ← List.cons_append, hdigits]

/-- A string that is closed is the same whatever follows. -/
theorem lengthOfString_append (h : lengthOfString cs ≠ 0)
    (rest : List Char) :
    lengthOfString (cs ++ rest) = lengthOfString cs := by
  cases cs with
  | nil => exact absurd rfl h
  | cons q cs =>
    simp only [lengthOfString] at h
    split at h
    · next hq =>
      obtain ⟨hquote, hmem⟩ := Bool.and_eq_true_iff.1 hq
      have hin : q ∈ cs := List.contains_iff_mem.1 hmem
      have htake : (cs ++ rest).takeWhile (· != q) =
          cs.takeWhile (· != q) := by
        rw [List.takeWhile_append, if_neg (length_takeWhile_ne hin)]
      rw [List.cons_append, lengthOfString, lengthOfString, htake, if_pos hq,
        if_pos]
      simpa [hin] using hquote
    · exact absurd rfl h

theorem lengthOfNumber_cons {c : Char} (hc : c ≠ '-' ∧ isDigit c = false)
    (rest : List Char) : lengthOfNumber (c :: rest) = 0 := by
  have hdigits : lengthOfDigits (c :: rest) = 0 := by
    simp [lengthOfDigits, hc.2]
  rw [lengthOfNumber, hdigits]
  rintro more heq
  exact hc.1 (List.cons.inj heq).1

/-- A character that is no word character, dash or quote starts none of the
words, strings and numbers. -/
theorem length_of_sign {c : Char} (hword : isWord c = false)
    (hdash : c ≠ '-') (hquotes : c ≠ '\'' ∧ c ≠ '"') (rest : List Char) :
    ∀ t ∈ terminals.take 4, t.length (c :: rest) = 0 := by
  have hletter : c ≠ 'c' := by
    rintro rfl
    exact absurd hword (by decide)
  have hdigit : isDigit c = false := by
    refine Bool.eq_false_iff.2 fun hdigit => ?_
    exact absurd (isWord_of_isDigit hdigit) (by simp [hword])
  exact List.forall_mem_cons.2 ⟨lengthOfContains_cons hletter rest,
    List.forall_mem_cons.2 ⟨lengthOfName_cons (Or.inl hword) rest,
      List.forall_mem_cons.2 ⟨lengthOfString_cons hquotes rest,
        List.forall_mem_singleton.2
          (lengthOfNumber_cons ⟨hdash, hdigit⟩ rest)⟩⟩⟩

/-- An unclosed string is no token. -/
theorem firstMatch?_unclosed {q : Char} (hq : q = '\'' ∨ q = '"')
    (h : lengthOfString (q :: cs) = 0) : firstMatch? (q :: cs) = none := by
  obtain ⟨hletter, hword, hnumber, hskip⟩ : q ≠ 'c' ∧ isWord q = false ∧
      (q ≠ '-' ∧ isDigit q = false) ∧ isSkipped q = false := by
    rcases hq with rfl | rfl <;> decide
  rw [firstMatch?, List.find?_eq_none]
  have hlengths : ∀ t ∈ terminals, t.length (q :: cs) = 0 := by
    refine List.forall_mem_cons.2 ⟨lengthOfContains_cons hletter cs,
      List.forall_mem_cons.2 ⟨lengthOfName_cons (Or.inl hword) cs,
      List.forall_mem_cons.2 ⟨h,
      List.forall_mem_cons.2 ⟨lengthOfNumber_cons hnumber cs,
      List.forall_mem_cons.2 ⟨by simp [lengthOfSkipped, hskip], ?_⟩⟩⟩⟩⟩
    rcases hq with rfl | rfl
    · simp [lengthOfComparison, comparisonWords, lengthOfWord]
    · simp [lengthOfComparison, comparisonWords, lengthOfWord]
  simpa using hlengths

/-- Each terminal matches as much of a text as before, when something is
put behind the text that is severed from it. Only blanks go on. -/
theorem length_severed {t : Terminal} (ht : t ∈ terminals) (hne : cs ≠ [])
    (h : Severs cs rest)
    (hall : cs = "contains".toList → ∀ c ∈ rest.head?, isBlank c = false)
    (hmatch : firstMatch? cs ≠ none) :
    (t.lexeme = .skipped ∧ t.length = lengthOfSkipped) ∨
      t.length (cs ++ rest) = t.length cs := by
  have hdots : ∀ c ∈ rest.head?, c ∈ "..".toList.tail →
      ∃ d ∈ cs, d ∉ "..".toList := by
    intro c hc htail
    obtain rfl : c = '.' := List.mem_singleton.1 htail
    rcases h '.' hc with hskip | hround | ⟨-, -, hlast⟩
    · exact absurd hskip (by decide)
    · exact absurd hround (by decide)
    · refine ⟨cs.getLast hne, List.getLast_mem hne, fun hdot => hlast ?_⟩
      rw [List.getLast?_eq_some_getLast hne]
      simpa using hdot
  have hstring : lengthOfString (cs ++ rest) = lengthOfString cs := by
    by_cases hzero : lengthOfString cs = 0
    · obtain ⟨q, cs, rfl⟩ := List.exists_cons_of_ne_nil hne
      by_cases hq : q = '\'' ∨ q = '"'
      · exact absurd (firstMatch?_unclosed hq hzero) hmatch
      · rw [hzero]
        exact lengthOfString_cons (not_or.1 hq) _
    · exact lengthOfString_append hzero rest
  simp only [terminals, List.mem_cons, List.not_mem_nil, or_false] at ht
  rcases ht with rfl | rfl | rfl | rfl | rfl | rfl | rfl | ht
  · exact Or.inr (lengthOfContains_severed hne h hall)
  · exact Or.inr (lengthOfName_severed hne h)
  · exact Or.inr hstring
  · exact Or.inr (lengthOfNumber_severed hne h)
  · exact Or.inl ⟨rfl, rfl⟩
  · exact Or.inr (lengthOfComparison_severed hne h)
  · exact Or.inr (lengthOfWord_severed hne hdots)
  · rcases ht with rfl | rfl | rfl | rfl | rfl | rfl | rfl | rfl | rfl | rfl
    all_goals exact Or.inr (lengthOfWord_severed hne fun c _ htail =>
      absurd htail List.not_mem_nil)

/-- The first terminal that matches is still the first. -/
theorem firstMatch?_severed {t : Terminal} (hne : cs ≠ [])
    (h : Severs cs rest)
    (hall : cs = "contains".toList → ∀ c ∈ rest.head?, isBlank c = false)
    (hmatch : firstMatch? cs = some t) :
    firstMatch? (cs ++ rest) = some t := by
  rw [← hmatch, firstMatch?, firstMatch?]
  refine List.find?_congr fun u hu => ?_
  rcases length_severed hu hne h hall (by simp [hmatch]) with
    ⟨-, hskip⟩ | hlength
  · obtain ⟨c, cs, rfl⟩ := List.exists_cons_of_ne_nil hne
    rw [hskip, List.cons_append, lengthOfSkipped, lengthOfSkipped]
    cases hc : isSkipped c <;> simp [hc]
  · rw [hlength]

end

end Token
end Stencil
