/-
Texts that are tokens.

A scan tries its terminals in order, so to know the token that a text
starts with is to know that no earlier terminal matches, and how far the
right one reaches. Names and numbers end where a character comes that
cannot go on with them (`EndsWord`); quotes and brackets end by
themselves. The word `contains` is the only one whose kind depends on what
stands around it, a blank behind it and an operand in front.

Each lemma takes one token off the start of a text. Where an operand is
scanned, the token before it ends none (`Awaits`).
-/
import Stencil.Proofs.Markup.Writing
import Stencil.Proofs.Number.Numeral

namespace Stencil

open Text

namespace Token

-- =============================================================== steps

/-- What follows in front of which a name or a number ends. -/
def EndsWord (rest : List Char) : Prop :=
  ∀ c ∈ rest.head?, c = ' ' ∨ c = '[' ∨ c = ']'

/-- An operand has to come after a token, or at the start. -/
def Awaits (previous : Option Token) : Prop :=
  ∀ t ∈ previous, t.endsOperand = false

theorem awaits_none : Awaits none := by simp [Awaits]

theorem awaits_some {t : Token} (h : t.endsOperand = false) :
    Awaits (some t) := by
  intro u hu
  rwa [← Option.some.inj hu]

/-- The word that may compare is a name where an operand has to come. -/
theorem kindAfter_contains {previous : Option Token} (h : Awaits previous) :
    kindAfter previous .contains = some .id := by
  cases previous with
  | none => rfl
  | some t => simp [kindAfter, h t rfl]

/-- The first terminal that matches is the one that no earlier one
forestalls. -/
theorem firstMatch?_of_place {cs : List Char} {t : Terminal} (i : Nat)
    (hplace : terminals[i]? = some t)
    (hbefore : ∀ u ∈ terminals.take i, u.length cs = 0)
    (ht : t.length cs ≠ 0) : firstMatch? cs = some t := by
  obtain ⟨hi, heq⟩ := List.getElem?_eq_some_iff.1 hplace
  have hsplit : terminals = terminals.take i ++ t :: terminals.drop (i + 1) := by
    rw [← heq, ← List.drop_eq_getElem_cons hi, List.take_append_drop]
  have hnone : (terminals.take i).find? (fun u => u.length cs != 0) =
      none := by
    rw [List.find?_eq_none]
    intro u hu
    simp [hbefore u hu]
  rw [firstMatch?, hsplit, List.find?_append, hnone, Option.none_or,
    List.find?_cons_of_pos]
  simpa using ht

theorem lengthOfContains_cons {c : Char} (hc : c ≠ 'c') (rest : List Char) :
    lengthOfContains (c :: rest) = 0 := by
  have hword : lengthOfWord "contains" (c :: rest) = 0 := by
    rw [lengthOfWord, if_neg]
    intro h
    exact hc (List.cons_prefix_cons.1 (List.isPrefixOf_iff_prefix.1 h)).1.symm
  rw [lengthOfContains, hword]
  exact ite_self _

theorem lengthOfName_cons {c : Char}
    (hc : isWord c = false ∨ isDigit c = true) (rest : List Char) :
    lengthOfName (c :: rest) = 0 := by
  rw [lengthOfName, if_neg]
  rcases hc with hc | hc <;> simp [hc]

theorem lengthOfString_cons {c : Char} (hc : c ≠ '\'' ∧ c ≠ '"')
    (rest : List Char) : lengthOfString (c :: rest) = 0 := by
  rw [lengthOfString, if_neg]
  simp [hc]

/-- What the first terminal that matches makes of the start of a text. -/
theorem scanAfter_matched {previous : Option Token} {cs : List Char}
    {t : Terminal} (hne : cs ≠ []) (hmatch : firstMatch? cs = some t) :
    scanAfter previous cs =
      match kindAfter previous t.lexeme with
      | none => scanAfter previous (cs.drop (t.length cs))
      | some kind =>
        let token := ⟨kind, String.ofList (cs.take (t.length cs))⟩
        (scanAfter (some token) (cs.drop (t.length cs))).map (token :: ·) := by
  obtain ⟨c, cs, rfl⟩ := List.exists_cons_of_ne_nil hne
  rw [scanAfter]
  split
  · next hnone =>
    rw [hmatch] at hnone
    cases hnone
  · next t' hsome =>
    rw [hmatch] at hsome
    obtain rfl := Option.some.inj hsome
    dsimp only
    cases kindAfter previous t.lexeme with
    | none => rfl
    | some kind =>
      dsimp only
      cases scanAfter _ ((c :: cs).drop (t.length (c :: cs))) <;> rfl

/-- A terminal that matches takes a token off the text. -/
theorem scanAfter_token {previous : Option Token} {cs : List Char}
    {t : Terminal} {kind : TokenKind} (hne : cs ≠ [])
    (hmatch : firstMatch? cs = some t)
    (hkind : kindAfter previous t.lexeme = some kind) :
    scanAfter previous cs =
      (scanAfter (some ⟨kind, String.ofList (cs.take (t.length cs))⟩)
        (cs.drop (t.length cs))).map
          (⟨kind, String.ofList (cs.take (t.length cs))⟩ :: ·) := by
  rw [scanAfter_matched hne hmatch, hkind]

/-- A match that is known is taken off the text. -/
theorem scanAfter_of_match {previous : Option Token} {cs rest : List Char}
    {t : Terminal} {kind : TokenKind} (hne : cs ≠ [])
    (hmatch : firstMatch? (cs ++ rest) = some t)
    (hlength : t.length (cs ++ rest) = cs.length)
    (hkind : kindAfter previous t.lexeme = some kind) :
    scanAfter previous (cs ++ rest) =
      (scanAfter (some ⟨kind, String.ofList cs⟩) rest).map
        (⟨kind, String.ofList cs⟩ :: ·) := by
  rw [scanAfter_token (List.append_ne_nil_of_left_ne_nil hne rest) hmatch
    hkind, hlength, List.take_left, List.drop_left]

/-- A word that is matched as a whole is a token of its kind. -/
theorem scanAfter_spelled (word : String) {previous : Option Token}
    {rest : List Char} {t : Terminal} {kind : TokenKind}
    (hne : word.toList ≠ [])
    (hmatch : firstMatch? (word.toList ++ rest) = some t)
    (hlength : t.length (word.toList ++ rest) = word.toList.length)
    (hkind : kindAfter previous t.lexeme = some kind) :
    scanAfter previous (word.toList ++ rest) =
      (scanAfter (some ⟨kind, word⟩) rest).map (⟨kind, word⟩ :: ·) := by
  have hscan := scanAfter_of_match hne hmatch hlength hkind
  rwa [String.ofList_toList] at hscan

/-- A blank in front of a text is skipped. -/
theorem scanAfter_space {previous : Option Token} {cs : List Char}
    (hcs : ∀ c ∈ cs.head?, isSkipped c = false) :
    scanAfter previous (' ' :: cs) = scanAfter previous cs := by
  have hmatch : firstMatch? (' ' :: cs) =
      some ⟨.skipped, lengthOfSkipped⟩ := rfl
  have hlength : lengthOfSkipped (' ' :: cs) = 1 := by
    have hnone : cs.takeWhile isSkipped = [] := by
      cases cs with
      | nil => rfl
      | cons c cs => simp [hcs c rfl]
    rw [lengthOfSkipped, List.takeWhile_cons_of_pos (by decide), hnone]
    rfl
  rw [scanAfter_matched (List.cons_ne_nil ' ' cs) hmatch]
  dsimp only [kindAfter]
  rw [hlength]
  rfl

-- ================================================================ rows

/-- A row of characters of a class is taken as a whole, and no more. -/
theorem takeWhile_row {p : Char → Bool} {cs rest : List Char}
    (hcs : cs.all p = true) (h : ∀ c ∈ rest.head?, p c = false) :
    (cs ++ rest).takeWhile p = cs := by
  have hnone : rest.takeWhile p = [] := by
    cases rest with
    | nil => rfl
    | cons c rest => simp [h c rfl]
  rw [List.takeWhile_append_of_pos (List.all_eq_true.1 hcs), hnone,
    List.append_nil]

-- =============================================================== names

/-- A name reaches up to a character that ends words. -/
theorem lengthOfName_append {name rest : List Char} (hname : IsName name)
    (hrest : EndsWord rest) : lengthOfName (name ++ rest) = name.length := by
  obtain ⟨c, word, mark, rfl, hc, hdigit, hword, hmark⟩ := hname
  have hends : ∀ d ∈ rest.head?, isDashedWord d = false ∧ d ≠ '?' := by
    intro d hd
    rcases hrest d hd with rfl | rfl | rfl <;> decide
  have hhead : ∀ d ∈ (mark ++ rest).head?, isDashedWord d = false := by
    intro d hd
    rcases hmark with rfl | rfl
    · exact (hends d hd).1
    · obtain rfl : '?' = d := Option.some.inj hd
      decide
  rw [List.append_assoc, List.cons_append, lengthOfName,
    if_pos (by simp [hc, hdigit]), takeWhile_row hword hhead]
  dsimp only
  rw [List.drop_left]
  rcases hmark with rfl | rfl
  · rw [List.nil_append]
    split
    · next more =>
      exact absurd rfl (hends '?' rfl).2
    · simp
  · simp

/-- The word that may compare matches in a name only if it is all of it,
in front of a blank. -/
theorem eq_contains_of_length {name rest : List Char} (hname : IsName name)
    (hrest : EndsWord rest) (h : lengthOfContains (name ++ rest) ≠ 0) :
    name = "contains".toList ∧ ∃ more, rest = ' ' :: more := by
  obtain ⟨htake, b, more, hdrop, hblank⟩ := take_lengthOfContains h
  have heq : name ++ rest = "contains".toList ++ b :: more := by
    rw [← htake, ← hdrop, List.take_append_drop]
  rcases List.append_eq_append_iff.1 heq with ⟨us, hus, hmore⟩ | ⟨us, hus, hmore⟩
  · cases us with
    | nil =>
      rw [List.append_nil] at hus
      refine ⟨hus.symm, more, ?_⟩
      rcases hrest b (by rw [hmore]; rfl) with rfl | rfl | rfl
      · exact hmore
      · exact absurd hblank (by decide)
      · exact absurd hblank (by decide)
    | cons u us =>
      -- the rest would start with a letter of the word
      have hletter : u ∈ "contains".toList := by simp [hus]
      rcases hrest u (by rw [hmore]; rfl) with rfl | rfl | rfl
      · exact absurd hletter (by decide)
      · exact absurd hletter (by decide)
      · exact absurd hletter (by decide)
  · cases us with
    | nil =>
      rw [List.append_nil] at hus
      refine ⟨hus, more, ?_⟩
      obtain rfl : b :: more = rest := by simpa using hmore
      rcases hrest b rfl with rfl | rfl | rfl
      · rfl
      · exact absurd hblank (by decide)
      · exact absurd hblank (by decide)
    | cons u us =>
      -- the name would hold a blank
      obtain rfl : b = u := (List.cons.inj hmore).1
      have hmem : b ∈ name := by simp [hus]
      exact absurd hblank (by simp [(hname.isSolid b hmem).2.1])

/-- A name is a token, the word that may compare where an operand has to
come. -/
theorem scanAfter_name {previous : Option Token} {name rest : List Char}
    (hname : IsName name) (hrest : EndsWord rest)
    (hprevious : name = "contains".toList → Awaits previous) :
    scanAfter previous (name ++ rest) =
      (scanAfter (some ⟨.id, String.ofList name⟩) rest).map
        (⟨.id, String.ofList name⟩ :: ·) := by
  have hne : name ≠ [] := by
    obtain ⟨c, word, mark, rfl, -⟩ := hname
    simp
  by_cases hcontains : lengthOfContains (name ++ rest) = 0
  · have hlength := lengthOfName_append hname hrest
    have hmatch : firstMatch? (name ++ rest) =
        some ⟨.token .id, lengthOfName⟩ := by
      apply firstMatch?_of_place 1 rfl
      · simpa [terminals] using hcontains
      · simpa [hlength] using hne
    exact scanAfter_of_match hne hmatch hlength rfl
  · obtain ⟨rfl, more, rfl⟩ := eq_contains_of_length hname hrest hcontains
    have hmatch : firstMatch? ("contains".toList ++ ' ' :: more) =
        some ⟨.contains, lengthOfContains⟩ := rfl
    exact scanAfter_of_match hne hmatch rfl
      (kindAfter_contains (hprevious rfl))

-- ==================================================== numbers, strings

/-- A row of digits reaches up to a character that ends words. -/
theorem lengthOfDigits_append {whole rest : List Char}
    (hwhole : Numeral.isDigits whole = true) (hrest : EndsWord rest) :
    lengthOfDigits (whole ++ rest) = whole.length := by
  obtain ⟨hne, hall⟩ := Bool.and_eq_true_iff.1 hwhole
  have hhead : ∀ c ∈ rest.head?, isDigit c = false ∧ c ≠ '.' := by
    intro c hc
    rcases hrest c hc with rfl | rfl | rfl <;> decide
  rw [lengthOfDigits, takeWhile_row hall fun c hc => (hhead c hc).1]
  dsimp only
  rw [if_neg (by simpa using hne), List.drop_left]
  split
  · next more =>
    exact absurd rfl (hhead '.' rfl).2
  · rfl

/-- A numeral is no name and no string, so it is found to be a number. -/
theorem firstMatch?_numeral {numeral rest : List Char}
    (h : IsNumeral numeral)
    (hlength : lengthOfNumber (numeral ++ rest) ≠ 0) :
    firstMatch? (numeral ++ rest) =
      some ⟨.token .number, lengthOfNumber⟩ := by
  obtain ⟨c, more, heq, hc, hname, hquotes⟩ : ∃ c more,
      numeral ++ rest = c :: more ∧ c ≠ 'c' ∧
      (isWord c = false ∨ isDigit c = true) ∧ c ≠ '\'' ∧ c ≠ '"' := by
    obtain ⟨minus, whole, part, rfl, hminus, hwhole, -⟩ := h
    rcases hminus with rfl | rfl
    · cases whole with
      | nil => cases hwhole
      | cons d ds =>
        have hd : isDigit d = true :=
          (Bool.and_eq_true_iff.1 (Bool.and_eq_true_iff.1 hwhole).2).1
        have hne : ∀ c, isDigit c = false → d ≠ c := by
          rintro c hc rfl
          exact absurd hd (by simp [hc])
        exact ⟨d, ds ++ part ++ rest, rfl, hne 'c' (by decide), Or.inr hd,
          hne '\'' (by decide), hne '"' (by decide)⟩
    · exact ⟨'-', whole ++ part ++ rest, rfl, by decide,
        Or.inl (by decide), by decide, by decide⟩
  apply firstMatch?_of_place 3 rfl
  · rw [heq]
    exact List.forall_mem_cons.2 ⟨lengthOfContains_cons hc more,
      List.forall_mem_cons.2 ⟨lengthOfName_cons hname more,
        List.forall_mem_singleton.2 (lengthOfString_cons hquotes more)⟩⟩
  · exact hlength

/-- An integer is a token. -/
theorem scanAfter_number {previous : Option Token}
    {minus whole rest : List Char} (hminus : minus = [] ∨ minus = ['-'])
    (hwhole : Numeral.isDigits whole = true) (hrest : EndsWord rest) :
    scanAfter previous (minus ++ whole ++ rest) =
      (scanAfter (some ⟨.number, String.ofList (minus ++ whole)⟩) rest).map
        (⟨.number, String.ofList (minus ++ whole)⟩ :: ·) := by
  have hdigits : whole ≠ [] := by
    rintro rfl
    cases hwhole
  have hne : minus ++ whole ≠ [] :=
    List.append_ne_nil_of_right_ne_nil minus hdigits
  have hnumeral : IsNumeral (minus ++ whole) :=
    ⟨minus, whole, [], (List.append_nil _).symm, hminus, hwhole, Or.inl rfl⟩
  have hlength : lengthOfNumber (minus ++ whole ++ rest) =
      (minus ++ whole).length := by
    have htake := lengthOfDigits_append hwhole hrest
    rcases hminus with rfl | rfl
    · rw [List.nil_append, lengthOfNumber, htake]
      rintro more heq
      cases whole with
      | nil => exact hne rfl
      | cons d ds =>
        obtain rfl : d = '-' := (List.cons.inj heq).1
        cases hwhole
    · show lengthOfNumber ('-' :: (whole ++ rest)) = _
      rw [lengthOfNumber, htake]
      simpa using hdigits
  have hmatch : firstMatch? (minus ++ whole ++ rest) =
      some ⟨.token .number, lengthOfNumber⟩ := by
    refine firstMatch?_numeral hnumeral ?_
    rw [hlength]
    exact fun hzero => hne (List.length_eq_zero_iff.1 hzero)
  exact scanAfter_of_match hne hmatch hlength rfl

/-- A text in quotes is matched as a whole, and no more. -/
theorem lengthOfString_quoted {quoted : List Char} (h : IsQuoted quoted)
    (rest : List Char) :
    lengthOfString (quoted ++ rest) = quoted.length := by
  obtain ⟨q, body, rfl, hq, hbody⟩ := h
  have hall : body.all (· != q) = true := by
    refine List.all_eq_true.2 fun c hc => bne_iff_ne.2 ?_
    rintro rfl
    exact hbody hc
  have htake : (body ++ q :: rest).takeWhile (· != q) = body := by
    refine takeWhile_row hall ?_
    rintro _ ⟨⟩
    simp
  have hshape : q :: body ++ [q] ++ rest = q :: (body ++ q :: rest) := by simp
  rw [hshape, lengthOfString, htake, if_pos (by simpa using hq)]
  simp

/-- A text in quotes is no name, so it is found to be a string. -/
theorem firstMatch?_quoted {quoted : List Char} (h : IsQuoted quoted)
    (rest : List Char) :
    firstMatch? (quoted ++ rest) =
      some ⟨.token .string, lengthOfString⟩ := by
  have hlength := lengthOfString_quoted h rest
  obtain ⟨q, body, rfl, hq, -⟩ := h
  obtain ⟨hc, hword⟩ : q ≠ 'c' ∧ isWord q = false := by
    rcases hq with rfl | rfl <;> decide
  apply firstMatch?_of_place 2 rfl
  · exact List.forall_mem_cons.2 ⟨lengthOfContains_cons hc _,
      List.forall_mem_singleton.2 (lengthOfName_cons (Or.inl hword) _)⟩
  · show lengthOfString (q :: body ++ [q] ++ rest) ≠ 0
    rw [hlength]
    simp

/-- A text in quotes is a token. -/
theorem scanAfter_string {previous : Option Token} {q : Char}
    {body : List Char} (hq : q = '\'' ∨ q = '"') (hbody : q ∉ body)
    (rest : List Char) :
    scanAfter previous (q :: body ++ [q] ++ rest) =
      (scanAfter (some ⟨.string, String.ofList (q :: body ++ [q])⟩)
        rest).map (⟨.string, String.ofList (q :: body ++ [q])⟩ :: ·) := by
  have hquoted : IsQuoted (q :: body ++ [q]) := ⟨q, body, rfl, hq, hbody⟩
  exact scanAfter_of_match (by simp) (firstMatch?_quoted hquoted rest)
    (lengthOfString_quoted hquoted rest) rfl

-- ===================================================== brackets, operators

theorem scanAfter_openSquare (previous : Option Token) (rest : List Char) :
    scanAfter previous ('[' :: rest) =
      (scanAfter (some ⟨.openSquare, "["⟩) rest).map
        (⟨.openSquare, "["⟩ :: ·) := by
  have hmatch : firstMatch? ('[' :: rest) =
      some ⟨.token .openSquare, lengthOfWord "["⟩ := rfl
  exact scanAfter_spelled "[" (by decide) hmatch rfl rfl

theorem scanAfter_closeSquare (previous : Option Token)
    (rest : List Char) :
    scanAfter previous (']' :: rest) =
      (scanAfter (some ⟨.closeSquare, "]"⟩) rest).map
        (⟨.closeSquare, "]"⟩ :: ·) := by
  have hmatch : firstMatch? (']' :: rest) =
      some ⟨.token .closeSquare, lengthOfWord "]"⟩ := rfl
  exact scanAfter_spelled "]" (by decide) hmatch rfl rfl

/-- Behind an operand and in front of a blank, an operator compares. -/
theorem scanAfter_operator {last : Token} (hlast : last.endsOperand = true)
    (op : Operator) (rest : List Char) :
    scanAfter (some last) (op.text.toList ++ ' ' :: rest) =
      (scanAfter (some ⟨.comparison, op.text⟩) (' ' :: rest)).map
        (⟨.comparison, op.text⟩ :: ·) := by
  have hsign : ∀ word : String, word.toList ≠ [] →
      firstMatch? (word.toList ++ ' ' :: rest) =
        some ⟨.token .comparison, lengthOfComparison⟩ →
      lengthOfComparison (word.toList ++ ' ' :: rest) =
        word.toList.length →
      scanAfter (some last) (word.toList ++ ' ' :: rest) =
        (scanAfter (some ⟨.comparison, word⟩) (' ' :: rest)).map
          (⟨.comparison, word⟩ :: ·) := by
    intro word hne hmatch hlength
    exact scanAfter_spelled word hne hmatch hlength rfl
  cases op with
  | equal => exact hsign "==" (by decide) rfl rfl
  | unequal => exact hsign "!=" (by decide) rfl rfl
  | lessOrGreater => exact hsign "<>" (by decide) rfl rfl
  | order direction =>
    cases direction with
    | less => exact hsign "<" (by decide) rfl rfl
    | greater => exact hsign ">" (by decide) rfl rfl
    | lessEqual => exact hsign "<=" (by decide) rfl rfl
    | greaterEqual => exact hsign ">=" (by decide) rfl rfl
  | contains =>
    have hmatch : firstMatch? ("contains".toList ++ ' ' :: rest) =
        some ⟨.contains, lengthOfContains⟩ := rfl
    have hkind : kindAfter (some last) .contains = some .comparison := by
      simp [kindAfter, hlast]
    exact scanAfter_spelled "contains" (by decide) hmatch rfl hkind

end Token

end Stencil
