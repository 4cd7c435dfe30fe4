/-
How tokens stand in markup, and where a scan gives up.

`Token.Laid` lays tokens out in markup, up to some place: blanks and tokens
in turn, each token the longest text that fits a kind where it stands. Its
rules are the specification, and they know of no order in which anything is
tried. Only for the word `contains` they have to say what its kind is, as
it fits two. A scan stops at the end, or in front of what is `Foreign`.

A scan tries its terminals one after the other. That the first one that
matches takes the longest text that fits any kind is what the first part
shows (`Fits.reaches`). Kinds are told apart by the first characters of
their texts, but for a dash and a number, one dot and two, and the word
`contains` and a name; there the order of the terminals has to be right.

Every markup is laid out as its scan says, to its end or to the character
that the failure names (`Token.exists_laid`, by the recursion of the scan),
and in no other way (`Token.Laid.scanAfter_eq`, by the layout).
-/
import Stencil.Proofs.Markup.Joining

namespace Stencil

open Text

namespace Token

-- ============================================================= reaching

/-- A row of characters of a class is taken, and perhaps more. -/
theorem length_le_takeWhile {p : Char → Bool} {row : List Char}
    (h : row.all p = true) (rest : List Char) :
    row.length ≤ ((row ++ rest).takeWhile p).length := by
  rw [List.takeWhile_append_of_pos (List.all_eq_true.1 h),
    List.length_append]
  exact Nat.le_add_right ..

theorem le_lengthOfName {name : List Char} (h : IsName name)
    (rest : List Char) : name.length ≤ lengthOfName (name ++ rest) := by
  obtain ⟨c, word, mark, rfl, hc, hdigit, hword, hmark⟩ := h
  have hshape : c :: word ++ mark ++ rest = c :: (word ++ (mark ++ rest)) := by
    simp
  rw [hshape, lengthOfName, if_pos (by simp [hc, hdigit])]
  rcases hmark with rfl | rfl
  · have hle := length_le_takeWhile hword rest
    dsimp only [List.nil_append]
    rw [List.append_nil, List.length_cons]
    split <;> omega
  · have hrow : (word ++ (['?'] ++ rest)).takeWhile isDashedWord = word := by
      refine takeWhile_row hword fun d hd => ?_
      obtain rfl : '?' = d := Option.some.inj hd
      decide
    rw [hrow]
    dsimp only
    rw [List.drop_left]
    simp

theorem le_lengthOfDigits {whole part : List Char}
    (hwhole : Numeral.isDigits whole = true)
    (hpart : part = [] ∨ ∃ digits, part = '.' :: digits ∧
      Numeral.isDigits digits = true) (rest : List Char) :
    (whole ++ part).length ≤ lengthOfDigits (whole ++ part ++ rest) := by
  have hrow : ∀ {row : List Char}, Numeral.isDigits row = true →
      0 < row.length ∧ row.all isDigit = true := by
    intro row h
    obtain ⟨hne, hall⟩ := Bool.and_eq_true_iff.1 h
    exact ⟨List.length_pos_iff.2 (by simpa using hne), hall⟩
  obtain ⟨hpos, hall⟩ := hrow hwhole
  rcases hpart with rfl | ⟨digits, rfl, hdigits⟩
  · have hle := length_le_takeWhile hall rest
    rw [List.append_nil, lengthOfDigits]
    dsimp only
    rw [if_neg (by simp only [beq_iff_eq]; omega)]
    split
    · split <;> omega
    · exact hle
  · obtain ⟨hpos', hall'⟩ := hrow hdigits
    have hle := length_le_takeWhile hall' rest
    have htake : (whole ++ '.' :: (digits ++ rest)).takeWhile isDigit =
        whole := by
      refine takeWhile_row hall fun d hd => ?_
      obtain rfl : '.' = d := Option.some.inj hd
      decide
    have hshape : whole ++ '.' :: digits ++ rest =
        whole ++ '.' :: (digits ++ rest) := by simp
    rw [hshape, lengthOfDigits, htake]
    dsimp only
    rw [if_neg (by simp only [beq_iff_eq]; omega), List.drop_left]
    show _ ≤ if ((digits ++ rest).takeWhile isDigit).length == 0
      then whole.length
      else whole.length + ((digits ++ rest).takeWhile isDigit).length + 1
    rw [if_neg (by simp only [beq_iff_eq]; omega)]
    simp only [List.length_append, List.length_cons]
    omega

theorem le_lengthOfNumber {numeral : List Char} (h : IsNumeral numeral)
    (rest : List Char) :
    numeral.length ≤ lengthOfNumber (numeral ++ rest) := by
  obtain ⟨minus, whole, part, rfl, hminus, hwhole, hpart⟩ := h
  have hle := le_lengthOfDigits hwhole hpart rest
  cases whole with
  | nil => cases hwhole
  | cons d ds =>
    rcases hminus with rfl | rfl
    · have hd : ∀ more, d :: ds ++ part ++ rest = '-' :: more → False := by
        intro more heq
        obtain rfl : d = '-' := (List.cons.inj heq).1
        cases hwhole
      rwa [List.nil_append, lengthOfNumber.eq_2 _ hd]
    · have hpos : lengthOfDigits (d :: ds ++ part ++ rest) ≠ 0 :=
        Nat.ne_of_gt (Nat.lt_of_lt_of_le (Nat.succ_pos _) hle)
      show _ ≤ lengthOfNumber ('-' :: (d :: ds ++ part ++ rest))
      rw [lengthOfNumber, if_neg (by simpa using hpos)]
      simpa using hle

/-- The words that are tried before a comparison are no shorter. -/
theorem le_lengthOfComparison {word : String}
    (h : word ∈ comparisonWords) (rest : List Char) :
    word.toList.length ≤ lengthOfComparison (word.toList ++ rest) := by
  have hfront : word.toList.isPrefixOf (word.toList ++ rest) = true :=
    List.isPrefixOf_iff_prefix.2 (List.prefix_append ..)
  rw [lengthOfComparison, String.length_toList]
  split
  · next found hfound =>
    obtain ⟨-, before, after, hwords, hbefore⟩ :=
      List.find?_eq_some_iff_append.1 hfound
    have hsorted : comparisonWords.Pairwise
        fun v w => w.length ≤ v.length := by decide
    rw [hwords] at h hsorted
    have hmem : word ∈ found :: after := by
      refine (List.mem_append.1 h).resolve_left fun hin => ?_
      simpa [hfront] using hbefore word hin
    rcases List.mem_cons.1 hmem with rfl | hmem
    · exact Nat.le_refl _
    · have hfirst := (List.pairwise_append.1 hsorted).2.1
      exact (List.pairwise_cons.1 hfirst).1 word hmem
  · next hnone =>
    exact absurd hfront (List.find?_eq_none.1 hnone word h)

/-- The first terminal that matches takes a text off the start, and
perhaps more. If it takes no more, it makes a token of the text's kind,
unless the text is the word that may compare. -/
def Reaches (kind : TokenKind) (text rest : List Char) : Prop :=
  ∃ t, firstMatch? (text ++ rest) = some t ∧ t.lexeme ≠ .skipped ∧
    text.length ≤ t.length (text ++ rest) ∧
    (t.length (text ++ rest) = text.length →
      t.lexeme = .token kind ∨ text = "contains".toList)

theorem reaches_name {name : List Char} (h : IsName name)
    (rest : List Char) : Reaches .id name rest := by
  by_cases hcontains : lengthOfContains (name ++ rest) = 0
  · have hle := le_lengthOfName h rest
    have hpos : 0 < name.length := by
      obtain ⟨c, word, mark, rfl, -⟩ := h
      simp
    refine ⟨⟨.token .id, lengthOfName⟩, ?_, by decide, hle, fun _ => Or.inl rfl⟩
    apply firstMatch?_of_place 1 rfl
    · simpa [terminals] using hcontains
    · exact Nat.ne_of_gt (Nat.lt_of_lt_of_le hpos hle)
  · obtain ⟨htake, b, more, hdrop, hblank⟩ := take_lengthOfContains hcontains
    refine ⟨⟨.contains, lengthOfContains⟩,
      firstMatch?_of_place 0 rfl (fun u hu => absurd hu List.not_mem_nil)
        hcontains, by decide, ?_,
      fun hlength => Or.inr ?_⟩
    · -- a longer name would hold the blank
      by_contra hlt
      rw [Nat.not_le] at hlt
      have hin : b ∈ name.drop (lengthOfContains (name ++ rest)) := by
        rw [List.drop_append_of_le_length (Nat.le_of_lt hlt)] at hdrop
        cases hname : name.drop (lengthOfContains (name ++ rest)) with
        | nil =>
          exact absurd (List.drop_eq_nil_iff.1 hname) (Nat.not_le.2 hlt)
        | cons c cs =>
          rw [hname] at hdrop
          obtain rfl : c = b := (List.cons.inj hdrop).1
          exact List.mem_cons_self
      have hsolid := (h.isSolid b (List.mem_of_mem_drop hin)).2.1
      exact absurd hblank (by simp [hsolid])
    · have hall : lengthOfContains (name ++ rest) = name.length := hlength
      rw [← htake, hall, List.take_left]

theorem reaches_comparison {word : String} (h : word ∈ comparisonWords)
    (rest : List Char) : Reaches .comparison word.toList rest := by
  have hle := le_lengthOfComparison h rest
  obtain ⟨c, cs, hcs, hsign⟩ : ∃ c cs, word.toList = c :: cs ∧
      (c = '=' ∨ c = '!' ∨ c = '<' ∨ c = '>') := by
    simp only [comparisonWords, List.mem_cons, List.not_mem_nil,
      or_false] at h
    rcases h with rfl | rfl | rfl | rfl | rfl | rfl | rfl
    all_goals exact ⟨_, _, rfl, by decide⟩
  obtain ⟨hskip, hword, hdash, hquotes⟩ : isSkipped c = false ∧
      isWord c = false ∧ c ≠ '-' ∧ c ≠ '\'' ∧ c ≠ '"' := by
    rcases hsign with rfl | rfl | rfl | rfl <;> decide
  rw [hcs] at hle ⊢
  have hbefore : ∀ t ∈ terminals.take 4 ++ [⟨.skipped, lengthOfSkipped⟩],
      t.length (c :: (cs ++ rest)) = 0 :=
    List.forall_mem_append.2 ⟨length_of_sign hword hdash hquotes _,
      List.forall_mem_singleton.2 (by simp [lengthOfSkipped, hskip])⟩
  exact ⟨⟨.token .comparison, lengthOfComparison⟩,
    firstMatch?_of_place 5 rfl hbefore
      (Nat.ne_of_gt (Nat.lt_of_lt_of_le (Nat.succ_pos _) hle)),
    by decide, hle, fun _ => Or.inl rfl⟩

/-- A dash is one, unless digits make a number of it. -/
theorem reaches_dash (rest : List Char) : Reaches .dash ['-'] rest := by
  have hfirst : firstMatch? ('-' :: rest) =
      bif lengthOfNumber ('-' :: rest) != 0
      then some ⟨.token .number, lengthOfNumber⟩
      else some ⟨.token .dash, lengthOfWord "-"⟩ := rfl
  cases hnumber : lengthOfNumber ('-' :: rest) with
  | zero =>
    rw [hnumber] at hfirst
    exact ⟨_, hfirst, by decide, Nat.le_refl 1, fun _ => Or.inl rfl⟩
  | succ n =>
    rw [hnumber] at hfirst
    refine ⟨_, hfirst, by decide,
      Nat.le.intro ((Nat.add_comm 1 n).trans hnumber.symm), fun hlength => ?_⟩
    have hone : lengthOfNumber ('-' :: rest) = 1 := hlength
    rw [lengthOfNumber] at hone
    split at hone
    · cases hone
    · next hdigits =>
      exact absurd (Nat.succ.inj hone) (by simpa using hdigits)

/-- A dot is one, unless it is the first of two. -/
theorem reaches_dot (rest : List Char) : Reaches .dot ['.'] rest := by
  have hfirst : firstMatch? ('.' :: rest) =
      bif lengthOfWord ".." ('.' :: rest) != 0
      then some ⟨.token .dotdot, lengthOfWord ".."⟩
      else some ⟨.token .dot, lengthOfWord "."⟩ := rfl
  cases hdots : "..".toList.isPrefixOf ('.' :: rest) with
  | false =>
    have hzero : lengthOfWord ".." ('.' :: rest) = 0 := by
      simp only [lengthOfWord, hdots, Bool.false_eq_true, if_false]
    rw [hzero] at hfirst
    exact ⟨_, hfirst, by decide, Nat.le_refl 1, fun _ => Or.inl rfl⟩
  | true =>
    have htwo : lengthOfWord ".." ('.' :: rest) = 2 := by
      simp only [lengthOfWord, hdots, if_true]
      rfl
    rw [htwo] at hfirst
    exact ⟨_, hfirst, by decide, Nat.le_of_lt (Nat.le_of_eq htwo.symm),
      fun hlength => absurd (htwo.symm.trans hlength) (by decide)⟩

end Token

/-- Whatever fits a kind is taken off the start of a text. -/
theorem Fits.reaches {kind : TokenKind} {text : List Char}
    (h : Fits kind text) (hkind : kind ≠ .endOfString) (rest : List Char) :
    Token.Reaches kind text rest := by
  cases kind with
  | id => exact Token.reaches_name h rest
  | string =>
    have hlength := Token.lengthOfString_quoted h rest
    exact ⟨_, Token.firstMatch?_quoted h rest, by decide,
      Nat.le_of_eq hlength.symm, fun _ => Or.inl rfl⟩
  | number =>
    have hle := Token.le_lengthOfNumber h rest
    have hne := Nat.ne_of_gt (Nat.lt_of_lt_of_le h.length_pos hle)
    exact ⟨_, Token.firstMatch?_numeral h hne, by decide, hle,
      fun _ => Or.inl rfl⟩
  | comparison =>
    rcases h with h | rfl
    · have hreaches := Token.reaches_comparison h rest
      rwa [String.toList_ofList] at hreaches
    · -- as a name the word is reached too, and its kind is left open
      obtain ⟨t, hmatch, hskip, hle, -⟩ :=
        Token.reaches_name Token.isName_contains rest
      exact ⟨t, hmatch, hskip, hle, fun _ => Or.inr rfl⟩
  | dot =>
    obtain rfl := h
    exact Token.reaches_dot rest
  | dash =>
    obtain rfl := h
    exact Token.reaches_dash rest
  | endOfString => exact absurd rfl hkind
  | _ =>
    obtain rfl := h
    exact ⟨_, rfl, by decide, Nat.le_refl _, fun _ => Or.inl rfl⟩

namespace Token

-- =============================================================== layout

/-- Where a text stands, no longer one fits a kind. -/
def Longest (text rest : List Char) : Prop :=
  ∀ kind longer, Fits kind longer → longer <+: text ++ rest →
    longer.length ≤ text.length

/-- A text starts with nothing that fits a kind, and with no blank that is
skipped. -/
def Foreign (cs : List Char) : Prop :=
  (∀ c ∈ cs.head?, isSkipped c = false) ∧
    ∀ kind text, kind ≠ .endOfString → Fits kind text → ¬text <+: cs

/-- Where the word that may compare does: behind an operand and in front of
a blank. -/
def compares (previous : Option Token) (rest : List Char) : Bool :=
  previous.any endsOperand && rest.head?.any isBlank

/-- How tokens stand in markup behind a previous one, in order, with blanks
in front of each, and what is left behind them and more blanks. -/
inductive Laid : (previous : Option Token) → (markup : List Char) →
    List Token → (rest : List Char) → Prop
  /-- Behind the last token there are only blanks. -/
  | stop {previous : Option Token} {gap rest : List Char} :
      (∀ c ∈ gap, isSkipped c = true) → Laid previous (gap ++ rest) [] rest
  /-- A token is the longest text that fits a kind, and is of a kind that it
  fits. The word `contains` fits two, of which one is for comparing. -/
  | token {previous : Option Token} {gap text after rest : List Char}
      {kind : TokenKind} {tokens : List Token} :
      (∀ c ∈ gap, isSkipped c = true) → kind ≠ .endOfString →
      Fits kind text → Longest text after →
      (text = "contains".toList →
        kind = if compares previous after then .comparison else .id) →
      Laid (some ⟨kind, String.ofList text⟩) after tokens rest →
      Laid previous (gap ++ text ++ after)
        (⟨kind, String.ofList text⟩ :: tokens) rest

-- ============================================================== matches

section

variable {previous : Option Token} {cs text rest : List Char} {t : Terminal}
  {kind : TokenKind}

/-- What is foreign is what no terminal matches. -/
theorem foreign_iff : Foreign cs ↔ firstMatch? cs = none := by
  constructor
  · rintro ⟨hhead, hkinds⟩
    refine Option.eq_none_iff_forall_ne_some.2 fun t hmatch => ?_
    obtain ⟨-, hspec⟩ := firstMatch?_spec hmatch
    have hfront := List.take_prefix (t.length cs) cs
    cases hlexeme : t.lexeme with
    | skipped =>
      obtain ⟨c, hc, hskip⟩ := isSkipped_of_match hmatch hlexeme
      exact absurd hskip (by simp [hhead c hc])
    | contains =>
      rw [hlexeme] at hspec
      exact hkinds .comparison _ nofun (Or.inr hspec.1) hfront
    | token kind =>
      rw [hlexeme] at hspec
      exact hkinds kind _ hspec.2.1 hspec.1 hfront
  · intro hnone
    refine ⟨fun c hc => ?_, fun kind text hkind hfits hfront => ?_⟩
    · obtain ⟨more, rfl⟩ := List.head?_eq_some_iff.1 hc
      refine Bool.eq_false_iff.2 fun hskip => ?_
      rw [firstMatch?_blank hskip] at hnone
      cases hnone
    · obtain ⟨rest, rfl⟩ := hfront
      obtain ⟨t, hmatch, -⟩ := hfits.reaches hkind rest
      rw [hnone] at hmatch
      cases hmatch

/-- What the first terminal that matches takes is as long as it can be. -/
theorem longest_of_match (hmatch : firstMatch? cs = some t) :
    Longest (cs.take (t.length cs)) (cs.drop (t.length cs)) := by
  intro kind longer hfits hfront
  rw [List.take_append_drop] at hfront
  obtain ⟨rest, rfl⟩ := hfront
  by_cases hkind : kind = .endOfString
  · subst hkind
    obtain rfl : longer = [] := hfits
    exact Nat.zero_le _
  · obtain ⟨u, hmatch', -, hle, -⟩ := hfits.reaches hkind rest
    obtain rfl : t = u := Option.some.inj (hmatch.symm.trans hmatch')
    rw [List.length_take]
    refine Nat.le_min.2 ⟨hle, ?_⟩
    simp

/-- What the first terminal takes that is not skipped fits a kind. -/
theorem exists_fits_of_match (hmatch : firstMatch? cs = some t)
    (hskip : t.lexeme ≠ .skipped) (previous : Option Token) :
    ∃ kind, kindAfter previous t.lexeme = some kind ∧
      kind ≠ .endOfString ∧ Fits kind (cs.take (t.length cs)) := by
  cases hkind : kindAfter previous t.lexeme with
  | none => exact absurd (kindAfter_eq_none hkind) hskip
  | some kind =>
    obtain ⟨hfits, hend, -⟩ := matched_spec hmatch hkind
    exact ⟨kind, rfl, hend, hfits⟩

/-- The word that may compare is of the kind that stands where it does. -/
theorem kindAfter_word
    (hmatch : firstMatch? ("contains".toList ++ rest) = some t) :
    kindAfter previous t.lexeme =
      some (if compares previous rest then .comparison else .id) := by
  cases hblank : rest.head?.any isBlank with
  | true =>
    obtain ⟨b, hb, hblank'⟩ := (Option.any_eq_true ..).1 hblank
    obtain ⟨more, rfl⟩ := List.head?_eq_some_iff.1 hb
    obtain ⟨hfirst, -⟩ := firstMatch?_contains hblank' more
    obtain rfl := Option.some.inj (hfirst.symm.trans hmatch)
    cases previous with
    | none => rfl
    | some last => simp [kindAfter, compares, hblank']
  | false =>
    have hzero : lengthOfContains ("contains".toList ++ rest) = 0 := by
      cases rest with
      | nil => rfl
      | cons c rest =>
        have hc : isBlank c = false := hblank
        show (if isBlank c then 8 else 0) = 0
        simp [hc]
    have hle := le_lengthOfName isName_contains rest
    have hfirst : firstMatch? ("contains".toList ++ rest) =
        some ⟨.token .id, lengthOfName⟩ := by
      apply firstMatch?_of_place 1 rfl
      · simpa [terminals] using hzero
      · exact Nat.ne_of_gt (Nat.lt_of_lt_of_le (by decide) hle)
    obtain rfl := Option.some.inj (hfirst.symm.trans hmatch)
    simp [kindAfter, compares, hblank]

/-- The longest text that fits a kind is what the first terminal takes, and
it makes a token of that kind. -/
theorem match_of_longest (hkind : kind ≠ .endOfString)
    (hfits : Fits kind text) (hlongest : Longest text rest)
    (hcontains : text = "contains".toList →
      kind = if compares previous rest then .comparison else .id) :
    ∃ t, firstMatch? (text ++ rest) = some t ∧
      t.length (text ++ rest) = text.length ∧
      kindAfter previous t.lexeme = some kind := by
  obtain ⟨t, hmatch, hskip, hle, hlexeme⟩ := hfits.reaches hkind rest
  obtain ⟨kind', -, -, hfits'⟩ := exists_fits_of_match hmatch hskip none
  have hlength : t.length (text ++ rest) = text.length := by
    refine Nat.le_antisymm ?_ hle
    have hle' := hlongest kind' _ hfits' (List.take_prefix ..)
    have hmem := length_le (List.mem_of_find?_eq_some hmatch) (text ++ rest)
    rwa [List.length_take, Nat.min_eq_left hmem] at hle'
  refine ⟨t, hmatch, hlength, ?_⟩
  by_cases hword : text = "contains".toList
  · rw [hcontains hword]
    rw [hword] at hmatch
    exact kindAfter_word hmatch
  · rw [(hlexeme hlength).resolve_right hword]
    rfl

end

-- ================================================================= scan

/-- Where no token is found, all is left. -/
theorem Laid.none_found (previous : Option Token) (rest : List Char) :
    Laid previous rest [] rest := by
  have h : Laid previous ([] ++ rest) [] rest := .stop nofun
  exact h

/-- Blanks in front of a layout make its first gap longer. -/
theorem Laid.behind {previous : Option Token} {cs rest : List Char}
    {tokens : List Token} (h : Laid previous cs tokens rest)
    {gap : List Char} (hgap : ∀ c ∈ gap, isSkipped c = true) :
    Laid previous (gap ++ cs) tokens rest := by
  cases h with
  | stop hgap' =>
    rw [← List.append_assoc]
    exact .stop (List.forall_mem_append.2 ⟨hgap, hgap'⟩)
  | token hgap' hkind hfits hlongest hcontains hrest =>
    rw [← List.append_assoc, ← List.append_assoc]
    exact .token (List.forall_mem_append.2 ⟨hgap, hgap'⟩) hkind hfits
      hlongest hcontains hrest

/-- A match that makes a token is the start of a layout. -/
theorem Laid.of_match {previous : Option Token} {cs rest : List Char}
    {t : Terminal} {kind : TokenKind} {tokens : List Token}
    (hmatch : firstMatch? cs = some t)
    (hkind : kindAfter previous t.lexeme = some kind)
    (h : Laid (some ⟨kind, String.ofList (cs.take (t.length cs))⟩)
      (cs.drop (t.length cs)) tokens rest) :
    Laid previous cs
      (⟨kind, String.ofList (cs.take (t.length cs))⟩ :: tokens) rest := by
  obtain ⟨hfits, hend, -⟩ := matched_spec hmatch hkind
  have hsplit := List.take_append_drop (t.length cs) cs
  have hcontains : cs.take (t.length cs) = "contains".toList →
      kind = if compares previous (cs.drop (t.length cs))
        then .comparison else .id := by
    intro hword
    rw [hword] at hsplit
    rw [← hsplit] at hmatch
    exact Option.some.inj (hkind.symm.trans (kindAfter_word hmatch))
  have htoken : Laid previous
      ([] ++ cs.take (t.length cs) ++ cs.drop (t.length cs)) _ rest :=
    .token nofun hend hfits (longest_of_match hmatch) hcontains h
  rwa [List.nil_append, hsplit] at htoken

/-- Every text is laid out in tokens, up to what is foreign: those that a
scan finds before it ends, well or not. -/
theorem exists_laid (previous : Option Token) (cs : List Char) :
    ∃ tokens rest, Laid previous cs tokens rest ∧ Foreign rest := by
  fun_induction scanAfter previous cs with
  | case1 previous => exact ⟨[], [], .none_found .., foreign_iff.2 rfl⟩
  | case2 previous c rest hnone =>
    exact ⟨[], c :: rest, .none_found .., foreign_iff.2 hnone⟩
  | case3 previous c rest t hmatch n hkind ih =>
    obtain ⟨tokens, left, hlaid, hforeign⟩ := ih
    have hdrop : (c :: rest).drop n = (c :: rest).dropWhile isSkipped :=
      drop_skipped hmatch (kindAfter_eq_none hkind)
    rw [hdrop] at hlaid
    have h := hlaid.behind (List.all_eq_true.1
      (List.all_takeWhile : ((c :: rest).takeWhile isSkipped).all _ = true))
    rw [List.takeWhile_append_dropWhile] at h
    exact ⟨tokens, left, h, hforeign⟩
  | case4 previous c rest t hmatch n text kind hkind token tokens hscan ih =>
    obtain ⟨tokens, left, hlaid, hforeign⟩ := ih
    exact ⟨_, left, hlaid.of_match hmatch hkind, hforeign⟩
  | case5 previous c rest t hmatch n text kind hkind token c' hscan ih =>
    obtain ⟨tokens, left, hlaid, hforeign⟩ := ih
    exact ⟨_, left, hlaid.of_match hmatch hkind, hforeign⟩

/-- What comes of a scan that finds tokens and leaves a rest. -/
def outcome (tokens : List Token) : List Char → Except Char (List Token)
  | [] => .ok tokens
  | c :: _ => .error c

/-- The scan finds the tokens that are laid out, and gives up at what is
foreign. -/
theorem Laid.scanAfter_eq {previous : Option Token} {cs rest : List Char}
    {tokens : List Token} (h : Laid previous cs tokens rest)
    (hforeign : Foreign rest) :
    scanAfter previous cs = outcome tokens rest := by
  induction h with
  | @stop previous gap rest hgap =>
    rw [scanAfter_gap (List.all_eq_true.2 hgap)]
    cases rest with
    | nil =>
      rw [scanAfter]
      rfl
    | cons c rest =>
      rw [scanAfter]
      split
      · rfl
      · next hmatch =>
        rw [foreign_iff.1 hforeign] at hmatch
        cases hmatch
  | @token previous gap text after rest kind tokens hgap hkind hfits hlongest
      hcontains _ ih =>
    obtain ⟨t, hmatch, hlength, hafter⟩ :=
      match_of_longest hkind hfits hlongest hcontains
    have hne : text ≠ [] := by
      rintro rfl
      exact (firstMatch?_spec hmatch).1 hlength
    rw [List.append_assoc, scanAfter_gap (List.all_eq_true.2 hgap),
      scanAfter_of_match hne hmatch hlength hafter, ih hforeign]
    cases rest <;> rfl

/-- The scan of markup covers it or points at the first character that
belongs to no token. If it succeeds, its tokens stand in the markup to the
end, with only blanks around them, and one more marks the end. If it fails,
tokens stand in the markup in the same way up to the character that it
names, at which nothing fits. There are no other outcomes, and no markup
has two of them. -/
theorem scan_covers_markup (markup : String) :
    (∀ tokens, scan markup = .ok tokens ↔
      ∃ laid, Laid none markup.toList laid [] ∧
        tokens = laid ++ [endOfString]) ∧
    ∀ failure, scan markup = .error failure ↔
      ∃ laid c rest, Laid none markup.toList laid (c :: rest) ∧
        Foreign (c :: rest) ∧ failure = .unexpectedCharacter c markup ∧
        failure.message = "Unexpected character " ++
          Text.quote (String.singleton c) ++ " in \"" ++ markup ++ "\"" := by
  have hnil : Foreign [] := foreign_iff.2 rfl
  obtain ⟨laid, rest, hlaid, hforeign⟩ := exists_laid none markup.toList
  have hscan := hlaid.scanAfter_eq hforeign
  refine ⟨fun tokens => ⟨fun h => ?_, ?_⟩, fun failure => ⟨fun h => ?_, ?_⟩⟩
  · cases rest with
    | nil =>
      rw [scan, hscan] at h
      exact ⟨laid, hlaid, (Except.ok.inj h).symm⟩
    | cons c rest =>
      rw [scan, hscan] at h
      cases h
  · rintro ⟨others, hothers, rfl⟩
    rw [scan, hothers.scanAfter_eq hnil]
    rfl
  · cases rest with
    | nil =>
      rw [scan, hscan] at h
      cases h
    | cons c rest =>
      rw [scan, hscan] at h
      obtain rfl := Except.error.inj h
      exact ⟨laid, c, rest, hlaid, hforeign, rfl, rfl⟩
  · rintro ⟨others, c, more, hothers, hmore, rfl, -⟩
    rw [scan, hothers.scanAfter_eq hmore]
    rfl

/-- The same word names, compares and names again. -/
example : scan "contains contains contains" =
    .ok [⟨.id, "contains"⟩, ⟨.comparison, "contains"⟩, ⟨.id, "contains"⟩,
      endOfString] := by
  decide +kernel

end Token
end Stencil
