/-
Where the tokens of a markup stand.

A scan that succeeds accounts for every character: the markup is the
texts of the tokens, one after the other, with blanks between them. The
scan itself only answers the tokens; `place` puts each back to where it
was found, together with the gap in front of it, and the token that marks
the end gets what is left at the end.

What a token's text looks like follows from the terminal that matched it.
`Fits` says it for each kind of token, and `Placed.Sound` says it for a
whole row of placed tokens, together with the one thing that a terminal
asks of what comes after it: the word `contains` compares only in front
of a blank.
-/
import Stencil.Number.Numeral
import Stencil.Proofs.Text.Classes

namespace Stencil

open Text

-- =============================================================== texts

/-- A name: a word character that is no digit, dashed-word characters, and
perhaps a question mark. -/
def IsName (cs : List Char) : Prop :=
  ∃ c word mark, cs = c :: word ++ mark ∧
    isWord c = true ∧ isDigit c = false ∧ word.all isDashedWord = true ∧
    (mark = [] ∨ mark = ['?'])

/-- A text in quotes that does not hold its quote. -/
def IsQuoted (cs : List Char) : Prop :=
  ∃ q body, cs = q :: body ++ [q] ∧ (q = '\'' ∨ q = '"') ∧ q ∉ body

/-- A numeral: perhaps a minus, digits, and perhaps a point and digits. -/
def IsNumeral (cs : List Char) : Prop :=
  ∃ minus whole part, cs = minus ++ whole ++ part ∧
    (minus = [] ∨ minus = ['-']) ∧ Numeral.isDigits whole = true ∧
    (part = [] ∨ ∃ digits, part = '.' :: digits ∧
      Numeral.isDigits digits = true)

theorem IsNumeral.length_pos {cs : List Char} (h : IsNumeral cs) :
    0 < cs.length := by
  obtain ⟨minus, whole, part, rfl, -, hwhole, -⟩ := h
  cases whole with
  | nil => cases hwhole
  | cons d ds =>
    simp only [List.length_append, List.length_cons]
    omega

/-- What the text of a token of a kind looks like. -/
def Fits : TokenKind → List Char → Prop
  | .comparison, cs =>
    String.ofList cs ∈ Token.comparisonWords ∨ cs = "contains".toList
  | .id, cs => IsName cs
  | .string, cs => IsQuoted cs
  | .number, cs => IsNumeral cs
  | .dotdot, cs => cs = ['.', '.']
  | .dot, cs => cs = ['.']
  | .comma, cs => cs = [',']
  | .colon, cs => cs = [':']
  | .pipe, cs => cs = ['|']
  | .question, cs => cs = ['?']
  | .dash, cs => cs = ['-']
  | .openSquare, cs => cs = ['[']
  | .closeSquare, cs => cs = [']']
  | .openRound, cs => cs = ['(']
  | .closeRound, cs => cs = [')']
  | .endOfString, cs => cs = []

-- ======================================================= what is matched

namespace Token

/-- A word of its own matches itself. -/
theorem take_lengthOfWord {word : String} {cs : List Char}
    (h : lengthOfWord word cs ≠ 0) :
    cs.take (lengthOfWord word cs) = word.toList := by
  unfold lengthOfWord at h ⊢
  split at h
  · next hp =>
    obtain ⟨rest, rfl⟩ := List.isPrefixOf_iff_prefix.1 hp
    rw [if_pos (List.isPrefixOf_iff_prefix.2 ⟨rest, rfl⟩)]
    simp [← String.length_toList]
  · exact absurd rfl h

/-- The word `contains` matches itself, in front of a blank. -/
theorem take_lengthOfContains {cs : List Char}
    (h : lengthOfContains cs ≠ 0) :
    cs.take (lengthOfContains cs) = "contains".toList ∧
      ∃ c rest, cs.drop (lengthOfContains cs) = c :: rest ∧
        isBlank c = true := by
  unfold lengthOfContains at h ⊢
  dsimp only at h ⊢
  split at h
  · next c rest hdrop =>
    split at h
    · next hblank =>
      simp only [hblank, if_true]
      exact ⟨take_lengthOfWord h, c, rest, hdrop, hblank⟩
    · exact absurd rfl h
  · exact absurd rfl h

section

variable {p : Char → Bool} {cs : List Char}

/-- A row of characters of a class has only such characters. -/
private theorem of_mem_takeWhile {c : Char} (h : c ∈ cs.takeWhile p) :
    p c = true :=
  List.all_eq_true.1 List.all_takeWhile c h

/-- What follows a row of characters of a class, found by its length. -/
private theorem drop_length_takeWhile :
    cs.drop (cs.takeWhile p).length = cs.dropWhile p := by
  calc cs.drop (cs.takeWhile p).length
      = (cs.takeWhile p ++ cs.dropWhile p).drop (cs.takeWhile p).length := by
        rw [List.takeWhile_append_dropWhile]
    _ = cs.dropWhile p := List.drop_left

/-- A row of characters of a class and some of what follows it. -/
private theorem take_takeWhile_add (k : Nat) :
    cs.take ((cs.takeWhile p).length + k) =
      cs.takeWhile p ++ (cs.dropWhile p).take k := by
  calc cs.take ((cs.takeWhile p).length + k)
      = (cs.takeWhile p ++ cs.dropWhile p).take
          ((cs.takeWhile p).length + k) := by
        rw [List.takeWhile_append_dropWhile]
    _ = cs.takeWhile p ++ (cs.dropWhile p).take k :=
        List.take_length_add_append k

end

/-- A name matches as a name. -/
theorem take_lengthOfName {cs : List Char} (h : lengthOfName cs ≠ 0) :
    IsName (cs.take (lengthOfName cs)) := by
  cases cs with
  | nil => exact absurd rfl h
  | cons c rest =>
    simp only [lengthOfName] at h ⊢
    split at h
    · next hc =>
      simp only [Bool.and_eq_true, Bool.not_eq_true'] at hc
      rw [if_pos (by simp [hc]), drop_length_takeWhile]
      refine ⟨c, rest.takeWhile isDashedWord, ?_⟩
      split
      · next more hdrop =>
        refine ⟨['?'], ?_, hc.1, hc.2, List.all_takeWhile, Or.inr rfl⟩
        rw [List.take_succ_cons, take_takeWhile_add, hdrop]
        rfl
      · refine ⟨[], ?_, hc.1, hc.2, List.all_takeWhile, Or.inl rfl⟩
        rw [List.take_succ_cons, ← Nat.add_zero (List.length _),
          take_takeWhile_add]
        rfl
    · exact absurd rfl h

/-- A string matches as a text in quotes. -/
theorem take_lengthOfString {cs : List Char} (h : lengthOfString cs ≠ 0) :
    IsQuoted (cs.take (lengthOfString cs)) := by
  cases cs with
  | nil => exact absurd rfl h
  | cons q rest =>
    simp only [lengthOfString] at h ⊢
    split at h
    · next hq =>
      rw [if_pos hq]
      simp only [Bool.and_eq_true, Bool.or_eq_true, beq_iff_eq] at hq
      obtain ⟨hquote, hmem⟩ := hq
      have hclosing : ∃ more, rest.dropWhile (· != q) = q :: more := by
        cases hdrop : rest.dropWhile (· != q) with
        | nil =>
          have hsplit := List.takeWhile_append_dropWhile (p := (· != q))
            (l := rest)
          rw [hdrop, List.append_nil] at hsplit
          have hin : q ∈ rest.takeWhile (· != q) := by
            rw [hsplit]
            exact List.contains_iff_mem.1 hmem
          have hne := of_mem_takeWhile hin
          simp at hne
        | cons d more =>
          have hd := List.head?_dropWhile_not (· != q) rest
          rw [hdrop] at hd
          exact ⟨more, by simpa using hd⟩
      obtain ⟨more, hmore⟩ := hclosing
      refine ⟨q, rest.takeWhile (· != q), ?_, hquote, ?_⟩
      · rw [List.take_succ_cons, take_takeWhile_add, hmore]
        rfl
      · intro hin
        have hne := of_mem_takeWhile hin
        simp at hne
    · exact absurd rfl h

/-- Digits match as a numeral without a minus. -/
theorem take_lengthOfDigits {cs : List Char} (h : lengthOfDigits cs ≠ 0) :
    ∃ whole part, cs.take (lengthOfDigits cs) = whole ++ part ∧
      Numeral.isDigits whole = true ∧
      (part = [] ∨ ∃ digits, part = '.' :: digits ∧
        Numeral.isDigits digits = true) := by
  have hrow : ∀ ds : List Char, (ds.takeWhile isDigit).length ≠ 0 →
      Numeral.isDigits (ds.takeWhile isDigit) = true := by
    intro ds hds
    simp only [Numeral.isDigits, List.all_takeWhile, Bool.and_true,
      Bool.not_eq_true', List.isEmpty_eq_false_iff]
    exact fun hnil => hds (by rw [hnil]; rfl)
  unfold lengthOfDigits at h ⊢
  simp only [drop_length_takeWhile] at h ⊢
  by_cases hn : (cs.takeWhile isDigit).length = 0
  · exact absurd (by rw [if_pos (by simpa using hn)]) h
  · rw [if_neg (by simpa using hn)]
    refine ⟨cs.takeWhile isDigit, ?_⟩
    split
    · next rest hdrop =>
      by_cases hk : (rest.takeWhile isDigit).length = 0
      · refine ⟨[], ?_, hrow cs hn, Or.inl rfl⟩
        rw [if_pos (by simpa using hk),
          ← Nat.add_zero (List.length (cs.takeWhile isDigit)),
          take_takeWhile_add]
        rfl
      · refine ⟨'.' :: rest.takeWhile isDigit, ?_, hrow cs hn,
          Or.inr ⟨_, rfl, hrow rest hk⟩⟩
        rw [if_neg (by simpa using hk), Nat.add_assoc, take_takeWhile_add,
          hdrop, List.take_succ_cons,
          ← Nat.add_zero (List.length (rest.takeWhile isDigit)),
          take_takeWhile_add]
        simp
    · refine ⟨[], ?_, hrow cs hn, Or.inl rfl⟩
      rw [← Nat.add_zero (List.length (cs.takeWhile isDigit)),
        take_takeWhile_add]
      rfl

/-- A number matches as a numeral. -/
theorem take_lengthOfNumber {cs : List Char} (h : lengthOfNumber cs ≠ 0) :
    IsNumeral (cs.take (lengthOfNumber cs)) := by
  unfold lengthOfNumber at h ⊢
  split at h
  · next rest =>
    by_cases hn : lengthOfDigits rest = 0
    · exact absurd (by simp [hn]) h
    · obtain ⟨whole, part, heq, hwhole, hpart⟩ := take_lengthOfDigits hn
      refine ⟨['-'], whole, part, ?_, Or.inr rfl, hwhole, hpart⟩
      simp only [beq_iff_eq, hn, if_false, List.take_succ_cons, heq]
      rfl
  · obtain ⟨whole, part, heq, hwhole, hpart⟩ := take_lengthOfDigits h
    exact ⟨[], whole, part, heq, Or.inl rfl, hwhole, hpart⟩

/-- A comparison operator matches itself. -/
theorem take_lengthOfComparison {cs : List Char}
    (h : lengthOfComparison cs ≠ 0) :
    String.ofList (cs.take (lengthOfComparison cs)) ∈ comparisonWords := by
  unfold lengthOfComparison at h ⊢
  split at h
  · next w hw =>
    have hp := List.find?_some hw
    obtain ⟨rest, rfl⟩ := List.isPrefixOf_iff_prefix.1 hp
    have hmem := List.mem_of_find?_eq_some hw
    simpa [← String.length_toList] using hmem
  · exact absurd rfl h

/-- Blanks match as far as they go. -/
theorem take_lengthOfSkipped (cs : List Char) :
    cs.take (lengthOfSkipped cs) = cs.takeWhile isSkipped ∧
      cs.drop (lengthOfSkipped cs) = cs.dropWhile isSkipped := by
  refine ⟨?_, drop_length_takeWhile⟩
  rw [lengthOfSkipped, ← Nat.add_zero (List.length _), take_takeWhile_add]
  simp

/-- What the first terminal that matches tells about the start of a
text. -/
theorem firstMatch?_spec {cs : List Char} {t : Terminal}
    (h : firstMatch? cs = some t) :
    t.length cs ≠ 0 ∧
      match t.lexeme with
      | .skipped => t.length cs = lengthOfSkipped cs
      | .contains => cs.take (t.length cs) = "contains".toList ∧
          ∃ c rest, cs.drop (t.length cs) = c :: rest ∧ isBlank c = true
      | .token kind => Fits kind (cs.take (t.length cs)) ∧
          kind ≠ .endOfString ∧
          (kind = .comparison →
            String.ofList (cs.take (t.length cs)) ∈ comparisonWords) := by
  have hpos : t.length cs ≠ 0 := by
    have := List.find?_some h
    simpa using this
  refine ⟨hpos, ?_⟩
  have hmem := List.mem_of_find?_eq_some h
  simp only [terminals, List.mem_cons, List.not_mem_nil, or_false] at hmem
  rcases hmem with rfl | rfl | rfl | rfl | rfl | rfl | hmem
  · exact take_lengthOfContains hpos
  · exact ⟨take_lengthOfName hpos, nofun, nofun⟩
  · exact ⟨take_lengthOfString hpos, nofun, nofun⟩
  · exact ⟨take_lengthOfNumber hpos, nofun, nofun⟩
  · rfl
  · have hword := take_lengthOfComparison hpos
    exact ⟨Or.inl hword, nofun, fun _ => hword⟩
  · rcases hmem with rfl | rfl | rfl | rfl | rfl | rfl | rfl | rfl | rfl |
      rfl | rfl
    all_goals exact ⟨take_lengthOfWord hpos, nofun, nofun⟩

/-- What is skipped at the start of a text starts with a blank that is. -/
theorem isSkipped_of_match {cs : List Char} {t : Terminal}
    (h : firstMatch? cs = some t) (hskip : t.lexeme = .skipped) :
    ∃ c ∈ cs.head?, isSkipped c = true := by
  obtain ⟨hpos, hspec⟩ := firstMatch?_spec h
  rw [hskip] at hspec
  cases cs with
  | nil => exact absurd hspec hpos
  | cons c cs =>
    refine ⟨c, rfl, ?_⟩
    cases hc : isSkipped c with
    | true => rfl
    | false =>
      have hzero : lengthOfSkipped (c :: cs) = 0 := by
        simp [lengthOfSkipped, hc]
      exact absurd (hspec.trans hzero) hpos

end Token

/-- The text of a token starts with no blank. -/
theorem Fits.isBlank_head {kind : TokenKind} {c : Char} {cs : List Char}
    (h : Fits kind (c :: cs)) : isBlank c = false := by
  cases kind with
  | comparison =>
    rcases h with h | h
    · simp only [Token.comparisonWords, List.mem_cons, List.not_mem_nil,
        or_false, ← String.toList_inj, String.toList_ofList] at h
      rcases h with h | h | h | h | h | h | h
      all_goals
        obtain rfl : c = _ := (List.cons.inj h).1
        decide
    · obtain rfl : c = _ := (List.cons.inj h).1
      decide
  | id =>
    obtain ⟨d, word, mark, heq, hword, -⟩ := h
    obtain rfl : c = d := (List.cons.inj heq).1
    exact isBlank_of_isDashedWord (by simp [isDashedWord, hword])
  | string =>
    obtain ⟨q, body, heq, hq, -⟩ := h
    obtain rfl : c = q := (List.cons.inj heq).1
    rcases hq with rfl | rfl <;> decide
  | number =>
    obtain ⟨minus, whole, part, heq, hminus, hwhole, -⟩ := h
    rcases hminus with rfl | rfl
    · cases whole with
      | nil => simp [Numeral.isDigits] at hwhole
      | cons d whole =>
        obtain rfl : c = d := (List.cons.inj heq).1
        simp only [Numeral.isDigits, List.all_cons, Bool.and_eq_true] at hwhole
        exact isBlank_of_isDigit hwhole.2.1
    · obtain rfl : c = '-' := (List.cons.inj heq).1
      decide
  | endOfString => cases h
  | _ =>
    obtain rfl : c = _ := (List.cons.inj h).1
    decide

-- ============================================================= placement

/-- A token and the blanks in front of it. -/
structure Placed where
  gap : List Char
  token : Token
  deriving DecidableEq, Repr

namespace Placed

/-- A placed token as it stands in the markup. -/
def chars (p : Placed) : List Char := p.gap ++ p.token.text.toList

/-- Placed tokens as they stand in the markup. -/
def text (ps : List Placed) : List Char := ps.flatMap chars

theorem text_cons (p : Placed) (ps : List Placed) :
    text (p :: ps) = p.gap ++ p.token.text.toList ++ text ps := rfl

theorem text_append (ps qs : List Placed) :
    text (ps ++ qs) = text ps ++ text qs := List.flatMap_append

/-- The tokens of a text where they stand in it. -/
def place : List Char → List Token → List Placed
  | _, [] => []
  | cs, t :: rest =>
    ⟨cs.takeWhile Token.isSkipped, t⟩ ::
      place ((cs.dropWhile Token.isSkipped).drop t.text.toList.length) rest

/-- Placed tokens are sound: there are only blanks between them, their
texts fit their kinds, and the word that compares has a gap after it. -/
def Sound : List Placed → Prop
  | [] => True
  | p :: rest =>
    p.gap.all Token.isSkipped = true ∧
    Fits p.token.kind p.token.text.toList ∧
    (p.token = ⟨.comparison, "contains"⟩ → ∀ q ∈ rest.head?, q.gap ≠ []) ∧
    Sound rest

/-- What stands at the end of sound placed tokens is sound. -/
theorem Sound.of_append {ps qs : List Placed} (h : Sound (ps ++ qs)) :
    Sound qs := by
  induction ps with
  | nil => exact h
  | cons p ps ih => exact ih h.2.2.2

/-- What holds of each sound placed token: its gap is blank, and its text
fits its kind. -/
theorem Sound.of_mem {ps : List Placed} (h : Sound ps) :
    ∀ p ∈ ps, p.gap.all isBlank = true ∧
      Fits p.token.kind p.token.text.toList := by
  induction ps with
  | nil => exact nofun
  | cons p ps ih =>
    obtain ⟨hgap, hfits, -, hrest⟩ := h
    refine List.forall_mem_cons.2 ⟨⟨?_, hfits⟩, ih hrest⟩
    rw [List.all_eq_true] at hgap ⊢
    exact fun c hc => isBlank_of_isSkipped (hgap c hc)

theorem map_token_place (cs : List Char) (ts : List Token) :
    (place cs ts).map Placed.token = ts := by
  induction ts generalizing cs with
  | nil => rfl
  | cons t ts ih => rw [place, List.map_cons, ih]

/-- Blanks at the start of a text only make the first gap longer. -/
theorem place_blanks (cs : List Char) (t : Token) (ts : List Token) :
    ∃ ps, place cs (t :: ts) = ⟨cs.takeWhile Token.isSkipped, t⟩ :: ps ∧
      place (cs.dropWhile Token.isSkipped) (t :: ts) = ⟨[], t⟩ :: ps := by
  refine ⟨_, rfl, ?_⟩
  have hhead := List.head?_dropWhile_not Token.isSkipped cs
  generalize cs.dropWhile Token.isSkipped = ds at hhead ⊢
  cases ds with
  | nil => rfl
  | cons d ds =>
    have hd : Token.isSkipped d = false := hhead
    simp only [place, List.takeWhile_cons, List.dropWhile_cons, hd,
      Bool.false_eq_true, if_false]

/-- In front of a token without blanks before it there is no gap. -/
theorem place_token {cs : List Char} {n : Nat} {kind : TokenKind}
    (hn : n ≠ 0) (hcs : cs ≠ []) (hfits : Fits kind (cs.take n))
    (ts : List Token) :
    place cs (⟨kind, String.ofList (cs.take n)⟩ :: ts) =
      ⟨[], ⟨kind, String.ofList (cs.take n)⟩⟩ :: place (cs.drop n) ts := by
  obtain ⟨c, rest, rfl⟩ := List.exists_cons_of_ne_nil hcs
  obtain ⟨m, rfl⟩ := Nat.exists_eq_succ_of_ne_zero hn
  have hc : Token.isSkipped c = false := by
    rw [List.take_succ_cons] at hfits
    cases hskip : Token.isSkipped c with
    | false => rfl
    | true =>
      exact absurd (isBlank_of_isSkipped hskip) (by simp [hfits.isBlank_head])
  have hdrop : (c :: rest).drop ((c :: rest).take (m + 1)).length =
      (c :: rest).drop (m + 1) := by
    calc (c :: rest).drop ((c :: rest).take (m + 1)).length
        = ((c :: rest).take (m + 1) ++ (c :: rest).drop (m + 1)).drop
            ((c :: rest).take (m + 1)).length := by
          rw [List.take_append_drop]
      _ = (c :: rest).drop (m + 1) := List.drop_left
  simp only [place, List.takeWhile_cons, List.dropWhile_cons, hc,
    Bool.false_eq_true, if_false, String.toList_ofList, hdrop]

end Placed

namespace Token

/-- A blank at which a scan goes on is one of those that are skipped. -/
theorem isSkipped_of_scanAfter {previous : Option Token} {c : Char}
    {cs : List Char} {ts : List Token}
    (h : scanAfter previous (c :: cs) = .ok ts) (hc : isBlank c = true) :
    isSkipped c = true := by
  rw [scanAfter] at h
  split at h
  · cases h
  · next terminal hmatch =>
    obtain ⟨hpos, hspec⟩ := firstMatch?_spec hmatch
    have hhead : ∀ kind, ¬Fits kind ((c :: cs).take (terminal.length (c :: cs))) := by
      intro kind hfits
      obtain ⟨m, hm⟩ := Nat.exists_eq_succ_of_ne_zero hpos
      rw [hm, List.take_succ_cons] at hfits
      exact absurd hc (by simp [hfits.isBlank_head])
    cases hlexeme : terminal.lexeme with
    | skipped =>
      obtain ⟨d, hd, hskip⟩ := isSkipped_of_match hmatch hlexeme
      obtain rfl : c = d := Option.some.inj hd
      exact hskip
    | contains =>
      rw [hlexeme] at hspec
      exact absurd (Or.inr hspec.1) (hhead .comparison)
    | token kind =>
      rw [hlexeme] at hspec
      exact absurd hspec.1 (hhead kind)

/-- The word that compares is a name like any other. -/
theorem isName_contains : IsName "contains".toList :=
  ⟨'c', "ontains".toList, [], rfl, by decide, by decide, by decide,
    Or.inl rfl⟩

/-- A match that is not skipped makes a token that fits its kind, and if
it compares by its word, a blank follows. -/
theorem matched_spec {previous : Option Token} {cs : List Char}
    {t : Terminal} {kind : TokenKind} (h : firstMatch? cs = some t)
    (hkind : kindAfter previous t.lexeme = some kind) :
    Fits kind (cs.take (t.length cs)) ∧ kind ≠ .endOfString ∧
      (kind = .comparison →
        String.ofList (cs.take (t.length cs)) = "contains" →
        ∃ c rest, cs.drop (t.length cs) = c :: rest ∧ isBlank c = true) := by
  obtain ⟨-, hspec⟩ := firstMatch?_spec h
  cases hlexeme : t.lexeme with
  | skipped =>
    rw [hlexeme] at hkind
    cases hkind
  | contains =>
    rw [hlexeme] at hkind hspec
    obtain ⟨htake, hnext⟩ := hspec
    have hcases : kind = .comparison ∨ kind = .id := by
      cases previous with
      | none => exact Or.inr (Option.some.inj hkind).symm
      | some last =>
        have hk := (Option.some.inj hkind).symm
        split at hk
        · exact Or.inl hk
        · exact Or.inr hk
    rcases hcases with rfl | rfl
    · exact ⟨Or.inr htake, nofun, fun _ _ => hnext⟩
    · exact ⟨htake ▸ isName_contains, nofun, nofun⟩
  | token kind' =>
    rw [hlexeme] at hkind hspec
    obtain rfl : kind' = kind := Option.some.inj hkind
    refine ⟨hspec.1, hspec.2.1, fun hcomp heq => ?_⟩
    have hword := hspec.2.2 hcomp
    rw [heq] at hword
    exact absurd hword (by decide)

/-- A scan that succeeds leaves nothing out: its tokens, placed where they
were found, make up the text, and each of them looks like its kind. -/
theorem scanAfter_place {previous : Option Token} {cs : List Char}
    {ts : List Token} (h : scanAfter previous cs = .ok ts) :
    Placed.text (Placed.place cs (ts ++ [endOfString])) = cs ∧
      Placed.Sound (Placed.place cs (ts ++ [endOfString])) ∧
      ∀ t ∈ ts, t.kind ≠ .endOfString := by
  fun_induction scanAfter previous cs generalizing ts with
  | case1 previous =>
    cases h
    exact ⟨rfl, ⟨rfl, rfl, nofun, trivial⟩, nofun⟩
  | case2 => cases h
  | case3 previous c rest terminal hmatch n hkind =>
    rename_i ih
    obtain ⟨htext, hsound, hkinds⟩ := ih h
    have hlexeme : terminal.lexeme = .skipped := by
      revert hkind
      cases terminal.lexeme with
      | skipped => exact fun _ => rfl
      | contains => cases previous <;> exact nofun
      | token kind => exact nofun
    obtain ⟨-, hspec⟩ := firstMatch?_spec hmatch
    rw [hlexeme] at hspec
    have hdrop : (c :: rest).drop n = (c :: rest).dropWhile isSkipped := by
      show (c :: rest).drop (terminal.length (c :: rest)) = _
      rw [show terminal.length (c :: rest) = _ from hspec]
      exact (take_lengthOfSkipped _).2
    rw [hdrop] at htext hsound
    obtain ⟨t, us, hts⟩ := List.exists_cons_of_ne_nil
      (List.append_ne_nil_of_right_ne_nil ts (List.cons_ne_nil endOfString []))
    rw [hts] at htext hsound ⊢
    obtain ⟨ps, hplace, hplace'⟩ := Placed.place_blanks (c :: rest) t us
    rw [hplace'] at htext hsound
    rw [hplace]
    refine ⟨?_, ⟨List.all_takeWhile, hsound.2⟩, hkinds⟩
    rw [Placed.text_cons] at htext ⊢
    refine Eq.trans ?_ (List.takeWhile_append_dropWhile (p := isSkipped))
    rw [← htext, List.append_assoc]
    rfl
  | case4 previous c rest terminal hmatch n text kind hkind token tokens
      hscan =>
    rename_i ih
    cases h
    obtain ⟨htext, hsound, hkinds⟩ := ih hscan
    obtain ⟨hpos, -⟩ := firstMatch?_spec hmatch
    obtain ⟨hfits, hend, hcontains⟩ := matched_spec hmatch hkind
    have hplace := Placed.place_token hpos (List.cons_ne_nil c rest) hfits
      (tokens ++ [endOfString])
    show Placed.text (Placed.place (c :: rest)
      (⟨kind, String.ofList ((c :: rest).take (terminal.length (c :: rest)))⟩ ::
        (tokens ++ [endOfString]))) = _ ∧ Placed.Sound (Placed.place _
      (⟨kind, String.ofList ((c :: rest).take (terminal.length (c :: rest)))⟩ ::
        (tokens ++ [endOfString]))) ∧ _
    rw [hplace]
    refine ⟨?_, ⟨rfl, ?_, ?_, hsound⟩, ?_⟩
    · refine Eq.trans ?_ (List.take_append_drop n (c :: rest))
      rw [Placed.text_cons, htext, String.toList_ofList]
      rfl
    · rwa [String.toList_ofList]
    · intro heq q hq
      obtain ⟨hkindeq, htexteq⟩ := Token.mk.inj heq
      obtain ⟨d, more, hdrop, hblank⟩ := hcontains hkindeq htexteq
      have hskip : isSkipped d = true :=
        isSkipped_of_scanAfter (hdrop ▸ hscan) hblank
      rw [hdrop] at hq
      obtain ⟨t, us, hts⟩ := List.exists_cons_of_ne_nil
        (List.append_ne_nil_of_right_ne_nil tokens
          (List.cons_ne_nil endOfString []))
      rw [hts] at hq
      obtain rfl := Option.some.inj hq
      simp [hskip]
    · exact List.forall_mem_cons.2 ⟨hend, hkinds⟩
  | case5 => cases h

end Token

end Stencil
