/-
Scanning two texts one after the other.

Behind a text that is severed from what follows, the tokens of the whole
are those of the first text and those of the second, scanned after the last
token of the first. Of the tokens in front, a scan asks only whether an
operand ends there, and only for the word `contains`: whether the scan
succeeds does not depend on them at all.

An operand that the strict grammar reads can so be put into a longer
markup. Where a name ends it, the name is all of it or stands behind a dot,
so that the tokens of the operand are the same there.
-/
import Stencil.Proofs.Markup.Acceptance
import Stencil.Proofs.Markup.Severing
import Stencil.Proofs.Markup.Spacing

namespace Stencil

open Text

namespace Token

-- ============================================================== blanks

/-- A blank at the start is matched as one that is skipped. -/
theorem firstMatch?_blank {c : Char} (hc : isSkipped c = true)
    (rest : List Char) :
    firstMatch? (c :: rest) = some ⟨.skipped, lengthOfSkipped⟩ := by
  have hlength : lengthOfSkipped (c :: rest) ≠ 0 := by
    rw [lengthOfSkipped, List.takeWhile_cons_of_pos hc]
    exact Nat.succ_ne_zero _
  obtain ⟨hword, hdash, hquotes⟩ : isWord c = false ∧ c ≠ '-' ∧
      c ≠ '\'' ∧ c ≠ '"' := by
    simp only [isSkipped, Bool.or_eq_true, beq_iff_eq] at hc
    rcases hc with (((rfl | rfl) | rfl) | rfl) | rfl <;> decide
  exact firstMatch?_of_place 4 rfl
    (length_of_sign hword hdash hquotes rest) hlength

/-- Blanks at the start of a text are skipped. -/
theorem scanAfter_dropWhile (previous : Option Token) (cs : List Char) :
    scanAfter previous (cs.dropWhile isSkipped) = scanAfter previous cs := by
  cases cs with
  | nil => rfl
  | cons c rest =>
    cases hc : isSkipped c with
    | false => rw [List.dropWhile_cons_of_neg (by simp [hc])]
    | true =>
      rw [scanAfter_matched (List.cons_ne_nil c rest)
        (firstMatch?_blank hc rest)]
      dsimp only [kindAfter]
      rw [(take_lengthOfSkipped _).2]

/-- A gap in front of a text is skipped. -/
theorem scanAfter_gap {gap : List Char} (hgap : gap.all isSkipped = true)
    (previous : Option Token) (cs : List Char) :
    scanAfter previous (gap ++ cs) = scanAfter previous cs := by
  rw [← scanAfter_dropWhile, List.dropWhile_append_of_pos
    (List.all_eq_true.1 hgap), scanAfter_dropWhile]

-- ============================================================= joining

/-- The word that may compare is a name where nothing follows it. -/
theorem scanAfter_contains_alone (previous : Option Token) :
    scanAfter previous "contains".toList = .ok [⟨.id, "contains"⟩] := by
  have hmatch : firstMatch? "contains".toList =
      some ⟨.token .id, lengthOfName⟩ := rfl
  rw [scanAfter_matched (by decide) hmatch]
  have hrest : "contains".toList.drop (lengthOfName "contains".toList) = [] := by
    decide +kernel
  dsimp only [kindAfter]
  rw [hrest, scanAfter]
  rfl

/-- In front of a blank, the word that may compare is found by itself, not
as a name. -/
theorem firstMatch?_contains {b : Char} (hb : isBlank b = true)
    (rest : List Char) :
    firstMatch? ("contains".toList ++ b :: rest) =
        some ⟨.contains, lengthOfContains⟩ ∧
      lengthOfContains ("contains".toList ++ b :: rest) =
        "contains".toList.length := by
  have hlength : lengthOfContains ("contains".toList ++ b :: rest) =
      "contains".toList.length := by
    show (if isBlank b then 8 else 0) = 8
    rw [if_pos hb]
  refine ⟨firstMatch?_of_place 0 rfl nofun ?_, hlength⟩
  show lengthOfContains ("contains".toList ++ b :: rest) ≠ 0
  rw [hlength]
  decide

/-- In front of a blank, the word that may compare is a name where an
operand has to come. -/
theorem scanAfter_contains_awaited {previous : Option Token}
    (hprevious : Awaits previous) {b : Char} (hb : isBlank b = true)
    (rest : List Char) :
    scanAfter previous ("contains".toList ++ b :: rest) =
      (scanAfter (some ⟨.id, "contains"⟩) (b :: rest)).map
        (⟨.id, "contains"⟩ :: ·) := by
  obtain ⟨hmatch, hlength⟩ := firstMatch?_contains hb rest
  exact scanAfter_of_match (by decide) hmatch hlength
    (kindAfter_contains hprevious)

/-- The last of a token and more, or of what was before them. -/
theorem getLast?_cons_or (previous : Option Token) (t : Token)
    (ts : List Token) :
    (t :: ts).getLast?.or previous = ts.getLast?.or (some t) := by
  rw [List.getLast?_cons]
  cases ts.getLast? <;> rfl

/-- Only blanks make no token. -/
theorem kindAfter_eq_none {previous : Option Token} {lexeme : Lexeme}
    (h : kindAfter previous lexeme = none) : lexeme = .skipped := by
  cases lexeme with
  | skipped => rfl
  | contains => cases previous <;> cases h
  | token kind => cases h

/-- What is skipped at the start of a text are its blanks. -/
theorem drop_skipped {cs : List Char} {t : Terminal}
    (hmatch : firstMatch? cs = some t) (hskip : t.lexeme = .skipped) :
    cs.drop (t.length cs) = cs.dropWhile isSkipped := by
  obtain ⟨-, hspec⟩ := firstMatch?_spec hmatch
  rw [hskip] at hspec
  rw [hspec]
  exact (take_lengthOfSkipped _).2

section

variable {previous : Option Token} {cs rest : List Char} {t : Terminal}
  {kind : TokenKind} {tokens : List Token}

/-- The first token of a text is the first token of a longer one. -/
theorem scanAfter_token_append (hne : cs ≠ []) (hsevers : Severs cs rest)
    (hall : cs = "contains".toList → ∀ c ∈ rest.head?, isBlank c = false)
    (hmatch : firstMatch? cs = some t)
    (hkind : kindAfter previous t.lexeme = some kind) :
    scanAfter previous (cs ++ rest) =
      (scanAfter (some ⟨kind, String.ofList (cs.take (t.length cs))⟩)
        (cs.drop (t.length cs) ++ rest)).map
          (⟨kind, String.ofList (cs.take (t.length cs))⟩ :: ·) := by
  have ht := List.mem_of_find?_eq_some hmatch
  have hlength : t.length (cs ++ rest) = t.length cs := by
    rcases length_severed ht hne hsevers hall (by simp [hmatch]) with
      ⟨hskip, -⟩ | hlength
    · rw [hskip] at hkind
      cases hkind
    · exact hlength
  rw [scanAfter_token (List.append_ne_nil_of_left_ne_nil hne rest)
    (firstMatch?_severed hne hsevers hall hmatch) hkind, hlength,
    List.take_append_of_le_length (length_le ht cs),
    List.drop_append_of_le_length (length_le ht cs)]

/-- Where the word that may compare is all of a text, and a blank follows,
it has to be a name there too. -/
theorem scanAfter_alone_append (hcs : cs = "contains".toList)
    (hblank : ∃ b ∈ rest.head?, isBlank b = true)
    (h : scanAfter previous cs = .ok tokens)
    (hname : tokens = [⟨.id, "contains"⟩] → Awaits previous) :
    scanAfter previous (cs ++ rest) =
      (scanAfter (tokens.getLast?.or previous) rest).map (tokens ++ ·) := by
  obtain ⟨b, hb, hblank⟩ := hblank
  obtain ⟨more, rfl⟩ := List.head?_eq_some_iff.1 hb
  rw [hcs, scanAfter_contains_alone] at h
  obtain rfl := Except.ok.inj h
  rw [hcs, scanAfter_contains_awaited (hname rfl) hblank]
  rfl

end

/-- The tokens of two texts, one after the other, are those of the first
and, after its last one, those of the second. The word `contains` at the
end of the first has to be a name also in front of a blank. -/
theorem scanAfter_append {previous : Option Token} {cs rest : List Char}
    {ts : List Token} (h : scanAfter previous cs = .ok ts)
    (hsevers : Severs cs rest)
    (hname : ∀ us, ts = us ++ [⟨.id, "contains"⟩] →
      Awaits (us.getLast?.or previous)) :
    scanAfter previous (cs ++ rest) =
      (scanAfter (ts.getLast?.or previous) rest).map (ts ++ ·) := by
  fun_induction scanAfter previous cs generalizing ts with
  | case1 previous =>
    cases h
    show scanAfter previous rest = (scanAfter previous rest).map id
    cases scanAfter previous rest <;> rfl
  | case2 => cases h
  | case3 previous c cs t hmatch n hkind =>
    rename_i ih
    have hdrop : (c :: cs).drop n = (c :: cs).dropWhile isSkipped :=
      drop_skipped hmatch (kindAfter_eq_none hkind)
    have hsplit : (c :: cs).takeWhile isSkipped ++ (c :: cs).drop n =
        c :: cs := by
      rw [hdrop, List.takeWhile_append_dropWhile]
    rw [← hsplit] at hsevers
    rw [← ih h hsevers.of_append hname]
    calc scanAfter previous (c :: cs ++ rest)
        = scanAfter previous ((c :: cs).takeWhile isSkipped ++
            ((c :: cs).drop n ++ rest)) := by
          rw [← List.append_assoc, hsplit]
      _ = scanAfter previous ((c :: cs).drop n ++ rest) :=
          scanAfter_gap List.all_takeWhile previous _
  | case4 previous c cs t hmatch n text kind hkind token tokens hscan =>
    rename_i ih
    have hne := List.cons_ne_nil c cs
    by_cases hlone : c :: cs = "contains".toList ∧
        ∃ b ∈ rest.head?, isBlank b = true
    · refine scanAfter_alone_append hlone.1 hlone.2 ?_ (hname [])
      rw [scanAfter_token hne hmatch hkind]
      show (scanAfter (some token) ((c :: cs).drop n)).map (token :: ·) = _
      rw [hscan]
      exact h
    · cases h
      have hall : c :: cs = "contains".toList →
          ∀ b ∈ rest.head?, isBlank b = false := by
        intro hcs b hb
        simpa using fun hblank => hlone ⟨hcs, b, hb, hblank⟩
      have hsevers' : Severs ((c :: cs).drop n) rest := by
        rw [← List.take_append_drop n (c :: cs)] at hsevers
        exact hsevers.of_append
      have hih := ih hscan hsevers' fun us hus => by
        rw [← getLast?_cons_or previous]
        exact hname (token :: us) (by rw [hus]; rfl)
      rw [scanAfter_token_append hne hsevers hall hmatch hkind]
      show (scanAfter (some token) ((c :: cs).drop n ++ rest)).map
        (token :: ·) = _
      rw [hih, getLast?_cons_or]
      cases scanAfter (tokens.getLast?.or (some token)) rest <;> rfl
  | case5 => cases h

-- ================================================= the token in front

/-- Where an operand has to come, the token in front makes no difference. -/
theorem kindAfter_of_awaits {p q : Option Token} (hp : Awaits p)
    (hq : Awaits q) (lexeme : Lexeme) :
    kindAfter p lexeme = kindAfter q lexeme := by
  cases lexeme with
  | contains => rw [kindAfter_contains hp, kindAfter_contains hq]
  | skipped | token => rfl

/-- Where an operand has to come, a text has the tokens that it has at the
start. -/
theorem scanAfter_of_awaits {p q : Option Token} (hp : Awaits p)
    (hq : Awaits q) {cs : List Char} {ts : List Token}
    (h : scanAfter p cs = .ok ts) : scanAfter q cs = .ok ts := by
  fun_induction scanAfter p cs generalizing ts with
  | case1 =>
    cases h
    rw [scanAfter]
  | case2 => cases h
  | case3 p c cs t hmatch n hkind =>
    rename_i ih
    rw [scanAfter_matched (List.cons_ne_nil c cs) hmatch,
      ← kindAfter_of_awaits hp hq, hkind]
    exact ih hp h
  | case4 p c cs t hmatch n text kind hkind token tokens hscan =>
    cases h
    rw [scanAfter_matched (List.cons_ne_nil c cs) hmatch,
      ← kindAfter_of_awaits hp hq, hkind]
    show (scanAfter (some token) ((c :: cs).drop n)).map (token :: ·) = _
    rw [hscan]
    rfl
  | case5 => cases h

/-- Whether a text can be scanned does not depend on the token in front. -/
theorem exists_scanAfter {p : Option Token} {cs : List Char}
    {ts : List Token} (h : scanAfter p cs = .ok ts) (q : Option Token) :
    ∃ us, scanAfter q cs = .ok us := by
  fun_induction scanAfter p cs generalizing q ts with
  | case1 => exact ⟨[], by rw [scanAfter]⟩
  | case2 => cases h
  | case3 p c cs t hmatch n hkind =>
    rename_i ih
    rw [scanAfter_matched (List.cons_ne_nil c cs) hmatch]
    cases hq : kindAfter q t.lexeme with
    | none => exact ih h q
    | some kind =>
      obtain ⟨us, hus⟩ := ih h (some ⟨kind, String.ofList ((c :: cs).take n)⟩)
      exact ⟨_, congrArg (Except.map _) hus⟩
  | case4 p c cs t hmatch n text kind hkind token tokens hscan =>
    rename_i ih
    rw [scanAfter_matched (List.cons_ne_nil c cs) hmatch]
    cases hq : kindAfter q t.lexeme with
    | none => exact ih hscan q
    | some kind' =>
      obtain ⟨us, hus⟩ := ih hscan (some ⟨kind', text⟩)
      exact ⟨_, congrArg (Except.map _) hus⟩
  | case5 => cases h

end Token

-- ============================================================= operands

/-- The steps of a path end in a name behind a dot, or in a bracket. -/
theorem Derives.last_steps {p q : Path} {ts : List Token}
    (h : Derives (.steps p q) ts) (hne : ts ≠ []) :
    ∃ us t, ts = us ++ [t] ∧ t.kind.endsOperand = true ∧
      (t.kind = .id → ∃ vs d, us = vs ++ [⟨.dot, d⟩]) := by
  generalize hphrase : Phrase.steps p q = phrase at h
  induction h generalizing p q with
  | done => exact absurd rfl hne
  | @key d word _ _ ts _ ih =>
    by_cases hts : ts = []
    · subst hts
      exact ⟨[⟨.dot, d⟩], ⟨.id, word⟩, rfl, rfl, fun _ => ⟨[], d, rfl⟩⟩
    · obtain ⟨us, t, rfl, hends, hdot⟩ := ih hts rfl
      refine ⟨⟨.dot, d⟩ :: ⟨.id, word⟩ :: us, t, rfl, hends, fun ht => ?_⟩
      obtain ⟨vs, d', rfl⟩ := hdot ht
      exact ⟨⟨.dot, d⟩ :: ⟨.id, word⟩ :: vs, d', rfl⟩
  | @index a b _ _ _ ts us _ _ _ ih =>
    by_cases hus : us = []
    · subst hus
      exact ⟨⟨.openSquare, a⟩ :: ts, ⟨.closeSquare, b⟩, rfl, rfl, nofun⟩
    · obtain ⟨us, t, rfl, hends, hdot⟩ := ih hus rfl
      refine ⟨⟨.openSquare, a⟩ :: (ts ++ ⟨.closeSquare, b⟩ :: us), t,
        by simp, hends, fun ht => ?_⟩
      obtain ⟨vs, d, rfl⟩ := hdot ht
      exact ⟨⟨.openSquare, a⟩ :: (ts ++ ⟨.closeSquare, b⟩ :: vs), d,
        by simp⟩
  | _ => cases hphrase

/-- An operand ends in a token that may end one. If that is a name, no
operand ends in front of it. -/
theorem Derives.last_operand {e : Expr} {ts : List Token}
    (h : Derives (.operand e) ts) :
    ∃ us t, ts = us ++ [t] ∧ t.kind.endsOperand = true ∧
      (t.kind = .id → Token.Awaits us.getLast?) := by
  have hdotted : ∀ us vs : List Token, ∀ d, us = vs ++ [⟨.dot, d⟩] →
      Token.Awaits us.getLast? := by
    rintro us vs d rfl t ht
    rw [List.getLast?_concat] at ht
    obtain rfl := Option.some.inj ht
    rfl
  have hgoes : ∀ (xs : List Token) {p q : Path} {zs : List Token},
      Derives (.steps p q) zs → zs ≠ [] →
      ∃ us t, xs ++ zs = us ++ [t] ∧ t.kind.endsOperand = true ∧
        (t.kind = .id → Token.Awaits us.getLast?) := by
    intro xs p q zs hsteps hne
    obtain ⟨us, t, rfl, hends, hdot⟩ := hsteps.last_steps hne
    refine ⟨xs ++ us, t, by simp, hends, fun ht => ?_⟩
    obtain ⟨vs, d, rfl⟩ := hdot ht
    exact hdotted _ (xs ++ vs) d (by simp)
  cases h with
  | @literal word => exact ⟨[], ⟨.id, word⟩, rfl, rfl, fun _ => nofun⟩
  | @name word _ ts _ hsteps =>
    by_cases hts : ts = []
    · subst hts
      exact ⟨[], ⟨.id, word⟩, rfl, rfl, fun _ => nofun⟩
    · exact hgoes [⟨.id, word⟩] hsteps hts
  | @bracketed a b _ _ ts us _ hsteps =>
    by_cases hus : us = []
    · subst hus
      exact ⟨⟨.openSquare, a⟩ :: ts, ⟨.closeSquare, b⟩, rfl, rfl, nofun⟩
    · have hall := hgoes (⟨.openSquare, a⟩ :: (ts ++ [⟨.closeSquare, b⟩]))
        hsteps hus
      simpa using hall
  | @string text => exact ⟨[], ⟨.string, text⟩, rfl, rfl, nofun⟩
  | @number text => exact ⟨[], ⟨.number, text⟩, rfl, rfl, nofun⟩
  | @range a b c _ _ _ ts us =>
    exact ⟨⟨.openRound, a⟩ :: (ts ++ ⟨.dotdot, b⟩ :: us), ⟨.closeRound, c⟩,
      by simp, rfl, nofun⟩

/-- The text of a token that may end an operand ends with no blank and no
dot. -/
theorem Fits.endsSolid {kind : TokenKind} {cs : List Char}
    (h : Fits kind cs) (hkind : kind.endsOperand = true) :
    cs ≠ [] ∧ EndsSolid cs := by
  cases kind with
  | id => exact IsName.endsSolid h
  | number => exact IsNumeral.endsSolid h
  | string =>
    obtain ⟨q, body, rfl, hq, -⟩ := h
    refine ⟨by simp, endsSolid_snoc (q :: body) ?_⟩
    rcases hq with rfl | rfl <;> decide
  | closeSquare | closeRound =>
    obtain rfl := h
    exact ⟨by simp, endsSolid_snoc [] (by decide)⟩
  | _ => cases hkind

/-- A text whose last token may end an operand, and blanks behind that, ends
with no dot. -/
theorem Placed.getLast?_ne_dot {ps : List Placed} {us : List Token}
    {t : Token} {last : List Char} (hus : ps.map token = us ++ [t])
    (hends : t.kind.endsOperand = true)
    (hsound : Sound (ps ++ [⟨last, .endOfString⟩])) :
    (text ps ++ last).getLast? ≠ some '.' := by
  obtain ⟨xs, gap, zs, rfl, -, hzs⟩ := of_map_append hus
  obtain rfl : zs = [] := List.map_eq_nil_iff.1 hzs
  rw [List.append_assoc] at hsound
  obtain ⟨-, hfits, -, hblanks, -⟩ := hsound.of_append
  obtain ⟨hne, hsolid⟩ := hfits.endsSolid hends
  have hchars : text (xs ++ [⟨gap, t⟩]) ++ last =
      text xs ++ gap ++ (t.text.toList ++ last) := by
    simp [text, chars]
  rw [hchars, List.getLast?_append_of_ne_nil _ (by simp [hne])]
  intro hdot
  rw [List.getLast?_append, Option.or_eq_some_iff] at hdot
  rcases hdot with hblank | ⟨-, htoken⟩
  · have hskip := List.all_eq_true.1 hblanks _ (List.mem_of_getLast? hblank)
    exact absurd hskip (by decide)
  · exact (hsolid _ htoken).2 rfl

/-- The tokens of a markup are those of its text, and the end. -/
theorem Token.scanAfter_of_scan {markup : String} {ts : List Token}
    (h : scan markup = .ok (ts ++ [endOfString])) :
    scanAfter none markup.toList = .ok ts := by
  unfold scan at h
  split at h
  · next us hscan =>
    rw [hscan, List.append_cancel_right (Except.ok.inj h)]
  · cases h

/-- What may stand behind an operand: a blank, a closing parenthesis or
two dots. -/
def LeavesOperand (rest : List Char) : Prop :=
  ∀ c ∈ rest.head?, Token.isSkipped c = true ∨ c = ')' ∨
    c = '.' ∧ rest.tail.head? = some '.'

/-- In front of what may stand behind an operand there may be blanks. -/
theorem LeavesOperand.gap {gap rest : List Char} (h : LeavesOperand rest)
    (hgap : gap.all Token.isSkipped = true) : LeavesOperand (gap ++ rest) := by
  cases gap with
  | nil => exact h
  | cons c gap =>
    rintro _ ⟨⟩
    exact Or.inl (List.all_eq_true.1 hgap c (List.mem_cons_self ..))

/-- What may stand behind an operand is severed from it, if no dot ends
it. -/
theorem LeavesOperand.severs {cs rest : List Char} (h : LeavesOperand rest)
    (hdot : cs.getLast? ≠ some '.') : Token.Severs cs rest := by
  intro c hc
  rcases h c hc with hskip | hround | ⟨hc', hnext⟩
  · exact Or.inl hskip
  · exact Or.inr (Or.inl hround)
  · exact Or.inr (Or.inr ⟨hc', hnext, hdot⟩)

/-- An operand in a longer markup has the tokens that it has alone, and
what stands behind it is scanned after the last of them. -/
theorem Expr.scan_of_parseStrict {markup : String} {e : Expr}
    (h : parseStrict markup = .ok e) :
    ∃ us t, Token.scan markup = .ok (us ++ [t] ++ [.endOfString]) ∧
      Derives (.operand e) (us ++ [t]) ∧
      t.kind.endsOperand = true ∧ Fits t.kind t.text.toList ∧
      ∀ previous rest, Token.Awaits previous → LeavesOperand rest →
        Token.scanAfter previous (markup.toList ++ rest) =
          (Token.scanAfter (some t) rest).map (us ++ [t] ++ ·) := by
  unfold parseStrict at h
  split at h
  · next tokens hscan =>
    obtain ⟨ps, last, -, rfl, hkinds, hsound, htext⟩ :=
      Token.exists_places hscan
    have hderive := derives_of_readTokens h hkinds
    obtain ⟨us, t, hus, hends, hname⟩ := hderive.last_operand
    have hdot := Placed.getLast?_ne_dot hus hends hsound
    rw [htext] at hdot
    obtain ⟨xs, gap, zs, rfl, -, -⟩ := Placed.of_map_append hus
    have hmem : (⟨gap, t⟩ : Placed) ∈ xs ++ ⟨gap, t⟩ :: zs :=
      List.mem_append_right xs (List.mem_cons_self ..)
    have hfits := (hsound.of_mem _ (List.mem_append_left _ hmem)).2
    rw [hus] at hscan hderive
    refine ⟨us, t, hscan, hderive, hends, hfits, fun previous rest hprevious
      hrest => ?_⟩
    have halone := Token.scanAfter_of_awaits Token.awaits_none hprevious
      (Token.scanAfter_of_scan hscan)
    have hsevers := hrest.severs hdot
    have hjoin := Token.scanAfter_append halone hsevers fun vs hvs => by
      obtain ⟨rfl, ht⟩ := List.append_inj' hvs rfl
      obtain rfl := List.cons.inj ht |>.1
      intro u hu
      rcases Option.or_eq_some_iff.1 hu with hu | ⟨-, hu⟩
      · exact hname rfl u hu
      · exact hprevious u hu
    rwa [List.getLast?_concat, Option.some_or] at hjoin
  · cases h

end Stencil
