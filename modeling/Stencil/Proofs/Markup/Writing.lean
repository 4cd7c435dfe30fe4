/-
How an operand of the strict grammar is written, character by character.

`Written` spells the productions of the strict grammar out as text, with
the gaps that may stand in them. Gaps inside brackets do not matter to
any reader. Gaps outside brackets do: the lenient scan of a condition
ends an operand at them, so an operand can be written loosely or tightly.
Of a range, the lenient grammar asks more: it finds the bounds by looking
for two dots and for blanks, so no blank may stand in a bound, and no two
dots in the first one, unless a blank next to the dots between the bounds
tells them apart.

Both scanners of the lenient grammar follow an operand the same way. Each
keeps a depth of brackets and a quote, and what is written passes it from
a depth back to the same depth. `Tracks` says what is needed of a scanner
for that, and `Written.tracked` is the one induction.
-/
import Stencil.Proofs.Markup.Derivation
import Stencil.Proofs.Markup.Placement
import Stencil.Condition.Lenient

namespace Stencil

open Text

-- ============================================================= writing

/-- Blanks between two pieces of an operand. In tight writing there are
none. -/
def IsGap (loose : Bool) (cs : List Char) : Prop :=
  cs.all isBlank = true ∧ (loose = false → cs = [])

/-- A text without blanks. -/
def IsUnbroken (cs : List Char) : Prop := cs.any isBlank = false

/-- A text without two dots in a row. -/
def HasNoDots (cs : List Char) : Prop := ¬['.', '.'] <:+: cs

/-- The texts that operands and the steps of paths are written as. Only
the gaps outside brackets are restricted in tight writing. -/
inductive Written : (loose : Bool) → Phrase → List Char → Prop
  | literal {loose : Bool} {word : List Char} {v : Value} :
      IsName word → literal? (String.ofList word) = some v →
      Written loose (.operand (.const v)) word
  | name {loose : Bool} {word cs : List Char} {p : Path} :
      IsName word → (cs = [] → literal? (String.ofList word) = none) →
      Written loose (.steps (.root (.const (.text (String.ofList word)))) p)
        cs →
      Written loose (.operand (.path p)) (word ++ cs)
  | bracketed {loose : Bool} {before inner after cs : List Char} {e : Expr}
      {p : Path} :
      IsGap true before → Written true (.operand e) inner →
      IsGap true after → Written loose (.steps (.root e) p) cs →
      Written loose (.operand (.path p))
        ('[' :: (before ++ inner ++ after) ++ ']' :: cs)
  | string {loose : Bool} {q : Char} {body : List Char} :
      q = '\'' ∨ q = '"' → q ∉ body →
      Written loose (.operand (.const (.text (String.ofList body))))
        (q :: body ++ [q])
  | number {loose : Bool} {cs : List Char} {v : Value} :
      IsNumeral cs → numeral? (String.ofList cs) = some v →
      Written loose (.operand (.const v)) cs
  | range {loose : Bool} {g₁ g₂ g₃ g₄ cs ds : List Char}
      {first last e : Expr} :
      Written true (.operand first) cs → Written true (.operand last) ds →
      IsUnbroken cs → (g₂ = [] → g₃ = [] → HasNoDots cs) → IsUnbroken ds →
      IsGap true g₁ → IsGap true g₂ → IsGap true g₃ → IsGap true g₄ →
      Expr.between Value.shown first last = .ok e →
      Written loose (.operand e)
        ('(' :: (g₁ ++ cs ++ g₂) ++ ['.', '.'] ++ (g₃ ++ ds ++ g₄) ++ [')'])
  | done {loose : Bool} (p : Path) : Written loose (.steps p p) []
  | key {loose : Bool} {before after word cs : List Char} {p q : Path} :
      IsGap loose before → IsGap loose after → IsName word →
      Written loose (.steps (.step p (.const (.text (String.ofList word)))
        (Command.ofWord? (String.ofList word))) q) cs →
      Written loose (.steps p q) (before ++ '.' :: after ++ word ++ cs)
  | index {loose : Bool} {gap before inner after cs : List Char} {e : Expr}
      {p q : Path} :
      IsGap loose gap → IsGap true before → Written true (.operand e) inner →
      IsGap true after → Written loose (.steps (.step p e none) q) cs →
      Written loose (.steps p q)
        (gap ++ '[' :: (before ++ inner ++ after) ++ ']' :: cs)

-- ============================================================ scanning

/-- A character that no scanner takes for a quote or a bracket. -/
def isPlain (c : Char) : Bool :=
  !(c == '\'' || c == '"' || c == '[' || c == ']' || c == '(' || c == ')')

/-- A scanner keeps track of brackets and quotes: it has a state for each
depth, squares go one deeper and back, parentheses go to some depth and
back, and a text in quotes changes nothing. Plain characters change
nothing either, unless the scanner may stop at them. -/
structure Tracks {σ : Type} (step : σ → Char → Option σ) (state : Nat → σ)
    (within : Nat → Nat) (free : Nat → Prop) : Prop where
  plain : ∀ d c, isPlain c = true → free d ∨
      (isBlank c = false ∧ Fragment.isOperatorChar c = false) →
    step (state d) c = some (state d)
  square : ∀ d, step (state d) '[' = some (state (d + 1)) ∧
    step (state (d + 1)) ']' = some (state d) ∧ free (d + 1)
  round : ∀ d, step (state d) '(' = some (state (within d)) ∧
    step (state (within d)) ')' = some (state d) ∧ free (within d)
  quoted : ∀ d q body, q = '\'' ∨ q = '"' → q ∉ body →
    (q :: body ++ [q]).foldlM step (state d) = some (state d)

/-- A dashed-word character is plain, and no sign of comparison. -/
theorem isPlain_of_isDashedWord {c : Char} (h : isDashedWord c = true) :
    isPlain c = true ∧ Fragment.isOperatorChar c = false := by
  have hne : ∀ d : Char, isDashedWord d = false → c ≠ d := by
    rintro d hd rfl
    exact absurd h (by simp [hd])
  constructor
  · simp [isPlain, hne '\'' (by decide), hne '"' (by decide),
      hne '[' (by decide), hne ']' (by decide), hne '(' (by decide),
      hne ')' (by decide)]
  · simp [Fragment.isOperatorChar, hne '=' (by decide), hne '!' (by decide),
      hne '<' (by decide), hne '>' (by decide)]

/-- A blank is plain. -/
theorem isPlain_of_isBlank {c : Char} (h : isBlank c = true) :
    isPlain c = true := by
  have hne : ∀ d : Char, isBlank d = false → c ≠ d := by
    rintro d hd rfl
    exact absurd h (by simp [hd])
  simp [isPlain, hne '\'' (by decide), hne '"' (by decide),
    hne '[' (by decide), hne ']' (by decide), hne '(' (by decide),
    hne ')' (by decide)]

/-- The characters of a text that no scanner stops at. -/
def IsSolid (cs : List Char) : Prop :=
  ∀ c ∈ cs, isPlain c = true ∧ isBlank c = false ∧
    Fragment.isOperatorChar c = false

instance : DecidablePred IsSolid :=
  fun cs => List.decidableBAll _ cs

/-- A row of dashed-word characters is solid. -/
theorem isSolid_of_all {cs : List Char}
    (h : cs.all isDashedWord = true) : IsSolid cs := by
  intro c hc
  have hword := List.all_eq_true.1 h c hc
  obtain ⟨hplain, hop⟩ := isPlain_of_isDashedWord hword
  exact ⟨hplain, isBlank_of_isDashedWord hword, hop⟩

theorem IsSolid.append {cs ds : List Char} (hc : IsSolid cs)
    (hd : IsSolid ds) : IsSolid (cs ++ ds) :=
  fun c h => (List.mem_append.1 h).elim (hc c) (hd c)

/-- A name is solid. -/
theorem IsName.isSolid {cs : List Char} (h : IsName cs) : IsSolid cs := by
  obtain ⟨c, word, mark, rfl, hc, -, hword, hmark⟩ := h
  have hhead : (c :: word).all isDashedWord = true := by
    simp [isDashedWord, hc] at hword ⊢
    exact hword
  refine (isSolid_of_all hhead).append ?_
  rcases hmark with rfl | rfl
  · exact fun _ h => absurd h List.not_mem_nil
  · intro d hd
    obtain rfl : d = '?' := List.mem_singleton.1 hd
    decide

/-- A row of digits is solid. -/
theorem isSolid_of_isDigits {cs : List Char}
    (h : Numeral.isDigits cs = true) : IsSolid cs := by
  simp only [Numeral.isDigits, Bool.and_eq_true, List.all_eq_true] at h
  exact isSolid_of_all (List.all_eq_true.2
    fun c hc => isDashedWord_of_isDigit (h.2 c hc))

/-- A numeral is solid. -/
theorem IsNumeral.isSolid {cs : List Char} (h : IsNumeral cs) :
    IsSolid cs := by
  obtain ⟨minus, whole, part, rfl, hminus, hwhole, hpart⟩ := h
  refine IsSolid.append (IsSolid.append ?_ (isSolid_of_isDigits hwhole)) ?_
  · rcases hminus with rfl | rfl
    · exact nofun
    · exact isSolid_of_all (by decide)
  · rcases hpart with rfl | ⟨digits, rfl, hdigits⟩
    · exact nofun
    · intro c hc
      rcases List.mem_cons.1 hc with rfl | hc
      · decide
      · exact isSolid_of_isDigits hdigits c hc

section

variable {σ : Type} {step : σ → Char → Option σ} {state : Nat → σ}
  {within : Nat → Nat} {free : Nat → Prop}

/-- A scanner passes one text and then the next. -/
theorem passes_append {s t u : σ} {cs ds : List Char}
    (hc : cs.foldlM step s = some t) (hd : ds.foldlM step t = some u) :
    (cs ++ ds).foldlM step s = some u := by
  rw [List.foldlM_append, hc]
  exact hd

/-- A scanner passes a character and then a text. -/
theorem passes_cons {s t u : σ} {c : Char} {cs : List Char}
    (hc : step s c = some t) (hd : cs.foldlM step t = some u) :
    (c :: cs).foldlM step s = some u := by
  rw [List.foldlM_cons, hc]
  exact hd

/-- A scanner passes solid text. -/
theorem Tracks.solid (h : Tracks step state within free) (d : Nat)
    {cs : List Char} (hcs : IsSolid cs) :
    cs.foldlM step (state d) = some (state d) := by
  induction cs with
  | nil => rfl
  | cons c cs ih =>
    obtain ⟨hplain, hrest⟩ := hcs c (List.mem_cons_self ..)
    exact passes_cons (h.plain d c hplain (Or.inr hrest))
      (ih fun c hc => hcs c (List.mem_cons_of_mem _ hc))

/-- A scanner passes a gap, where it does not stop at blanks. -/
theorem Tracks.gap (h : Tracks step state within free) {d : Nat}
    {loose : Bool} (hd : loose = true → free d) {cs : List Char}
    (hcs : IsGap loose cs) : cs.foldlM step (state d) = some (state d) := by
  obtain ⟨hblank, htight⟩ := hcs
  cases loose with
  | false =>
    rw [htight rfl]
    rfl
  | true =>
    induction cs with
    | nil => rfl
    | cons c cs ih =>
      simp only [List.all_cons, Bool.and_eq_true] at hblank
      exact passes_cons
        (h.plain d c (isPlain_of_isBlank hblank.1) (Or.inl (hd rfl)))
        (ih hblank.2 nofun)

/-- A scanner passes what is written and is as deep in brackets as
before. -/
theorem Written.tracked (h : Tracks step state within free) {loose : Bool}
    {phrase : Phrase} {cs : List Char} (hw : Written loose phrase cs)
    {d : Nat} (hd : loose = true → free d) :
    cs.foldlM step (state d) = some (state d) := by
  induction hw generalizing d with
  | literal hname _ => exact h.solid d hname.isSolid
  | name hname _ _ ih => exact passes_append (h.solid d hname.isSolid) (ih hd)
  | bracketed hbefore _ hafter _ ihInner ihSteps =>
    obtain ⟨hopen, hclose, hfree⟩ := h.square d
    have hinner := passes_append
      (passes_append (h.gap (fun _ => hfree) hbefore)
        (ihInner fun _ => hfree))
      (h.gap (fun _ => hfree) hafter)
    exact passes_append (passes_cons hopen hinner)
      (passes_cons hclose (ihSteps hd))
  | string hq hbody => exact h.quoted d _ _ hq hbody
  | number hnumeral _ => exact h.solid d hnumeral.isSolid
  | range _ _ _ _ _ hg₁ hg₂ hg₃ hg₄ _ ihFirst ihLast =>
    obtain ⟨hopen, hclose, hfree⟩ := h.round d
    have hfirst := passes_append
      (passes_append (h.gap (fun _ => hfree) hg₁) (ihFirst fun _ => hfree))
      (h.gap (fun _ => hfree) hg₂)
    have hdots := h.solid (within d) (show IsSolid ['.', '.'] by decide)
    have hlast := passes_append
      (passes_append (h.gap (fun _ => hfree) hg₃) (ihLast fun _ => hfree))
      (h.gap (fun _ => hfree) hg₄)
    exact passes_append
      (passes_append (passes_append (passes_cons hopen hfirst) hdots) hlast)
      (passes_cons hclose rfl)
  | done => rfl
  | key hbefore hafter hname _ ih =>
    have hdot := h.plain d '.' (by decide) (Or.inr (by decide))
    exact passes_append
      (passes_append (passes_append (h.gap hd hbefore)
        (passes_cons hdot (h.gap hd hafter)))
        (h.solid d hname.isSolid)) (ih hd)
  | index hgap hbefore _ hafter _ ihInner ihSteps =>
    obtain ⟨hopen, hclose, hfree⟩ := h.square d
    have hinner := passes_append
      (passes_append (h.gap (fun _ => hfree) hbefore)
        (ihInner fun _ => hfree))
      (h.gap (fun _ => hfree) hafter)
    exact passes_append (passes_append (h.gap hd hgap)
      (passes_cons hopen hinner)) (passes_cons hclose (ihSteps hd))

end

-- ======================================================== two scanners

/-- A scanner that waits for a quote passes text without it. -/
theorem passes_body {σ : Type} {step : σ → Char → Option σ} {s : σ}
    {q : Char} {body : List Char} (hstay : ∀ c, c ≠ q → step s c = some s)
    (hbody : q ∉ body) : body.foldlM step s = some s := by
  induction body with
  | nil => rfl
  | cons c cs ih =>
    simp only [List.mem_cons, not_or] at hbody
    exact passes_cons (hstay c (Ne.symm hbody.1)) (ih hbody.2)

/-- A quoted text brings a scanner back that waits for its quote. -/
private theorem passes_quoted {σ : Type} {step : σ → Char → Option σ}
    {s t : σ} {q : Char} {body : List Char}
    (hopen : step s q = some t) (hclose : step t q = some s)
    (hstay : ∀ c, c ≠ q → step t c = some t) (hbody : q ∉ body) :
    (q :: body ++ [q]).foldlM step s = some s :=
  passes_append (passes_cons hopen (passes_body hstay hbody))
    (passes_cons hclose rfl)

namespace Segment

/-- One character of a group, unless it closes the group. -/
def step (n : Nesting) (c : Char) : Option Nesting :=
  if n.closes c then none else some (n.next c)

/-- The scan of a group keeps track of brackets and quotes. Parentheses
are like any other character to it, and so are blanks. -/
theorem tracks : Tracks step (fun d => ⟨d + 1, none⟩) id fun _ => True where
  plain d c hplain _ := by
    simp only [isPlain, Bool.not_eq_true', Bool.or_eq_false_iff,
      beq_eq_false_iff_ne] at hplain
    obtain ⟨⟨⟨⟨⟨hquote, hdouble⟩, hopen⟩, hclose⟩, -⟩, -⟩ := hplain
    simp [step, Nesting.closes, Nesting.next, hquote, hdouble, hopen, hclose]
  square d := by
    refine ⟨?_, ?_, trivial⟩
    · simp [step, Nesting.closes, Nesting.next]
    · simp [step, Nesting.closes, Nesting.next]
  round d := by
    refine ⟨?_, ?_, trivial⟩
    · simp [step, Nesting.closes, Nesting.next]
    · simp [step, Nesting.closes, Nesting.next]
  quoted d q body hq hbody := by
    refine passes_quoted (t := ⟨d + 1, some q⟩) ?_ ?_ ?_ hbody
    · rcases hq with rfl | rfl <;>
        simp [step, Nesting.closes, Nesting.next]
    · simp [step, Nesting.closes, Nesting.next]
    · intro c hc
      simp [step, Nesting.closes, Nesting.next, hc]

/-- A group goes on behind what the scan passes. -/
theorem closeGroup_append {n n' : Nesting} {cs : List Char}
    (h : cs.foldlM step n = some n') (rest : List Char) :
    closeGroup n (cs ++ rest) =
      (closeGroup n' rest).map fun r => (cs ++ r.1, r.2) := by
  induction cs generalizing n with
  | nil =>
    obtain rfl : n = n' := Option.some.inj h
    simp
  | cons c cs ih =>
    obtain ⟨m, hm, h⟩ := Option.bind_eq_some_iff.1 h
    simp only [step] at hm
    split at hm
    · cases hm
    · next hc =>
      obtain rfl := Option.some.inj hm
      rw [List.cons_append, closeGroup, if_neg hc, ih h, Option.map_map]
      rfl

end Segment

namespace Fragment

/-- One character of an operand, unless the operand ends there. -/
def step (n : Nesting) (c : Char) : Option Nesting :=
  if n.stops c then none else some (n.next c)

/-- The scan of an operand keeps track of brackets, of both kinds, and of
quotes. Inside brackets it does not stop. -/
theorem tracks : Tracks step (fun d => ⟨d, none⟩) (· + 1) (· ≠ 0) where
  plain d c hplain hfree := by
    simp only [isPlain, Bool.not_eq_true', Bool.or_eq_false_iff,
      beq_eq_false_iff_ne] at hplain
    obtain ⟨⟨⟨⟨⟨hquote, hdouble⟩, hopen⟩, hclose⟩, hround⟩, hround'⟩ := hplain
    have hstops : Nesting.stops ⟨d, none⟩ c = false := by
      rcases hfree with hd | ⟨hblank, hop⟩
      · simp [Nesting.stops, Nesting.isOpen, hd]
      · simp [Nesting.stops, hblank, hop]
    simp [step, hstops, Nesting.next, hquote, hdouble, hopen, hclose, hround,
      hround']
  square d := by
    have hopen : isBlank '[' = false ∧ isOperatorChar '[' = false := by
      decide
    refine ⟨?_, ?_, Nat.succ_ne_zero d⟩
    · simp [step, Nesting.stops, Nesting.next, hopen]
    · simp [step, Nesting.stops, Nesting.isOpen, Nesting.next]
  round d := by
    have hopen : isBlank '(' = false ∧ isOperatorChar '(' = false := by
      decide
    refine ⟨?_, ?_, Nat.succ_ne_zero d⟩
    · simp [step, Nesting.stops, Nesting.next, hopen]
    · simp [step, Nesting.stops, Nesting.isOpen, Nesting.next]
  quoted d q body hq hbody := by
    refine passes_quoted (t := ⟨d, some q⟩) ?_ ?_ ?_ hbody
    · have hquote : isBlank q = false ∧ isOperatorChar q = false := by
        rcases hq with rfl | rfl <;> decide
      rcases hq with rfl | rfl <;>
        simp [step, Nesting.stops, Nesting.next, hquote]
    · simp [step, Nesting.stops, Nesting.isOpen, Nesting.next]
    · intro c hc
      simp [step, Nesting.stops, Nesting.isOpen, Nesting.next, hc]

/-- An operand goes on behind what the scan passes. -/
theorem operand_append {n n' : Nesting} {cs : List Char}
    (h : cs.foldlM step n = some n') (rest : List Char) :
    takeOperand n (cs ++ rest) = cs ++ takeOperand n' rest ∧
      dropOperand n (cs ++ rest) = dropOperand n' rest := by
  induction cs generalizing n with
  | nil =>
    obtain rfl : n = n' := Option.some.inj h
    exact ⟨rfl, rfl⟩
  | cons c cs ih =>
    obtain ⟨m, hm, h⟩ := Option.bind_eq_some_iff.1 h
    simp only [step] at hm
    split at hm
    · cases hm
    · next hc =>
      obtain rfl := Option.some.inj hm
      obtain ⟨htake, hdrop⟩ := ih h
      rw [List.cons_append, takeOperand, dropOperand, if_neg hc, if_neg hc,
        htake, hdrop]
      exact ⟨rfl, rfl⟩

end Fragment

end Stencil
