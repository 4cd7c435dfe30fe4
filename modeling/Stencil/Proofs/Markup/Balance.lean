/-
Text in which quotes and brackets balance, without counting.

Both scanners of the lenient grammar keep a depth of brackets and a quote.
`Balanced` says by a grammar what they count: a quoted text is passed as
one, a group is an opening bracket, balanced text and a closing bracket,
and any other character stands free or ends the text. A bracket is never
closed when no balanced text behind it leads to a closing one; quotes
behind it count, so `["]` is not closed.

Any text has a balanced front, and what follows the front says why it
ends there (`Balanced.exists_front`). This is where a text is taken apart;
a scanner then only has to be followed along the grammar, which
`Brackets.Tracked` asks of it.
-/
import Stencil.Proofs.Markup.Writing

namespace Stencil

-- ============================================================= grammar

/-- The two quotes. -/
def IsQuote (c : Char) : Prop := c = '\'' ∨ c = '"'

/-- The characters that open groups and those that close them. -/
structure Brackets where
  opens : Char → Bool
  closes : Char → Bool

/-- The characters that may stand free in a group: those that close
nothing. -/
def Brackets.within (b : Brackets) (c : Char) : Bool := !b.closes c

/-- Text in which every quote and every bracket that opens is closed.
Outside quotes and groups only characters of a class stand free. -/
inductive Balanced (b : Brackets) : (free : Char → Bool) → List Char → Prop
  | nil {free : Char → Bool} : Balanced b free []
  | plain {free : Char → Bool} {c : Char} {cs : List Char} :
      free c = true → ¬IsQuote c → b.opens c = false → Balanced b free cs →
      Balanced b free (c :: cs)
  | quoted {free : Char → Bool} {q : Char} {body cs : List Char} :
      IsQuote q → q ∉ body → Balanced b free cs →
      Balanced b free (q :: body ++ q :: cs)
  | group {free : Char → Bool} {o e : Char} {inner cs : List Char} :
      b.opens o = true → Balanced b b.within inner → b.closes e = true →
      Balanced b free cs → Balanced b free (o :: inner ++ e :: cs)

/-- The text behind an opening bracket that is never closed. -/
def Brackets.NeverCloses (b : Brackets) (cs : List Char) : Prop :=
  ∀ inner e rest, cs = inner ++ e :: rest → b.closes e = true →
    ¬Balanced b b.within inner

/-- A quote or an opening bracket that the text behind it never closes. -/
def Brackets.Hangs (b : Brackets) (o : Char) (cs : List Char) : Prop :=
  (IsQuote o ∧ o ∉ cs) ∨ (b.opens o = true ∧ b.NeverCloses cs)

/-- Where balanced text cannot go on: at the end, at a character that may
not stand free, or at what is never closed. -/
def Brackets.Stuck (b : Brackets) (free : Char → Bool) : List Char → Prop
  | [] => True
  | c :: cs =>
    (¬IsQuote c ∧ b.opens c = false ∧ free c = false) ∨ b.Hangs c cs

/-- What stands behind a character of a text is shorter than the text. -/
theorem length_behind_lt {cs before after : List Char} {c : Char}
    (h : cs = before ++ c :: after) : after.length < cs.length := by
  simp only [h, List.length_append, List.length_cons]
  omega

/-- Text is balanced up to where it cannot be. -/
theorem Balanced.exists_front (b : Brackets) (free : Char → Bool) :
    (cs : List Char) → ∃ front rest, cs = front ++ rest ∧
      Balanced b free front ∧ b.Stuck free rest
  | [] => ⟨[], [], rfl, .nil, trivial⟩
  | c :: cs => by
    have hstop : b.Stuck free (c :: cs) → ∃ front rest,
        c :: cs = front ++ rest ∧ Balanced b free front ∧
        b.Stuck free rest := fun h => ⟨[], c :: cs, rfl, .nil, h⟩
    by_cases hquote : IsQuote c
    · by_cases hbody : c ∈ cs
      · obtain ⟨body, after, heq, hbody⟩ := List.eq_append_cons_of_mem hbody
        have hlen := length_behind_lt heq
        obtain ⟨front, rest, rfl, hfront, hrest⟩ := exists_front b free after
        exact ⟨c :: body ++ c :: front, rest, by simp [heq],
          .quoted hquote hbody hfront, hrest⟩
      · exact hstop (Or.inr (Or.inl ⟨hquote, hbody⟩))
    by_cases hopens : b.opens c = true
    · by_cases hnever : b.NeverCloses cs
      · exact hstop (Or.inr (Or.inr ⟨hopens, hnever⟩))
      · simp only [Brackets.NeverCloses, Classical.not_forall,
          Classical.not_not] at hnever
        obtain ⟨inner, e, after, heq, hcloses, hinner⟩ := hnever
        have hlen := length_behind_lt heq
        obtain ⟨front, rest, rfl, hfront, hrest⟩ := exists_front b free after
        exact ⟨c :: inner ++ e :: front, rest, by simp [heq],
          .group hopens hinner hcloses hfront, hrest⟩
    rw [Bool.not_eq_true] at hopens
    by_cases hfree : free c = true
    · obtain ⟨front, rest, rfl, hfront, hrest⟩ := exists_front b free cs
      exact ⟨c :: front, rest, rfl, .plain hfree hquote hopens hfront, hrest⟩
    · rw [Bool.not_eq_true] at hfree
      exact hstop (Or.inl ⟨hquote, hopens, hfree⟩)
termination_by cs => cs.length
decreasing_by all_goals simp only [List.length_cons]; omega

/-- Balanced text ends in a free character or in one that closes. -/
theorem Balanced.getLast {b : Brackets} {free : Char → Bool} {cs : List Char}
    (h : Balanced b free cs) {c : Char} (hc : c ∈ cs.getLast?) :
    free c = true ∨ IsQuote c ∨ b.closes c = true := by
  have hlast : ∀ {us : List Char} {d : Char} {ds : List Char},
      c ∈ (us ++ d :: ds).getLast? → c = d ∨ c ∈ ds.getLast? := by
    intro us d ds hc
    rw [List.getLast?_append, List.getLast?_cons, Option.some_or] at hc
    obtain rfl := Option.some.inj hc
    cases ds.getLast? with
    | none => exact Or.inl rfl
    | some e => exact Or.inr rfl
  induction h with
  | nil => cases hc
  | plain hfree _ _ _ ih =>
    rcases @hlast [] _ _ hc with rfl | hc
    · exact Or.inl hfree
    · exact ih hc
  | quoted hq _ _ ih =>
    rcases hlast hc with rfl | hc
    · exact Or.inr (Or.inl hq)
    · exact ih hc
  | group _ _ he _ _ ih =>
    rcases hlast hc with rfl | hc
    · exact Or.inr (Or.inr he)
    · exact ih hc

-- ============================================================ scanners

/-- The characters that stand free at a depth: outside all groups those of
a class, in groups all that close nothing. -/
def Brackets.free (b : Brackets) (outer : Char → Bool) : Nat → Char → Bool
  | 0 => outer
  | _ + 1 => b.within

/-- A scanner keeps track of quotes and brackets: it has a state for each
depth, which free characters leave alone, a bracket goes one deeper and
any other one back, and a quote waits for its like. -/
structure Brackets.Tracked {σ : Type} (b : Brackets)
    (step : σ → Char → Option σ) (state : Nat → σ) (outer : Char → Bool) :
    Prop where
  plain : ∀ d c, b.free outer d c = true → ¬IsQuote c → b.opens c = false →
    step (state d) c = some (state d)
  opening : ∀ d o, b.opens o = true → step (state d) o = some (state (d + 1))
  closing : ∀ d e, b.closes e = true → step (state (d + 1)) e = some (state d)
  quote : ∀ d q, IsQuote q → ∃ s, step (state d) q = some s ∧
    step s q = some (state d) ∧ ∀ c, c ≠ q → step s c = some s

section

variable {σ : Type} {b : Brackets} {step : σ → Char → Option σ}
  {state : Nat → σ} {outer : Char → Bool}

/-- A scanner passes balanced text and is as deep as before. -/
theorem Brackets.Tracked.passes (h : b.Tracked step state outer) {d : Nat}
    {cs : List Char} (hcs : Balanced b (b.free outer d) cs) :
    cs.foldlM step (state d) = some (state d) := by
  generalize hfree : b.free outer d = free at hcs
  induction hcs generalizing d with
  | nil => rfl
  | plain hc hquote hopens _ ih =>
    subst hfree
    exact passes_cons (h.plain d _ hc hquote hopens) (ih rfl)
  | quoted hq hbody _ ih =>
    obtain ⟨s, hopen, hclose, hstay⟩ := h.quote d _ hq
    exact passes_append (passes_cons hopen (passes_body hstay hbody))
      (passes_cons hclose (ih hfree))
  | group ho _ he _ ihInner ih =>
    exact passes_append (passes_cons (h.opening d _ ho) (ihInner rfl))
      (passes_cons (h.closing d _ he) (ih hfree))

/-- A scanner runs through what is never closed. -/
theorem Brackets.Tracked.hangs (h : b.Tracked step state outer) (d : Nat)
    {o : Char} {cs : List Char} (ho : b.Hangs o cs) :
    ∃ s, (o :: cs).foldlM step (state d) = some s := by
  rcases ho with ⟨hquote, hbody⟩ | ⟨hopens, hnever⟩
  · obtain ⟨s, hopen, -, hstay⟩ := h.quote d o hquote
    exact ⟨s, passes_cons hopen (passes_body hstay hbody)⟩
  have hopen := h.opening d o hopens
  obtain ⟨front, rest, heq, hfront, hrest⟩ :=
    Balanced.exists_front b b.within cs
  have hpass := h.passes (d := d + 1) hfront
  match rest, hrest with
  | [], _ => exact ⟨_, passes_cons hopen (heq ▸ passes_append hpass rfl)⟩
  | c :: more, Or.inl ⟨_, _, hcloses⟩ =>
    -- what may not stand free in a group closes it
    refine absurd hfront (hnever front c more heq ?_)
    simpa [Brackets.within] using hcloses
  | c :: more, Or.inr hc =>
    have hlen := length_behind_lt heq
    obtain ⟨s, hs⟩ := h.hangs (d + 1) hc
    exact ⟨s, passes_cons hopen (heq ▸ passes_append hpass hs)⟩
termination_by cs.length

end

end Stencil
