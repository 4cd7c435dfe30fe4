/-
What the scan of a condition makes of its markup: all of it, in pieces.

`Fragment.Laid` lays pieces out in markup with nothing but blanks between
them. Its rules are the specification: signs of comparison are taken in
runs that no sign goes on with on either side, an operand is balanced text
in which blanks and signs stand in quotes and groups only, and only the
last piece may hold a quote or a bracket that is never closed. A closing
bracket outside all groups is a character like any other.

Every markup is laid out as its scan says (`Fragment.laid_scan`, by the
recursion of the scan), and in no other way (`Fragment.Laid.scan_eq`, by
the layout). What stands before a piece matters to its left border only.
The induction carries it along, with the invariant `Fragment.Parted`: no
sign of comparison stands on both sides of where the scan is.
-/
import Stencil.Proofs.Condition.Concord
import Stencil.Proofs.Markup.Balance

namespace Stencil

open Text

/-- The brackets of a condition. Either closing one closes either kind of
group. -/
def Brackets.either : Brackets :=
  ⟨fun c => c == '[' || c == '(', fun c => c == ']' || c == ')'⟩

namespace Fragment

-- ============================================================ operands

/-- The characters that may stand in an operand outside quotes and
groups. -/
def standsFree (c : Char) : Bool := !(isBlank c || isOperatorChar c)

/-- The scan of an operand counts brackets of either kind. -/
theorem tracked :
    Brackets.either.Tracked step (fun d => ⟨d, none⟩) standsFree where
  plain d c hfree hquote hopens := by
    simp only [IsQuote, not_or] at hquote
    simp only [Brackets.either, Bool.or_eq_false_iff,
      beq_eq_false_iff_ne] at hopens
    cases d with
    | zero =>
      have hfree : standsFree c = true := hfree
      simp only [standsFree, Bool.not_eq_true', Bool.or_eq_false_iff]
        at hfree
      -- a closing bracket out here closes nothing
      by_cases hcloses : c = ']' ∨ c = ')'
      · simp [step, Nesting.stops, Nesting.next, hfree, hquote, hopens,
          hcloses]
      · simp [step, Nesting.stops, Nesting.next, hfree, hquote, hopens,
          hcloses]
    | succ d =>
      have hcloses : Brackets.either.within c = true := hfree
      simp only [Brackets.within, Brackets.either, Bool.not_eq_true',
        Bool.or_eq_false_iff, beq_eq_false_iff_ne] at hcloses
      simp [step, Nesting.stops, Nesting.isOpen, Nesting.next, hquote,
        hopens, hcloses]
  opening d o ho := by
    have ho : o = '[' ∨ o = '(' := by simpa [Brackets.either] using ho
    rcases ho with rfl | rfl
    · exact (tracks.square d).1
    · exact (tracks.round d).1
  closing d e he := by
    have he : e = ']' ∨ e = ')' := by simpa [Brackets.either] using he
    rcases he with rfl | rfl
    · exact (tracks.square d).2.1
    · exact (tracks.round d).2.1
  quote d q hq := by
    have hstops : isBlank q = false ∧ isOperatorChar q = false := by
      rcases hq with rfl | rfl <;> decide
    refine ⟨⟨d, some q⟩, ?_, ?_, fun c hc => ?_⟩
    · rcases hq with rfl | rfl <;>
        simp [step, Nesting.stops, Nesting.next, hstops]
    · simp [step, Nesting.stops, Nesting.isOpen, Nesting.next]
    · simp [step, Nesting.stops, Nesting.isOpen, Nesting.next, hc]

/-- The scan of an operand passes balanced text. -/
theorem passes_balanced {cs : List Char}
    (h : Balanced .either standsFree cs) :
    cs.foldlM step .outside = some .outside :=
  tracked.passes (d := 0) h

/-- The scan of an operand runs through what is never closed. -/
theorem passes_open {front tail : List Char} {o : Char}
    (hfront : Balanced .either standsFree front)
    (htail : Brackets.either.Hangs o tail) :
    ∃ n, (front ++ o :: tail).foldlM step .outside = some n := by
  obtain ⟨n, hn⟩ := tracked.hangs 0 htail
  exact ⟨n, passes_append (passes_balanced hfront) hn⟩

/-- A text that the scan of an operand runs through is one piece. -/
theorem scan_passed {cs : List Char} {n : Nesting} (hne : cs ≠ [])
    (hpass : cs.foldlM step .outside = some n) : scan cs = [ofOperand cs] := by
  obtain ⟨c, cs, rfl⟩ := List.exists_cons_of_ne_nil hne
  obtain ⟨hblank, hop, hcs⟩ := passed_head hpass
  obtain ⟨htake, hdrop⟩ := operand_append hcs []
  rw [List.append_nil] at htake hdrop
  rw [scan, if_neg (by simp [hblank]), if_neg (by simp [hop])]
  dsimp only
  rw [htake, hdrop, takeOperand, dropOperand, List.append_nil, scan]

/-- Text that starts with neither a blank nor a sign of comparison starts
with an operand. -/
theorem operand_of_head {c : Char} (hblank : ¬isBlank c = true)
    (hop : ¬isOperatorChar c = true) (rest : List Char) :
    takeOperand .outside (c :: rest) =
        c :: takeOperand (Nesting.outside.next c) rest ∧
      dropOperand .outside (c :: rest) =
        dropOperand (Nesting.outside.next c) rest := by
  have hstops : ¬Nesting.outside.stops c = true := by
    simp [Nesting.stops, hblank, hop]
  rw [takeOperand, dropOperand, if_neg hstops, if_neg hstops]
  exact ⟨rfl, rfl⟩

/-- The operand that a text starts with is balanced and ends in front of a
border, or it is never closed and ends with the text. -/
theorem operand_cases (cs : List Char) :
    (Balanced .either standsFree (takeOperand .outside cs) ∧
        IsBorder (dropOperand .outside cs)) ∨
      ∃ front o tail, takeOperand .outside cs = front ++ o :: tail ∧
        Balanced .either standsFree front ∧ Brackets.either.Hangs o tail ∧
        dropOperand .outside cs = [] := by
  obtain ⟨front, rest, rfl, hfront, hrest⟩ :=
    Balanced.exists_front .either standsFree cs
  match rest, hrest with
  | [], _ =>
    obtain ⟨htake, hdrop⟩ := operand_append (passes_balanced hfront) []
    rw [htake, hdrop, takeOperand, dropOperand, List.append_nil]
    exact Or.inl ⟨hfront, by simp [IsBorder]⟩
  | c :: more, Or.inl ⟨_, _, hfree⟩ =>
    have hborder : IsBorder (c :: more) := by
      intro d hd
      obtain rfl : c = d := Option.some.inj hd
      simpa only [standsFree, Bool.not_eq_false', Bool.or_eq_true]
        using hfree
    obtain ⟨htake, hdrop⟩ :=
      operand_append (passes_balanced hfront) (c :: more)
    obtain ⟨hnothing, hall⟩ := operand_border hborder
    rw [htake, hdrop, hnothing, hall, List.append_nil]
    exact Or.inl ⟨hfront, hborder⟩
  | o :: tail, Or.inr ho =>
    obtain ⟨n, hn⟩ := passes_open hfront ho
    obtain ⟨htake, hdrop⟩ := operand_append hn []
    rw [List.append_nil] at htake hdrop
    rw [htake, hdrop, takeOperand, dropOperand, List.append_nil]
    exact Or.inr ⟨front, o, tail, rfl, hfront, ho, rfl⟩

-- ============================================================== layout

/-- The kind of an operand by its whole text: a keyword if and only if it
is a linking word. -/
def IsKind (kind : FragmentKind) (text : List Char) : Prop :=
  (kind = .keyword ∧ String.ofList text ∈ relationWords) ∨
    (kind = .operand ∧ String.ofList text ∉ relationWords)

/-- How pieces stand in markup, in order and apart, behind what was before
it, with blanks around them and nothing else. -/
inductive Laid : (before markup : List Char) → List Fragment → Prop
  /-- Where no piece is left, there are only blanks. -/
  | gap {before gap : List Char} : gap.all isBlank = true → Laid before gap []
  /-- A run of signs of comparison, with none in front of it and none
  behind it. -/
  | operator {before gap text rest : List Char} {later : List Fragment} :
      gap.all isBlank = true → text ≠ [] →
      (∀ c ∈ text, isOperatorChar c = true) →
      (∀ c ∈ (before ++ gap).getLast?, isOperatorChar c = false) →
      (∀ c ∈ rest.head?, isOperatorChar c = false) →
      Laid (before ++ gap ++ text) rest later →
      Laid before (gap ++ text ++ rest) (⟨.operator, text⟩ :: later)
  /-- An operand, or a linking word, in which all is closed, up to the next
  blank or sign of comparison. -/
  | operand {before gap text rest : List Char} {kind : FragmentKind}
      {later : List Fragment} :
      gap.all isBlank = true → text ≠ [] → IsKind kind text →
      Balanced .either standsFree text → IsBorder rest →
      Laid (before ++ gap ++ text) rest later →
      Laid before (gap ++ text ++ rest) (⟨kind, text⟩ :: later)
  /-- An operand in which something is never closed, up to the end. -/
  | unclosed {before gap front tail : List Char} {o : Char}
      {kind : FragmentKind} :
      gap.all isBlank = true → IsKind kind (front ++ o :: tail) →
      Balanced .either standsFree front → Brackets.either.Hangs o tail →
      Laid before (gap ++ (front ++ o :: tail)) [⟨kind, front ++ o :: tail⟩]

/-- There may be no blanks at all. -/
theorem no_gap : ([] : List Char).all isBlank = true := rfl

/-- A text is a piece of its kind. -/
theorem ofOperand_eq_iff {kind : FragmentKind} {text : List Char} :
    ofOperand text = ⟨kind, text⟩ ↔ IsKind kind text := by
  unfold ofOperand IsKind
  by_cases hword : String.ofList text ∈ relationWords
  · simp [hword, eq_comm]
  · simp [hword, eq_comm]

/-- What an operand's text is a piece of is that text. -/
theorem exists_kind (text : List Char) :
    ∃ kind, ofOperand text = ⟨kind, text⟩ := by
  unfold ofOperand
  split <;> exact ⟨_, rfl⟩

/-- Blanks may stand in front. -/
theorem Laid.skip {before cs : List Char} {fragments : List Fragment}
    {c : Char} (hc : isBlank c = true)
    (h : Laid (before ++ [c]) cs fragments) :
    Laid before (c :: cs) fragments := by
  have hgap : ∀ {gap : List Char}, gap.all isBlank = true →
      (c :: gap).all isBlank = true := fun h => by simp [hc, h]
  have hbefore : ∀ more, before ++ [c] ++ more = before ++ c :: more := by simp
  cases h with
  | gap hblank => exact .gap (hgap hblank)
  | operator hblank hne htext hleft hright hrest =>
    rw [hbefore] at hleft hrest
    exact .operator (hgap hblank) hne htext hleft hright hrest
  | operand hblank hne hkind htext hborder hrest =>
    rw [hbefore] at hrest
    exact .operand (hgap hblank) hne hkind htext hborder hrest
  | unclosed hblank hkind hfront htail =>
    exact .unclosed (hgap hblank) hkind hfront htail

-- ================================================================ scan

/-- The scan finds what is laid out. -/
theorem Laid.scan_eq {before markup : List Char} {fragments : List Fragment}
    (h : Laid before markup fragments) : scan markup = fragments := by
  induction h with
  | @gap before gap hblank =>
    have hscan := scan_gap hblank []
    rw [List.append_nil] at hscan
    rw [hscan, scan]
  | operator hblank hne htext _ hright _ ih =>
    rw [List.append_assoc, scan_gap hblank, scan_operator hne htext hright, ih]
  | operand hblank hne hkind htext hborder _ ih =>
    rw [List.append_assoc, scan_gap hblank,
      scan_operand hne (passes_balanced htext) hborder, ih,
      ofOperand_eq_iff.2 hkind]
  | unclosed hblank hkind hfront htail =>
    obtain ⟨n, hn⟩ := passes_open hfront htail
    rw [scan_gap hblank, scan_passed (by simp) hn, ofOperand_eq_iff.2 hkind]

/-- No sign of comparison stands on both sides of a place. -/
def Parted (before rest : List Char) : Prop :=
  ∀ c ∈ before.getLast?, isOperatorChar c = true →
    ∀ d ∈ rest.head?, isOperatorChar d = false

/-- Balanced text ends in no sign of comparison. -/
theorem isOperatorChar_of_getLast {cs : List Char} {c : Char}
    (h : Balanced .either standsFree cs) (hc : c ∈ cs.getLast?) :
    isOperatorChar c = false := by
  rcases h.getLast hc with hfree | hquote | hcloses
  · simp only [standsFree, Bool.not_eq_true', Bool.or_eq_false_iff] at hfree
    exact hfree.2
  · rcases hquote with rfl | rfl <;> decide
  · have hcloses : c = ']' ∨ c = ')' := by
      simpa [Brackets.either] using hcloses
    rcases hcloses with rfl | rfl <;> decide

/-- A place is parted by what stands in front of it. -/
theorem parted_of_left {before rest : List Char}
    (h : ∀ c ∈ before.getLast?, isOperatorChar c = false) :
    Parted before rest :=
  fun c hc hop => absurd hop (by simp [h c hc])

/-- Markup is laid out as its scan says. -/
theorem laid_scan (markup : List Char) {before : List Char}
    (h : Parted before markup) : Laid before markup (scan markup) := by
  fun_induction scan markup generalizing before with
  | case1 => exact .gap rfl
  | case2 c rest hblank ih =>
    refine .skip hblank (ih (parted_of_left fun d hd => ?_))
    obtain rfl : c = d := by simpa using hd
    rw [← Bool.not_eq_true]
    exact fun hop => absurd hblank (by simp [isBlank_of_isOperatorChar hop])
  | case3 c rest hblank hop ih =>
    have htext : ∀ d ∈ c :: rest.takeWhile isOperatorChar,
        isOperatorChar d = true :=
      List.forall_mem_cons.2 ⟨hop, List.all_eq_true.1 List.all_takeWhile⟩
    have hright : ∀ d ∈ (rest.dropWhile isOperatorChar).head?,
        isOperatorChar d = false := by
      intro d hd
      have hhead := List.head?_dropWhile_not isOperatorChar rest
      rw [hd] at hhead
      exact hhead
    have hleft : ∀ d ∈ (before ++ []).getLast?, isOperatorChar d = false := by
      rw [List.append_nil]
      intro d hd
      rw [← Bool.not_eq_true]
      exact fun hsign => absurd hop (by simp [h d hd hsign c rfl])
    have hlaid := Laid.operator no_gap (List.cons_ne_nil c _) htext hleft
      hright (ih fun _ _ _ => hright)
    simpa using hlaid
  | case4 c rest hblank hop n =>
    rename_i ih
    obtain ⟨htake, hdrop⟩ : takeOperand .outside (c :: rest) =
        c :: takeOperand n rest ∧ dropOperand .outside (c :: rest) =
        dropOperand n rest := operand_of_head hblank hop rest
    have hsplit := takeOperand_append_dropOperand .outside (c :: rest)
    have hcases := operand_cases (c :: rest)
    rw [htake, hdrop] at hsplit hcases
    obtain ⟨kind, hkind⟩ := exists_kind (c :: takeOperand n rest)
    rw [hkind, ← hsplit]
    rw [ofOperand_eq_iff] at hkind
    rcases hcases with ⟨htext, hborder⟩ |
      ⟨front, o, tail, heq, hfront, htail, hend⟩
    · refine .operand no_gap (List.cons_ne_nil c _) hkind htext
        hborder (ih (parted_of_left fun d hd => ?_))
      rw [List.getLast?_append, List.getLast?_cons, Option.some_or,
        ← List.getLast?_cons] at hd
      exact isOperatorChar_of_getLast htext hd
    · rw [heq] at hkind ⊢
      rw [hend, List.append_nil, scan]
      exact .unclosed no_gap hkind hfront htail

-- ============================================================= joining

/-- Pieces with single spaces between them. -/
def spaced (fragments : List Fragment) : List Char :=
  [' '].intercalate (fragments.map Fragment.text)

/-- Behind a piece that others are joined to, there is nothing or a blank
that stands between them. -/
theorem spaced_cons (fragment : Fragment) {later : List Fragment}
    (h : ∀ {before : List Char},
      (∀ c ∈ before.getLast?, isOperatorChar c = false) →
      Laid before (spaced later) later) :
    ∃ rest, spaced (fragment :: later) = fragment.text ++ rest ∧
      (∀ before, Laid before rest later) ∧ ∀ c ∈ rest.head?, c = ' ' := by
  cases later with
  | nil =>
    refine ⟨[], ?_, fun _ => .gap rfl, nofun⟩
    simp [spaced, List.intercalate_singleton]
  | cons next later =>
    refine ⟨' ' :: spaced (next :: later), ?_, fun before => ?_, ?_⟩
    · simp [spaced, List.intercalate_cons_cons]
    · refine .skip (by decide) (h fun c hc => ?_)
      obtain rfl : ' ' = c := by simpa using hc
      decide
    · exact fun c hc => (Option.some.inj hc).symm

/-- Pieces that are laid out in some markup are laid out when they are
joined by spaces. -/
theorem Laid.join {before markup : List Char} {fragments : List Fragment}
    (h : Laid before markup fragments) {before' : List Char}
    (hleft : ∀ c ∈ before'.getLast?, isOperatorChar c = false) :
    Laid before' (spaced fragments) fragments := by
  induction h generalizing before' with
  | gap => exact .gap rfl
  | @operator before gap text rest later _ hne htext _ _ _ ih =>
    obtain ⟨rest, heq, hrest, hspace⟩ := spaced_cons ⟨.operator, text⟩ ih
    rw [heq]
    refine .operator no_gap hne htext (by simpa using hleft)
      (fun c hc => ?_) (hrest _)
    rw [hspace c hc]
    decide
  | @operand before gap text rest kind later _ hne hkind htext _ _ ih =>
    obtain ⟨rest, heq, hrest, hspace⟩ := spaced_cons ⟨kind, text⟩ ih
    rw [heq]
    refine .operand no_gap hne hkind htext (fun c hc => ?_) (hrest _)
    rw [hspace c hc]
    decide
  | @unclosed before gap front tail o kind _ hkind hfront htail =>
    have heq : spaced [⟨kind, front ++ o :: tail⟩] = front ++ o :: tail := by
      simp [spaced, List.intercalate_singleton]
    rw [heq]
    exact .unclosed no_gap hkind hfront htail

/-- The scan of a condition loses nothing and splits no quoted text and no
group: its pieces stand in the markup in order, with only blanks around
them, they are the only ones that can be laid out so, and they are found
again when they are joined by spaces. -/
theorem scan_partitions_condition (markup : List Char) :
    Laid [] markup (scan markup) ∧
      (∀ fragments, Laid [] markup fragments → fragments = scan markup) ∧
      scan (spaced (scan markup)) = scan markup := by
  have hnone : ∀ c ∈ ([] : List Char).getLast?, isOperatorChar c = false := by
    simp
  have hlaid := laid_scan markup (parted_of_left hnone)
  exact ⟨hlaid, fun _ h => h.scan_eq.symm, (hlaid.join hnone).scan_eq⟩

end Fragment
end Stencil
