/-
What the scan of a path takes from its markup, and what it leaves.

`Segment.Laid` lays segments out in markup: gaps and segments in turn, the
segments as the scan promises them, the gaps with nothing in them that
belongs to a segment. Its rules are the specification. No rule mentions
depths or quotes; a group is balanced text in brackets, and a bracket in a
gap has nothing behind it that would close it.

Every markup is laid out as its scan says (`Segment.laid_scan`, by the
recursion of the scan), and in no other way (`Segment.Laid.scan_eq`, by the
layout). The second half also makes the scan stable: segments that are
joined again by dots are laid out with nothing but the dots between them.
-/
import Stencil.Proofs.Markup.Balance
import Stencil.Proofs.Markup.Rereading

namespace Stencil

open Text

/-- The brackets of a path. -/
def Brackets.square : Brackets := ⟨(· == '['), (· == ']')⟩

namespace Segment

-- ============================================================== groups

/-- The scan of a group counts square brackets, from inside the first. -/
theorem tracked : Brackets.square.Tracked step (fun d => ⟨d + 1, none⟩)
    Brackets.square.within where
  plain d c hfree hquote hopens := by
    have hcloses : (c == ']') = false := by
      cases d <;>
        simpa [Brackets.free, Brackets.within, Brackets.square] using hfree
    simp only [IsQuote, not_or] at hquote
    simp only [Brackets.square] at hopens
    simp [step, Nesting.closes, Nesting.next, hquote, hopens, hcloses]
  opening d o ho := by
    obtain rfl : o = '[' := by simpa [Brackets.square] using ho
    exact (tracks.square d).1
  closing d e he := by
    obtain rfl : e = ']' := by simpa [Brackets.square] using he
    exact (tracks.square d).2.1
  quote d q hq := by
    refine ⟨⟨d + 1, some q⟩, ?_, ?_, fun c hc => ?_⟩
    · rcases hq with rfl | rfl <;>
        simp [step, Nesting.closes, Nesting.next]
    · simp [step, Nesting.closes, Nesting.next]
    · simp [step, Nesting.closes, Nesting.next, hc]

/-- A group that a scan runs through is not closed. -/
theorem closeGroup_eq_none {n n' : Nesting} {cs : List Char}
    (h : cs.foldlM step n = some n') : closeGroup n cs = none := by
  have happend := closeGroup_append h []
  rw [List.append_nil] at happend
  rw [happend]
  rfl

/-- The scan of a group passes balanced text. -/
theorem passes_balanced {inner : List Char}
    (h : Balanced .square Brackets.square.within inner) :
    inner.foldlM step .start = some .start :=
  tracked.passes (d := 0) h

/-- A group closes at the bracket behind balanced text. -/
theorem closeGroup_balanced {inner : List Char}
    (h : Balanced .square Brackets.square.within inner)
    (rest : List Char) :
    closeGroup .start (inner ++ ']' :: rest) = some (inner, rest) := by
  rw [closeGroup_append (passes_balanced h), closeGroup]
  simp [Nesting.closes, Nesting.start]

/-- A group closes at the first bracket with balanced text before it. -/
theorem closeGroup_eq_some_iff {cs inner rest : List Char} :
    closeGroup .start cs = some (inner, rest) ↔
      cs = inner ++ ']' :: rest ∧
        Balanced .square Brackets.square.within inner := by
  constructor
  · intro h
    refine ⟨eq_of_closeGroup h, ?_⟩
    obtain ⟨front, after, rfl, hfront, hafter⟩ :=
      Balanced.exists_front .square Brackets.square.within cs
    have hpass := passes_balanced hfront
    match after, hafter with
    | [], _ =>
      rw [List.append_nil, closeGroup_eq_none hpass] at h
      cases h
    | c :: more, Or.inl ⟨_, _, hcloses⟩ =>
      obtain rfl : c = ']' := by
        simpa [Brackets.within, Brackets.square] using hcloses
      rw [closeGroup_balanced hfront] at h
      obtain ⟨rfl, rfl⟩ := Prod.mk.inj (Option.some.inj h)
      exact hfront
    | c :: more, Or.inr hc =>
      obtain ⟨s, hs⟩ := tracked.hangs 0 hc
      have hnone := closeGroup_eq_none (passes_append hpass hs)
      rw [hnone] at h
      cases h
  · rintro ⟨rfl, h⟩
    exact closeGroup_balanced h rest

/-- A group is not closed exactly if no balanced text leads to a closing
bracket. -/
theorem closeGroup_eq_none_iff {cs : List Char} :
    closeGroup .start cs = none ↔ Brackets.square.NeverCloses cs := by
  constructor
  · intro h inner e rest heq he hinner
    obtain rfl : e = ']' := by simpa [Brackets.square] using he
    rw [closeGroup_eq_some_iff.2 ⟨heq, hinner⟩] at h
    cases h
  · intro h
    refine Option.eq_none_iff_forall_ne_some.2 fun r hr => ?_
    obtain ⟨heq, hinner⟩ := closeGroup_eq_some_iff.1 hr
    exact h _ _ _ heq rfl hinner

-- ============================================================== layout

/-- Text that belongs to no segment, in front of other text: it has no
dashed-word character, and a bracket in it that opens is never closed. -/
def IsSeparator (gap rest : List Char) : Prop :=
  (∀ c ∈ gap, isDashedWord c = false) ∧
    ∀ before after, gap = before ++ '[' :: after →
      Brackets.square.NeverCloses (after ++ rest)

/-- How segments stand in markup, in order and apart, with a separator in
front of each and behind the last. -/
inductive Laid : (markup : List Char) → List Segment → Prop
  /-- Where no segment is left, the rest is a separator. -/
  | gap {gap : List Char} : IsSeparator gap [] → Laid gap []
  /-- A word is one or more dashed-word characters, and perhaps a question
  mark. Only behind a question mark may the next word follow at once. -/
  | word {gap body mark rest : List Char} {later : List Segment} :
      IsSeparator gap (body ++ mark ++ rest) → body ≠ [] →
      (∀ c ∈ body, isDashedWord c = true) →
      (mark = ['?'] ∨ mark = [] ∧
        ∀ c ∈ rest.head?, isDashedWord c = false ∧ c ≠ '?') →
      Laid rest later →
      Laid (gap ++ (body ++ mark) ++ rest) (.word (body ++ mark) :: later)
  /-- A group ends at the bracket at which its brackets balance. -/
  | group {gap inner rest : List Char} {later : List Segment} :
      IsSeparator gap ('[' :: inner ++ ']' :: rest) →
      Balanced .square Brackets.square.within inner → Laid rest later →
      Laid (gap ++ ('[' :: inner ++ [']']) ++ rest) (.group inner :: later)

/-- Nothing separates. -/
theorem isSeparator_nil (rest : List Char) : IsSeparator [] rest :=
  ⟨nofun, by simp⟩

/-- A separator may start earlier. -/
theorem IsSeparator.cons {gap rest : List Char} {c : Char}
    (hc : isDashedWord c = false)
    (hopen : c = '[' → Brackets.square.NeverCloses (gap ++ rest))
    (h : IsSeparator gap rest) : IsSeparator (c :: gap) rest := by
  refine ⟨List.forall_mem_cons.2 ⟨hc, h.1⟩, fun before after heq => ?_⟩
  cases before with
  | nil =>
    obtain ⟨rfl, rfl⟩ := List.cons.inj heq
    exact hopen rfl
  | cons d before => exact h.2 before after (List.cons.inj heq).2

/-- A character that belongs to no segment may stand in front. -/
theorem Laid.skip {cs : List Char} {segments : List Segment} {c : Char}
    (h : Laid cs segments) (hc : isDashedWord c = false)
    (hopen : c = '[' → Brackets.square.NeverCloses cs) :
    Laid (c :: cs) segments := by
  cases h with
  | gap hgap => exact .gap (hgap.cons hc (by simpa using hopen))
  | word hgap hne hbody hmark hrest =>
    exact .word (hgap.cons hc (by simpa using hopen)) hne hbody hmark hrest
  | group hgap hinner hrest =>
    exact .group (hgap.cons hc (by simpa using hopen)) hinner hrest

-- ================================================================ scan

/-- The scan passes over a separator. -/
theorem scan_separator {gap rest : List Char} (h : IsSeparator gap rest) :
    scan (gap ++ rest) = scan rest := by
  induction gap with
  | nil => rfl
  | cons c gap ih =>
    obtain ⟨hc, hgap⟩ := List.forall_mem_cons.1 h.1
    have ih := ih ⟨hgap, fun before after heq =>
      h.2 (c :: before) after (by rw [heq]; rfl)⟩
    rw [List.cons_append, scan]
    split
    · next hopen =>
      obtain rfl : c = '[' := by simpa using hopen
      have hnone := closeGroup_eq_none_iff.2 (h.2 [] gap rfl)
      split
      · next heq =>
        rw [hnone] at heq
        cases heq
      · exact ih
    · rw [dif_neg (by simp [hc])]
      exact ih

/-- The scan finds what is laid out. -/
theorem Laid.scan_eq {markup : List Char} {segments : List Segment}
    (h : Laid markup segments) : scan markup = segments := by
  induction h with
  | @gap gap hgap =>
    have hscan := scan_separator hgap
    rw [List.append_nil] at hscan
    rw [hscan, scan]
  | word hgap hne hbody hmark _ ih =>
    rw [List.append_assoc, scan_separator hgap, scan_word hne hbody hmark, ih]
  | @group gap inner rest _ hgap hinner _ ih =>
    have hshape : gap ++ ('[' :: inner ++ [']']) ++ rest =
        gap ++ ('[' :: inner ++ ']' :: rest) := by simp
    rw [hshape, scan_separator hgap,
      scan_group (closeGroup_balanced hinner rest), ih]

/-- A word reaches as far as it can. -/
theorem word_reaches (cs : List Char) :
    questionMark (cs.dropWhile isDashedWord) = ['?'] ∨
      questionMark (cs.dropWhile isDashedWord) = [] ∧
        ∀ c ∈ (dropWord cs).head?, isDashedWord c = false ∧ c ≠ '?' := by
  have hhead := List.head?_dropWhile_not isDashedWord cs
  unfold dropWord
  generalize cs.dropWhile isDashedWord = ds at hhead
  cases ds with
  | nil => exact Or.inr ⟨rfl, nofun⟩
  | cons d ds =>
    by_cases hd : d = '?'
    · subst hd
      exact Or.inl rfl
    · have hmark : questionMark (d :: ds) = [] := by simp [questionMark, hd]
      refine Or.inr ⟨hmark, fun c hc => ?_⟩
      dsimp only at hc
      rw [hmark] at hc
      obtain rfl : d = c := Option.some.inj hc
      exact ⟨hhead, hd⟩

/-- Markup is laid out as its scan says. -/
theorem laid_scan (markup : List Char) : Laid markup (scan markup) := by
  fun_induction scan markup with
  | case1 => exact .gap (isSeparator_nil [])
  | case2 c rest hc inner after hclose ih =>
    obtain rfl : c = '[' := by simpa using hc
    obtain ⟨rfl, hinner⟩ := closeGroup_eq_some_iff.1 hclose
    have h := Laid.group (isSeparator_nil _) hinner ih
    simpa using h
  | case3 c rest hc hclose ih =>
    obtain rfl : c = '[' := by simpa using hc
    exact ih.skip (by decide) fun _ => closeGroup_eq_none_iff.1 hclose
  | case4 c rest hc hword ih =>
    have hne : (c :: rest).takeWhile isDashedWord ≠ [] := by simp [hword]
    have h := Laid.word (isSeparator_nil _) hne
      (List.all_eq_true.1 List.all_takeWhile) (word_reaches (c :: rest)) ih
    rwa [List.nil_append, ← takeWord, takeWord_append_dropWord] at h
  | case5 c rest hc hword ih =>
    exact ih.skip (by simpa using hword) fun heq => absurd heq (by simpa using hc)

-- ============================================================= joining

/-- Segments with dots between them. -/
def dotted (segments : List Segment) : List Char :=
  ['.'].intercalate (segments.map chars)

/-- Behind a segment that others are joined to, there is nothing or a dot
that separates it from them. -/
theorem dotted_cons (segment : Segment) {later : List Segment}
    (h : Laid (dotted later) later) :
    ∃ rest, dotted (segment :: later) = segment.chars ++ rest ∧
      Laid rest later ∧ ∀ c ∈ rest.head?, c = '.' := by
  cases later with
  | nil =>
    refine ⟨[], ?_, .gap (isSeparator_nil []), nofun⟩
    simp [dotted, List.intercalate_singleton]
  | cons next later =>
    refine ⟨'.' :: dotted (next :: later), ?_, ?_, ?_⟩
    · simp [dotted, List.intercalate_cons_cons]
    · exact h.skip (by decide) nofun
    · exact fun c hc => (Option.some.inj hc).symm

/-- Segments that are laid out in some markup are laid out when they are
joined by dots. -/
theorem Laid.join {markup : List Char} {segments : List Segment}
    (h : Laid markup segments) : Laid (dotted segments) segments := by
  induction h with
  | gap => exact .gap (isSeparator_nil [])
  | @word gap body mark rest later _ hne hbody hmark _ ih =>
    obtain ⟨rest, heq, hrest, hdot⟩ := dotted_cons (.word (body ++ mark)) ih
    rw [heq]
    refine .word (isSeparator_nil _) hne hbody
      (hmark.imp_right fun hmark => ⟨hmark.1, fun c hc => ?_⟩) hrest
    rw [hdot c hc]
    decide
  | @group gap inner rest later _ hinner _ ih =>
    obtain ⟨rest, heq, hrest, -⟩ := dotted_cons (.group inner) ih
    rw [heq]
    exact .group (isSeparator_nil _) hinner hrest

/-- The scan of a path loses no name and finds only well-formed segments:
its segments stand in the markup in order, with separators around them,
they are the only ones that can be laid out so, and they are found again
when they are joined by dots. -/
theorem scan_partitions_path (markup : List Char) :
    Laid markup (scan markup) ∧
      (∀ segments, Laid markup segments → segments = scan markup) ∧
      scan (dotted (scan markup)) = scan markup :=
  ⟨laid_scan markup, fun _ h => h.scan_eq.symm,
    (laid_scan markup).join.scan_eq⟩

end Segment
end Stencil
