/-
How a source is cut: complete tags and outputs, and the stretches between
them.

`Chunk.split` goes through a source and keeps the text that it has passed.
`Cut` says what comes of it without going: the pieces make up the source;
a whole piece is a complete tag or output, which goes no further than the
first place where it can end; and no complete tag or output starts inside
a stretch, but one starts right behind it, or nothing is left. So the
stretches are as long as can be. Every source is cut in exactly one way,
and the chunks are the texts of its pieces.
-/
import Mathlib.Data.List.Basic
import Stencil.Template.Chunk

namespace Stencil

-- ============================================================= closings

namespace Chunk

/-- A text is read up to the first occurrence of the pair, which does not
start before its end. -/
theorem untilPair_append {a b : Char} {before after : List Char}
    (h : ¬[a, b] <:+: before ++ [a]) :
    untilPair a b (before ++ a :: b :: after) = some (before, after) := by
  induction before with
  | nil => simp [untilPair]
  | cons c before ih =>
    rw [List.cons_append, List.infix_cons_iff, not_or] at h
    obtain ⟨hhere, hlater⟩ := h
    have hrest := ih hlater
    cases before with
    | nil =>
      have hne : ¬(c = a ∧ a = b) := by
        rintro ⟨rfl, rfl⟩
        exact hhere (List.prefix_refl _)
      simp only [List.nil_append, List.cons_append] at hrest ⊢
      rw [untilPair, if_neg (by simpa using hne), hrest]
      rfl
    | cons d before =>
      have hne : ¬(c = a ∧ d = b) := by
        rintro ⟨rfl, rfl⟩
        exact hhere ⟨before ++ [c], rfl⟩
      simp only [List.cons_append] at hrest ⊢
      rw [untilPair, if_neg (by simpa using hne), hrest]
      rfl

/-- A pair that occurs is found. -/
theorem exists_untilPair (a b : Char) (before after : List Char) :
    ∃ r, untilPair a b (before ++ a :: b :: after) = some r := by
  induction before with
  | nil => exact ⟨([], after), by simp [untilPair]⟩
  | cons c before ih =>
    obtain ⟨r, hr⟩ := ih
    cases hrest : before ++ a :: b :: after with
    | nil => exact absurd hrest (by simp)
    | cons d rest =>
      rw [hrest] at hr
      rw [List.cons_append, hrest, untilPair]
      split
      · exact ⟨_, rfl⟩
      · exact ⟨_, by rw [hr]; rfl⟩

/-- The pair that a text is read up to is the first one. -/
theorem not_infix_of_untilPair {a b : Char} {cs before after : List Char}
    (h : untilPair a b cs = some (before, after)) :
    ¬[a, b] <:+: before ++ [a] := by
  fun_induction untilPair a b cs generalizing before after with
  | case1 => cases h
  | case2 => cases h
  | case3 c d rest hc =>
    cases h
    intro hin
    exact absurd hin.length_le (by simp)
  | case4 c d rest hc ih =>
    obtain ⟨⟨x, y⟩, hr, heq⟩ := Option.map_eq_some_iff.1 h
    cases heq
    have hsplit := eq_of_untilPair hr
    rw [List.cons_append, List.infix_cons_iff, not_or]
    refine ⟨?_, ih hr⟩
    rintro ⟨tail, htail⟩
    obtain ⟨hca, htail⟩ := List.cons_eq_cons.1 htail
    -- what was read after `c`, and the first of the pair, is not empty
    have hfront : d :: rest = b :: (tail ++ b :: y) := by
      rw [hsplit, List.append_cons, ← htail]
      rfl
    obtain ⟨hdb, -⟩ := List.cons_eq_cons.1 hfront
    exact hc (by simp [← hca, hdb])

-- =========================================================== delimited

/-- A complete tag or output: it ends where it first can. -/
inductive Delimited : List Char → Prop
  | tag {inner : List Char} : ¬['%', '}'] <:+: inner ++ ['%'] →
      Delimited ('{' :: '%' :: inner ++ ['%', '}'])
  | output {inner : List Char} : ¬['}', '}'] <:+: inner ++ ['}'] →
      Delimited ('{' :: '{' :: inner ++ ['}', '}'])

/-- A complete tag or output stands at the start of a text. -/
def Starts (cs : List Char) : Prop :=
  ∃ whole after, Delimited whole ∧ cs = whole ++ after

/-- What is found at the start of a text is complete. -/
theorem Delimited.of_delimited? {cs whole after : List Char}
    (h : delimited? cs = some (whole, after)) : Delimited whole := by
  unfold delimited? at h
  split at h
  · obtain ⟨⟨inner, rest⟩, hr, heq⟩ := Option.map_eq_some_iff.1 h
    cases heq
    exact .tag (not_infix_of_untilPair hr)
  · obtain ⟨⟨inner, rest⟩, hr, heq⟩ := Option.map_eq_some_iff.1 h
    cases heq
    exact .output (not_infix_of_untilPair hr)
  · cases h

/-- A complete tag or output at the start of a text is found. -/
theorem delimited?_append {whole : List Char} (h : Delimited whole)
    (after : List Char) :
    delimited? (whole ++ after) = some (whole, after) := by
  cases h with
  | @tag inner h =>
    simp only [List.cons_append, List.append_assoc, List.nil_append,
      delimited?, untilPair_append h, Option.map_some]
  | @output inner h =>
    simp only [List.cons_append, List.append_assoc, List.nil_append,
      delimited?, untilPair_append h, Option.map_some]

theorem starts_of_delimited? {cs whole after : List Char}
    (h : delimited? cs = some (whole, after)) : Starts cs :=
  ⟨whole, after, .of_delimited? h, (eq_of_delimited? h).1.symm⟩

theorem delimited?_eq_none_iff {cs : List Char} :
    delimited? cs = none ↔ ¬Starts cs := by
  constructor
  · rintro h ⟨whole, after, hwhole, rfl⟩
    rw [delimited?_append hwhole] at h
    cases h
  · intro h
    cases hfound : delimited? cs with
    | none => rfl
    | some r => exact absurd (starts_of_delimited? hfound) h

theorem Delimited.length_pos {whole : List Char} (h : Delimited whole) :
    0 < whole.length := by
  cases h <;> simp

theorem Delimited.ne_nil {whole : List Char} (h : Delimited whole) :
    whole ≠ [] :=
  List.length_pos_iff.1 h.length_pos

theorem not_starts_nil : ¬Starts [] := by
  rintro ⟨whole, after, hwhole, h⟩
  exact hwhole.ne_nil (List.append_eq_nil_iff.1 h.symm).1

-- ================================================================= cuts

/-- A piece of a source. -/
inductive Piece
  /-- A complete tag or output. -/
  | whole (text : List Char)
  /-- A stretch of text outside of them. -/
  | stretch (text : List Char)

/-- The characters of a piece. -/
def Piece.text : Piece → List Char
  | .whole text | .stretch text => text

/-- No complete tag or output starts inside a stretch, given what stands
behind it. -/
def Outside (stretch after : List Char) : Prop :=
  ∀ front back, stretch = front ++ back → back ≠ [] → ¬Starts (back ++ after)

/-- A source and its pieces. -/
inductive Cut : List Char → List Piece → Prop
  | nil : Cut [] []
  | whole {text after : List Char} {pieces : List Piece} :
      Delimited text → Cut after pieces →
      Cut (text ++ after) (.whole text :: pieces)
  | stretch {text after : List Char} {pieces : List Piece} :
      text ≠ [] → Outside text after → (after = [] ∨ Starts after) →
      Cut after pieces → Cut (text ++ after) (.stretch text :: pieces)

/-- The pieces make up the source. -/
theorem Cut.flatMap_text {cs : List Char} {pieces : List Piece}
    (h : Cut cs pieces) : pieces.flatMap Piece.text = cs := by
  induction h with
  | nil => rfl
  | whole _ _ ih => rw [List.flatMap_cons, ih]; rfl
  | stretch _ _ _ _ ih => rw [List.flatMap_cons, ih]; rfl

theorem Outside.tail {c : Char} {stretch after : List Char}
    (h : Outside (c :: stretch) after) : Outside stretch after :=
  fun front back heq => h (c :: front) back (heq ▸ rfl)

theorem Outside.not_starts {stretch after : List Char}
    (h : Outside stretch after) (hne : stretch ≠ []) :
    ¬Starts (stretch ++ after) :=
  h [] stretch rfl hne

/-- Nothing complete stands in a stretch in which nothing complete starts. -/
theorem Outside.not_infix {stretch after whole : List Char}
    (h : Outside stretch after) (hwhole : Delimited whole) :
    ¬whole <:+: stretch := by
  rintro ⟨front, back, rfl⟩
  refine h front (whole ++ back) (List.append_assoc ..)
    (List.append_ne_nil_of_left_ne_nil hwhole.ne_nil back) ?_
  exact ⟨whole, back ++ after, hwhole, List.append_assoc ..⟩

/-- A stretch goes on to the front as long as nothing starts there. -/
theorem Outside.cons {c : Char} {stretch after : List Char}
    (h : Outside stretch after) (hc : ¬Starts (c :: (stretch ++ after))) :
    Outside (c :: stretch) after := by
  intro front back heq hback
  cases front with
  | nil =>
    obtain rfl : back = c :: stretch := heq.symm
    exact hc
  | cons d front =>
    obtain ⟨-, heq⟩ := List.cons_eq_cons.1 heq
    exact h front back heq hback

/-- Every text is a stretch and then nothing, or something complete. -/
theorem exists_stretch (cs : List Char) :
    ∃ stretch after, cs = stretch ++ after ∧ Outside stretch after ∧
      (after = [] ∨ Starts after) := by
  induction cs with
  | nil =>
    refine ⟨[], [], rfl, ?_, Or.inl rfl⟩
    exact fun front back heq hback =>
      absurd (List.append_eq_nil_iff.1 heq.symm).2 hback
  | cons c cs ih =>
    by_cases hstarts : Starts (c :: cs)
    · refine ⟨[], c :: cs, rfl, ?_, Or.inr hstarts⟩
      exact fun front back heq hback =>
        absurd (List.append_eq_nil_iff.1 heq.symm).2 hback
    · obtain ⟨stretch, after, rfl, houtside, hafter⟩ := ih
      exact ⟨c :: stretch, after, rfl, houtside.cons hstarts, hafter⟩

/-- Every source can be cut. The induction is on its length: a stretch
ends where something complete starts, and that is not empty. -/
theorem exists_cut (cs : List Char) : ∃ pieces, Cut cs pieces := by
  induction hn : cs.length using Nat.strongRecOn generalizing cs with
  | ind n ih =>
    subst hn
    obtain ⟨stretch, after, rfl, houtside, hafter⟩ := exists_stretch cs
    have hrest : ∃ pieces, Cut after pieces := by
      rcases hafter with rfl | ⟨whole, rest, hwhole, rfl⟩
      · exact ⟨[], .nil⟩
      · have hpos := hwhole.length_pos
        have hshort : rest.length <
            (stretch ++ (whole ++ rest)).length := by
          simp only [List.length_append]
          omega
        obtain ⟨pieces, hpieces⟩ := ih _ hshort rest rfl
        exact ⟨_, .whole hwhole hpieces⟩
    obtain ⟨pieces, hpieces⟩ := hrest
    by_cases hnil : stretch = []
    · subst hnil
      exact ⟨pieces, hpieces⟩
    · exact ⟨_, .stretch hnil houtside hafter hpieces⟩

-- ============================================================= chunks

/-- Something complete ends the text before it. -/
theorem splitAfter_whole {whole : List Char} (h : Delimited whole)
    (text after : List Char) :
    splitAfter text (whole ++ after) =
      flush text ++ whole :: splitAfter [] after := by
  have hfound := delimited?_append h after
  cases whole with
  | nil => exact absurd rfl h.ne_nil
  | cons c whole =>
    rw [List.cons_append] at hfound ⊢
    rw [splitAfter]
    split
    · next w r hw =>
      obtain ⟨rfl, rfl⟩ := Prod.mk.inj (Option.some.inj (hw.symm.trans hfound))
      rfl
    · next hw => cases hw.symm.trans hfound

/-- A stretch is kept as text. -/
theorem splitAfter_stretch {stretch after : List Char}
    (h : Outside stretch after) (text : List Char) :
    splitAfter text (stretch ++ after) =
      splitAfter (stretch.reverse ++ text) after := by
  induction stretch generalizing text with
  | nil => rfl
  | cons c stretch ih =>
    have hnone := delimited?_eq_none_iff.2 (h.not_starts nofun)
    rw [List.cons_append] at hnone ⊢
    rw [splitAfter]
    split
    · next w r hw => cases hw.symm.trans hnone
    · rw [ih h.tail]
      simp

/-- The text read so far ends where nothing is left or something complete
starts. -/
theorem splitAfter_flush {after : List Char}
    (h : after = [] ∨ Starts after) (text : List Char) :
    splitAfter text after = flush text ++ splitAfter [] after := by
  rcases h with rfl | ⟨whole, rest, hwhole, rfl⟩
  · simp [splitAfter, flush]
  · rw [splitAfter_whole hwhole, splitAfter_whole hwhole]
    simp [flush]

/-- The chunks of a source are the texts of its pieces. -/
theorem splitAfter_of_cut {cs : List Char} {pieces : List Piece}
    (h : Cut cs pieces) : splitAfter [] cs = pieces.map Piece.text := by
  induction h with
  | nil => simp [splitAfter, flush]
  | whole hwhole _ ih =>
    rw [splitAfter_whole hwhole, ih]
    rfl
  | @stretch text after pieces hne houtside hafter _ ih =>
    have hflush : flush text.reverse = [text] := by
      simp [flush, hne]
    rw [splitAfter_stretch houtside, List.append_nil,
      splitAfter_flush hafter, ih, hflush]
    rfl

/-- The chunks of a source are the texts of its pieces. -/
theorem split_of_cut {source : String} {pieces : List Piece}
    (h : Cut source.toList pieces) :
    split source = pieces.map fun p => String.ofList p.text := by
  rw [split, splitAfter_of_cut h, List.map_map]
  rfl

/-- A source is cut in one way: the pieces have the same texts, as these
are the chunks, and nothing complete starts where a stretch does. -/
theorem Cut.unique {cs : List Char} {pieces others : List Piece}
    (h : Cut cs pieces) (h' : Cut cs others) : pieces = others := by
  generalize hds : cs = ds at h'
  induction h generalizing ds others with
  | nil =>
    cases h' with
    | nil => rfl
    | whole hwhole _ =>
      exact absurd ⟨_, _, hwhole, hds⟩ not_starts_nil
    | stretch hne _ _ _ =>
      exact absurd (List.append_eq_nil_iff.1 hds.symm).1 hne
  | @whole text after pieces hwhole hrest ih =>
    have htexts := splitAfter_of_cut (.whole hwhole hrest)
    cases h' with
    | nil => exact absurd ⟨_, _, hwhole, hds.symm⟩ not_starts_nil
    | whole hwhole' hrest' =>
      rw [hds, splitAfter_of_cut (.whole hwhole' hrest')] at htexts
      obtain ⟨heq, -⟩ := List.cons_eq_cons.1 htexts
      cases heq
      rw [ih _ (List.append_cancel_left hds) hrest']
    | stretch hne houtside _ _ =>
      exact absurd ⟨_, _, hwhole, hds.symm⟩ (houtside.not_starts hne)
  | @stretch text after pieces hne houtside hafter hrest ih =>
    have htexts := splitAfter_of_cut (.stretch hne houtside hafter hrest)
    cases h' with
    | nil => exact absurd (List.append_eq_nil_iff.1 hds).1 hne
    | whole hwhole _ =>
      exact absurd ⟨_, _, hwhole, hds⟩ (houtside.not_starts hne)
    | stretch hne' houtside' hafter' hrest' =>
      rw [hds, splitAfter_of_cut
        (.stretch hne' houtside' hafter' hrest')] at htexts
      obtain ⟨heq, -⟩ := List.cons_eq_cons.1 htexts
      cases heq
      rw [ih _ (List.append_cancel_left hds) hrest']

-- ============================================================= places

/-- A chunk stands in the source. -/
theorem infix_of_mem_split {source s : String} (h : s ∈ split source) :
    s.toList <:+: source.toList := by
  obtain ⟨pieces, hcut⟩ := exists_cut source.toList
  rw [split_of_cut hcut] at h
  obtain ⟨piece, hpiece, rfl⟩ := List.mem_map.1 h
  rw [String.toList_ofList, ← hcut.flatMap_text]
  exact List.infix_of_mem_flatten (List.mem_map_of_mem hpiece)

theorem prefix_dropLastTwo (cs : List Char) : dropLastTwo cs <+: cs :=
  (List.dropLast_prefix _).trans (List.dropLast_prefix _)

/-- The markup of a tag stands in the tag. -/
theorem infix_of_nameAndMarkup? {cs : List Char} {name markup : String}
    (h : nameAndMarkup? cs = some (name, markup)) :
    markup.toList <:+: cs := by
  unfold nameAndMarkup? at h
  split at h
  · dsimp only at h
    split at h
    · cases h
    · cases h
      rw [String.toList_ofList]
      have hmarkup := Text.infix_trim
        ((Text.trimLeft (dropLastTwo cs)).dropWhile Text.isWord)
      have hinner := hmarkup.trans (List.dropWhile_suffix _).isInfix
      have hbody := hinner.trans (List.dropWhile_suffix _).isInfix
      exact hbody.trans (prefix_dropLastTwo cs).isInfix
  · cases h

/-- The markup of a chunk, which outputs and tags have. -/
def markup? : Chunk → Option String
  | .output markup | .tag _ markup => some markup
  | .text _ | .broken _ => none

/-- The markup of a chunk stands in the chunk. -/
theorem infix_of_markup? {s markup : String}
    (h : (Chunk.ofString s).markup? = some markup) :
    markup.toList <:+: s.toList := by
  unfold Chunk.ofString at h
  split at h
  · next rest hs =>
    split at h
    · next hname =>
      cases h
      rw [hs]
      have hrest := infix_of_nameAndMarkup? hname
      exact hrest.trans (List.suffix_append ['{', '%'] rest).isInfix
    · cases h
  · next rest hs =>
    cases h
    rw [String.toList_ofList, hs]
    have hrest := (prefix_dropLastTwo rest).isInfix
    exact hrest.trans (List.suffix_append ['{', '{'] rest).isInfix
  · cases h

end Chunk

end Stencil
