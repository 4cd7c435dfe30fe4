/-
The chunks of a source, as any split of it that goes from left to right.

`Chunk.Splits` says of a list of chunks that they make up a source, that a
chunk which is no complete tag or output is a text with no text next to it,
and that nothing complete starts in a text, also not where it would end
behind it. This is all that leftmost and shortest can mean, and it speaks
of the chunks alone: nothing is said about how they are found, and texts
are told from the others by what they are.

Such a list is a cut (`Chunk.Cut`) whose pieces have lost their names, and
a cut has one way to be. So a source has one split, and it is the one that
`Chunk.split` finds.
-/
import Mathlib.Data.List.Chain
import Stencil.Proofs.Template.Cutting

namespace Stencil

namespace Chunk

-- =============================================================== splits

/-- A source taken apart from left to right into complete tags and outputs
and the texts between them. -/
structure Splits (source : String) (chunks : List String) : Prop where
  /-- Nothing is lost. -/
  joined : String.join chunks = source
  /-- No chunk is empty. -/
  nonempty : ∀ s ∈ chunks, s ≠ ""
  /-- No text stands next to a text. -/
  apart : chunks.IsChain fun s t => Delimited s.toList ∨ Delimited t.toList
  /-- Nothing complete starts in a text, given what stands behind it. -/
  leftmost : ∀ before s after, chunks = before ++ s :: after →
    Delimited s.toList ∨ Outside s.toList (String.join after).toList

theorem splits_nil : Splits "" [] :=
  ⟨rfl, nofun, .nil, by simp⟩

/-- A split is a first chunk and a split of what stands behind it. -/
theorem splits_cons_iff {source s : String} {chunks : List String} :
    Splits source (s :: chunks) ↔
      ∃ rest, source = s ++ rest ∧ s ≠ "" ∧
        (Delimited s.toList ∨ Outside s.toList rest.toList) ∧
        (∀ t ∈ chunks.head?, Delimited s.toList ∨ Delimited t.toList) ∧
        Splits rest chunks := by
  constructor
  · rintro ⟨rfl, hne, hapart, hleft⟩
    obtain ⟨hs, hchunks⟩ := List.forall_mem_cons.1 hne
    refine ⟨String.join chunks, String.join_cons, hs, hleft [] s chunks rfl,
      fun t ht => ?_, rfl, hchunks, hapart.tail, fun before t after heq =>
        hleft (s :: before) t after (congrArg (s :: ·) heq)⟩
    obtain ⟨later, rfl⟩ := List.head?_eq_some_iff.1 ht
    exact (List.isChain_cons_cons.1 hapart).1
  · rintro ⟨_, rfl, hs, hhead, hnext, rfl, hne, hapart, hleft⟩
    refine ⟨String.join_cons, List.forall_mem_cons.2 ⟨hs, hne⟩, ?_,
      fun before t after heq => ?_⟩
    · cases chunks with
      | nil => exact .singleton s
      | cons t later => exact List.isChain_cons_cons.2 ⟨hnext t rfl, hapart⟩
    · cases before with
      | nil =>
        obtain ⟨rfl, rfl⟩ := List.cons.inj heq
        exact hhead
      | cons b before =>
        exact hleft before t after (List.cons.inj heq).2

/-- In a cut, behind a stretch stands something complete, if anything. -/
theorem Cut.head_delimited {cs : List Char} {pieces : List Piece}
    (h : Cut cs pieces) (hcs : cs = [] ∨ Starts cs) :
    ∀ p ∈ pieces.head?, Delimited p.text := by
  cases h with
  | nil => exact nofun
  | whole hwhole _ =>
    rintro _ ⟨⟩
    exact hwhole
  | stretch hne houtside _ _ =>
    rcases hcs with hnil | hstarts
    · exact absurd (List.append_eq_nil_iff.1 hnil).1 hne
    · exact absurd hstarts (houtside.not_starts hne)

/-- The texts of the pieces of a cut are a split. -/
theorem Cut.splits {cs : List Char} {pieces : List Piece}
    (h : Cut cs pieces) :
    Splits (String.ofList cs) (pieces.map fun p => String.ofList p.text) := by
  induction h with
  | nil => exact splits_nil
  | @whole text after pieces hwhole _ ih =>
    have htext : Delimited (String.ofList text).toList := by
      rwa [String.toList_ofList]
    exact splits_cons_iff.2 ⟨_, String.ofList_append,
      fun hnil => hwhole.ne_nil (String.ofList_eq_empty_iff.1 hnil),
      Or.inl htext, fun _ _ => Or.inl htext, ih⟩
  | @stretch text after pieces hne houtside hafter hrest ih =>
    refine splits_cons_iff.2 ⟨_, String.ofList_append,
      fun hnil => hne (String.ofList_eq_empty_iff.1 hnil), Or.inr ?_,
      fun t ht => Or.inr ?_, ih⟩
    · rw [String.toList_ofList, String.toList_ofList]
      exact houtside
    · rw [List.head?_map] at ht
      obtain ⟨p, hp, rfl⟩ := Option.map_eq_some_iff.1 ht
      rw [String.toList_ofList]
      exact hrest.head_delimited hafter p hp

/-- A split that starts with something complete is of a source that does, if
there is any of it. -/
theorem Splits.starts {source : String} {chunks : List String}
    (h : Splits source chunks)
    (hhead : ∀ t ∈ chunks.head?, Delimited t.toList) :
    source.toList = [] ∨ Starts source.toList := by
  cases chunks with
  | nil =>
    obtain rfl : "" = source := h.joined
    exact Or.inl rfl
  | cons t chunks =>
    obtain ⟨rest, rfl, -⟩ := splits_cons_iff.1 h
    exact Or.inr ⟨_, _, hhead t rfl, String.toList_append⟩

/-- A split is the texts of the pieces of a cut. -/
theorem Splits.exists_cut {source : String} {chunks : List String}
    (h : Splits source chunks) :
    ∃ pieces, Cut source.toList pieces ∧
      chunks = pieces.map fun p => String.ofList p.text := by
  induction chunks generalizing source with
  | nil =>
    obtain rfl : "" = source := h.joined
    exact ⟨[], .nil, rfl⟩
  | cons s chunks ih =>
    obtain ⟨rest, rfl, hne, hhead, hnext, hrest⟩ := splits_cons_iff.1 h
    obtain ⟨pieces, hcut, rfl⟩ := ih hrest
    rw [String.toList_append]
    by_cases hs : Delimited s.toList
    · exact ⟨_, .whole hs hcut, by simp [Piece.text]⟩
    · have htext : s.toList ≠ [] := fun hnil =>
        hne (String.toList_eq_nil_iff.1 hnil)
      have hafter := hrest.starts fun t ht => (hnext t ht).resolve_left hs
      exact ⟨_, .stretch htext (hhead.resolve_left hs) hafter hcut,
        by simp [Piece.text]⟩

/-- The chunks of a source are a split of it, each of them is a complete
tag or output or a text that contains none, and no other split of the
source goes from left to right. -/
theorem split_canonical (source : String) :
    Splits source (split source) ∧
      (∀ s ∈ split source, Delimited s.toList ∨
        ∀ whole, Delimited whole → ¬whole <:+: s.toList) ∧
      ∀ chunks, Splits source chunks → chunks = split source := by
  obtain ⟨pieces, hcut⟩ := exists_cut source.toList
  have hsplits : Splits source (split source) := by
    have h := hcut.splits
    rwa [String.ofList_toList, ← split_of_cut hcut] at h
  refine ⟨hsplits, fun s hs => ?_, fun chunks h => ?_⟩
  · obtain ⟨before, after, heq⟩ := List.append_of_mem hs
    exact (hsplits.leftmost before s after heq).imp_right
      fun houtside _ hwhole => houtside.not_infix hwhole
  · obtain ⟨others, hothers, rfl⟩ := h.exists_cut
    exact (split_of_cut hothers).symm

/-- An output holds the tag that starts in it, and an end that nothing has
opened is text, like an opening that shares its sign with an end. -/
example : split "a\x7b \x7b\x7b {% b %} \x7d\x7d %\x7d\x7b%\x7d" =
    ["a\x7b ", "\x7b\x7b {% b %} \x7d\x7d", " %\x7d\x7b%\x7d"] := by
  decide +kernel

end Chunk
end Stencil
