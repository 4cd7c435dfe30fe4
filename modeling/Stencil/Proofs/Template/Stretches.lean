/-
What becomes of the text outside complete tags and outputs.

A source is cut into complete tags and outputs and the stretches between
them (`Chunk.Cut`). The body takes a chunk for what it starts like,
without asking whether it is complete. So a stretch that starts like
neither a tag nor an output is kept as a text of exactly its characters,
and one that starts like a tag ends the reading, as it can be none. But a
stretch that starts like an output is taken for one, and its last two
characters are dropped, although they close nothing.

`Kept` says for each piece how the tree tells it. The tree is the one
before the blocks in it were closed: closing a blank block drops the
blank texts directly in it, and nothing else.
-/
import Stencil.Proofs.Template.Cutting
import Stencil.Proofs.Template.Warnings

namespace Stencil

open Chunk

-- ============================================================== pieces

/-- How a tree tells a piece of its source. -/
inductive Kept : Piece → Mark → Prop
  /-- A complete output is told by what stands between the braces. -/
  | output {inner : List Char} {e : Expr} :
      Kept (.whole ('{' :: '{' :: inner ++ ['}', '}']))
        (.output (String.ofList inner) e)
  /-- A complete tag is told by its name. -/
  | tag {text : List Char} {name markup : String}
      {condition : Option Condition} :
      Chunk.ofString (String.ofList text) = .tag name markup →
      Kept (.whole text) (.tag name condition)
  /-- A stretch that starts like nothing else is told as it is. -/
  | text {text : List Char} : ¬['{', '%'] <+: text → ¬['{', '{'] <+: text →
      Kept (.stretch text) (.text (String.ofList text))
  /-- A stretch that starts like an output is told as an output, of which
  the last two characters are missing. -/
  | unclosed {rest : List Char} {e : Expr} :
      Kept (.stretch ('{' :: '{' :: rest))
        (.output (String.ofList (dropLastTwo rest)) e)

/-- A text without a closing brace is one stretch. -/
theorem Chunk.cut_of_not_mem {cs : List Char} (hne : cs ≠ [])
    (h : '}' ∉ cs) : Cut cs [.stretch cs] := by
  have houtside : Outside cs [] := by
    rintro front back rfl - ⟨whole, after, hwhole, hback⟩
    refine h (List.mem_append_right _ ?_)
    rw [← List.append_nil back, hback]
    refine List.mem_append_left _ ?_
    cases hwhole <;> simp
  have hcut := Cut.stretch hne houtside (Or.inl rfl) .nil
  rwa [List.append_nil] at hcut

/-- A piece of a source as it stands there: nothing complete starts where
a stretch does. -/
def Chunk.Piece.Stands : Piece → Prop
  | .whole text => Delimited text
  | .stretch text => ¬Starts text

/-- A complete tag or output in a text is one in every longer text. -/
theorem Chunk.Starts.append {cs : List Char} (h : Starts cs)
    (after : List Char) : Starts (cs ++ after) := by
  obtain ⟨whole, rest, hwhole, rfl⟩ := h
  exact ⟨whole, rest ++ after, hwhole, List.append_assoc ..⟩

theorem Chunk.Cut.stands {cs : List Char} {pieces : List Piece}
    (h : Cut cs pieces) : ∀ piece ∈ pieces, piece.Stands := by
  induction h with
  | nil => exact fun _ h => nomatch h
  | whole hwhole _ ih => exact List.forall_mem_cons.2 ⟨hwhole, ih⟩
  | @stretch text after _ hne houtside _ _ ih =>
    refine List.forall_mem_cons.2 ⟨fun hstarts => ?_, ih⟩
    exact houtside.not_starts hne (hstarts.append after)

/-- What starts like a tag and ends like one holds a complete tag. -/
theorem Chunk.starts_of_nameAndMarkup? {rest : List Char}
    {r : String × String} (h : nameAndMarkup? rest = some r) :
    Starts ('{' :: '%' :: rest) := by
  unfold nameAndMarkup? at h
  split at h
  · next hend =>
    simp only [Bool.and_eq_true, beq_iff_eq] at hend
    have hsplit := List.take_append_drop (rest.length - 2) rest
    rw [hend.2] at hsplit
    obtain ⟨⟨inner, after⟩, hfound⟩ :=
      exists_untilPair '%' '}' (rest.take (rest.length - 2)) []
    rw [hsplit] at hfound
    have hdelimited : delimited? ('{' :: '%' :: rest) =
        some ('{' :: '%' :: inner ++ ['%', '}'], after) := by
      rw [delimited?, hfound]
      rfl
    exact starts_of_delimited? hdelimited
  · cases h

/-- What starts like a tag is one, or is broken. -/
theorem Chunk.ofString_tag (rest : List Char) :
    (∃ name markup, nameAndMarkup? rest = some (name, markup) ∧
      Chunk.ofString (String.ofList ('{' :: '%' :: rest)) =
        .tag name markup) ∨
    ∃ s, Chunk.ofString (String.ofList ('{' :: '%' :: rest)) =
      .broken s := by
  simp only [Chunk.ofString, String.toList_ofList]
  cases hname : nameAndMarkup? rest with
  | none => exact Or.inr ⟨_, rfl⟩
  | some r => exact Or.inl ⟨r.1, r.2, rfl, rfl⟩

/-- What starts like an output is one, without two characters at each
end. -/
theorem Chunk.ofString_opened (rest : List Char) :
    Chunk.ofString (String.ofList ('{' :: '{' :: rest)) =
      .output (String.ofList (dropLastTwo rest)) := by
  simp only [Chunk.ofString, String.toList_ofList]

/-- Anything else is a text. -/
theorem Chunk.ofString_other {text : List Char} (htag : ¬['{', '%'] <+: text)
    (houtput : ¬['{', '{'] <+: text) :
    Chunk.ofString (String.ofList text) = .text (String.ofList text) := by
  unfold Chunk.ofString
  rw [String.toList_ofList]
  split
  · exact absurd ⟨_, rfl⟩ htag
  · exact absurd ⟨_, rfl⟩ houtput
  · rfl

-- ================================================================ marks

section

variable {tags : Registry} {r r' : Reading} {mark : Mark}

/-- A complete tag or output is told as one. -/
theorem Leaves.kept_whole {text : List Char} (htext : Delimited text)
    (h : Leaves tags r (.ofString (String.ofList text)) mark r') :
    Kept (.whole text) mark := by
  cases htext with
  | @tag inner _ =>
    rcases Chunk.ofString_tag (inner ++ ['%', '}']) with
      ⟨name, markup, -, hchunk⟩ | ⟨s, hchunk⟩
    · change Chunk.ofString (String.ofList ('{' :: '%' :: inner ++ _)) = _
        at hchunk
      rw [hchunk] at h
      cases h with
      | condition => exact .tag hchunk
      | bare => exact .tag hchunk
    · change Chunk.ofString (String.ofList ('{' :: '%' :: inner ++ _)) = _
        at hchunk
      rw [hchunk] at h
      cases h
  | @output inner _ =>
    have hchunk := Chunk.ofString_opened (inner ++ ['}', '}'])
    have hinner : dropLastTwo (inner ++ ['}', '}']) = inner := by
      simp [dropLastTwo]
    rw [hinner] at hchunk
    change Leaves tags r (Chunk.ofString (String.ofList
      ('{' :: '{' :: (inner ++ ['}', '}'])))) mark r' at h
    rw [hchunk] at h
    cases h
    exact .output

/-- A stretch is told as a text or, if it starts like one, as an
output. -/
theorem Leaves.kept_stretch {text : List Char} (htext : ¬Starts text)
    (h : Leaves tags r (.ofString (String.ofList text)) mark r') :
    Kept (.stretch text) mark := by
  by_cases htag : ['{', '%'] <+: text
  · obtain ⟨rest, rfl⟩ := htag
    rcases Chunk.ofString_tag rest with ⟨name, markup, hname, -⟩ | ⟨s, hs⟩
    · exact absurd (starts_of_nameAndMarkup? hname) htext
    · change Leaves tags r (Chunk.ofString (String.ofList
        ('{' :: '%' :: rest))) mark r' at h
      rw [hs] at h
      cases h
  · by_cases houtput : ['{', '{'] <+: text
    · obtain ⟨rest, rfl⟩ := houtput
      change Leaves tags r (Chunk.ofString (String.ofList
        ('{' :: '{' :: rest))) mark r' at h
      rw [Chunk.ofString_opened] at h
      cases h
      exact .unclosed
    · rw [Chunk.ofString_other htag houtput] at h
      cases h
      exact .text htag houtput

/-- A chunk that leaves a mark is kept as its piece says. -/
theorem Leaves.kept {piece : Piece} (hpiece : piece.Stands)
    (h : Leaves tags r (.ofString (String.ofList piece.text)) mark r') :
    Kept piece mark := by
  cases piece with
  | whole text => exact h.kept_whole hpiece
  | stretch text => exact h.kept_stretch hpiece

/-- Pieces that are read to the end are kept, in the order they stand
in. -/
theorem readFrom_kept {pieces : List Piece}
    (hpieces : ∀ piece ∈ pieces, piece.Stands) (b : Builder)
    {outcome : Body.Outcome}
    (h : Body.readFrom tags (pieces.map fun p => String.ofList p.text)
      b.strip r = (outcome, r'))
    (hdone : outcome.result = .ok none) :
    ∃ nodes marks, outcome.nodes = Node.stripAll nodes ∧
      Node.allMarks nodes = b.marks ++ marks ∧
      List.Forall₂ Kept pieces marks := by
  obtain ⟨nodes, marks, hnodes, htold, hall⟩ := readFrom_leaves b h hdone
  have hleft := List.forall₂_map_left_iff.1 hall.forall₂
  have hstands := (List.forall₂_and_left _ _).2 ⟨hpieces, hleft⟩
  exact ⟨nodes, marks, hnodes, htold,
    hstands.imp fun _ _ ⟨hpiece, _, _, hleaves⟩ => hleaves.kept hpiece⟩

end

-- ============================================================ templates

namespace Template

/-- A source is cut in one way into complete tags and outputs and the
stretches between them, and a template that is read from it keeps all
pieces in their order: a stretch is a text of exactly its characters,
unless it starts like a tag, and then there is no template, or like an
output, and then it is an output without its last two characters. -/
theorem parse_keeps_pieces (tags : Registry) (mode : Mode)
    (source : String) (journal : Journal) {template : Template}
    (h : (parse tags mode source journal).1 = .ok template) :
    ∃ pieces nodes,
      (∀ others, Cut source.toList others ↔ others = pieces) ∧
      template.nodes = Node.stripAll nodes ∧
      List.Forall₂ Kept pieces (Node.allMarks nodes) := by
  obtain ⟨pieces, hcut⟩ := exists_cut source.toList
  obtain ⟨outcome, r', hrun, hdone, rfl⟩ := read_eq_ok h
  rw [split_of_cut hcut] at hrun
  obtain ⟨nodes, marks, hnodes, htold, hall⟩ :=
    readFrom_kept hcut.stands (.ofNodes []) hrun hdone
  obtain rfl : Node.allMarks nodes = marks := htold
  refine ⟨pieces, nodes, fun others => ?_, hnodes, hall⟩
  constructor
  · exact fun hothers => hothers.unique hcut
  · rintro rfl
    exact hcut

/-- A lone brace and the end of a tag that has none are text. -/
theorem parse_keeps_pieces_braces :
    ∃ template pieces nodes,
      (parse .standard .lax "a \x7b b{% if c %}%\x7d {{ d }}{% endif %}"
        (.fresh false)).1 = .ok template ∧
      (∀ others, Cut "a \x7b b{% if c %}%\x7d {{ d }}{% endif %}".toList
        others ↔ others = pieces) ∧
      template.nodes = Node.stripAll nodes ∧
      List.Forall₂ Kept pieces (Node.allMarks nodes) := by
  have hlax : (match (parse .standard .lax
      "a \x7b b{% if c %}%\x7d {{ d }}{% endif %}" (.fresh false)).1 with
    | .ok _ => true
    | .error _ => false) = true := by decide +kernel
  split at hlax
  · next template htemplate =>
    obtain ⟨pieces, nodes, hpieces, hnodes, hall⟩ :=
      parse_keeps_pieces .standard .lax _ (.fresh false) htemplate
    exact ⟨template, pieces, nodes, htemplate, hpieces, hnodes, hall⟩
  · cases hlax

/-- Not every stretch is kept as it is. Nothing closes this output, yet it
becomes one, and of the name in it only the first half is left. -/
theorem exists_parse_unclosed :
    Cut "\x7b\x7b name".toList [.stretch "\x7b\x7b name".toList] ∧
      ∃ template,
        (parse .standard .strict "\x7b\x7b name" (.fresh false)).1 =
          .ok template ∧
        template.nodes.map Node.display = ["Variable(na)"] := by
  refine ⟨cut_of_not_mem (by decide) (by decide), ?_⟩
  have hnodes : (match (parse .standard .strict "\x7b\x7b name"
      (.fresh false)).1 with
    | .ok t => decide (t.nodes.map Node.display = ["Variable(na)"])
    | .error _ => false) = true := by decide +kernel
  split at hnodes
  · next template h => exact ⟨template, h, of_decide_eq_true hnodes⟩
  · cases hnodes

end Template

end Stencil
