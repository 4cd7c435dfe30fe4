/-
Chunks: a template source cut at its complete tags and outputs.

A tag reaches from `{%` to the next `%}`, an output from two opening
braces to the next two closing ones. What lies between them is text, in
stretches as long as can be.
-/
import Stencil.Text.Class
import Stencil.Text.Word

namespace Stencil

open Text

namespace Chunk

-- =============================================================== split

/-- What stands before the first occurrence of a pair of characters, and
what stands behind it. -/
def untilPair (a b : Char) : List Char → Option (List Char × List Char)
  | [] => none
  | [_] => none
  | c :: d :: rest =>
    if c == a && d == b then some ([], rest)
    else (untilPair a b (d :: rest)).map fun r => (c :: r.1, r.2)

/-- A text is what stands before the pair, the pair, and the rest. -/
theorem eq_of_untilPair {a b : Char} {cs before after : List Char}
    (h : untilPair a b cs = some (before, after)) :
    cs = before ++ a :: b :: after := by
  fun_induction untilPair a b cs generalizing before after with
  | case1 => cases h
  | case2 => cases h
  | case3 c d rest hc =>
    cases h
    simp only [Bool.and_eq_true, beq_iff_eq] at hc
    simp [hc.1, hc.2]
  | case4 c d rest hc ih =>
    obtain ⟨⟨x, y⟩, hr, heq⟩ := Option.map_eq_some_iff.1 h
    cases heq
    simp [ih hr]

/-- The complete tag or output that a text starts with, and the rest. -/
def delimited? : List Char → Option (List Char × List Char)
  | '{' :: '%' :: rest =>
    (untilPair '%' '}' rest).map fun r =>
      ('{' :: '%' :: r.1 ++ ['%', '}'], r.2)
  | '{' :: '{' :: rest =>
    (untilPair '}' '}' rest).map fun r =>
      ('{' :: '{' :: r.1 ++ ['}', '}'], r.2)
  | _ => none

/-- A complete tag or output and the rest make up the text. -/
theorem eq_of_delimited? {cs whole after : List Char}
    (h : delimited? cs = some (whole, after)) :
    whole ++ after = cs ∧ 4 ≤ whole.length := by
  unfold delimited? at h
  split at h
  · obtain ⟨⟨x, y⟩, hr, heq⟩ := Option.map_eq_some_iff.1 h
    cases heq
    simp [eq_of_untilPair hr]
  · obtain ⟨⟨x, y⟩, hr, heq⟩ := Option.map_eq_some_iff.1 h
    cases heq
    simp [eq_of_untilPair hr]
  · cases h

/-- The stretch of text read so far, unless it is empty. -/
def flush (text : List Char) : List (List Char) :=
  if text.isEmpty then [] else [text.reverse]

/-- The chunks of a source, after a stretch of text given backwards. -/
def splitAfter (text : List Char) : List Char → List (List Char)
  | [] => flush text
  | c :: rest =>
    match _h : delimited? (c :: rest) with
    | some (whole, after) => flush text ++ whole :: splitAfter [] after
    | none => splitAfter (c :: text) rest
termination_by cs => cs.length
decreasing_by
  · obtain ⟨heq, hlen⟩ := eq_of_delimited? _h
    have := congrArg List.length heq
    simp only [List.length_append] at this
    omega
  · simp

/-- The chunks of a source. -/
def split (source : String) : List String :=
  (splitAfter [] source.toList).map String.ofList

end Chunk

-- ============================================================= meaning

/-- What a chunk is. -/
inductive Chunk
  /-- Text that is written as it is. -/
  | text (text : String)
  /-- An output, by its markup. -/
  | output (markup : String)
  /-- A tag, by its name and its markup. -/
  | tag (name markup : String)
  /-- Something that starts like a tag and is none. -/
  | broken (text : String)
  deriving DecidableEq, Repr

namespace Chunk

/-- A text without its last two characters. -/
def dropLastTwo (cs : List Char) : List Char := cs.dropLast.dropLast

/-- The name and the markup of a tag, given what follows its opening. The
name is a word, and blanks around name and markup do not count. -/
def nameAndMarkup? (cs : List Char) : Option (String × String) :=
  if cs.length ≥ 2 && cs.drop (cs.length - 2) == ['%', '}'] then
    let inner := trimLeft (dropLastTwo cs)
    let name := inner.takeWhile isWord
    if name.isEmpty then none
    else some (String.ofList name,
      String.ofList (trim (inner.dropWhile isWord)))
  else none

/-- What a chunk is, by how it starts. Whatever starts like an output is
one: its markup is what is left without two characters at each end. -/
def ofString (s : String) : Chunk :=
  match s.toList with
  | '{' :: '%' :: rest =>
    match nameAndMarkup? rest with
    | some (name, markup) => .tag name markup
    | none => .broken s
  | '{' :: '{' :: rest => .output (String.ofList (dropLastTwo rest))
  | _ => .text s

end Chunk
end Stencil
