/-
Segments: the pieces of a lenient path such as `a.b["c"][d].size`.

A segment is a word of dashed-word characters, which may end in a
question mark, or a bracket group. Brackets nest, and inside quotes they
do not count. Everything else only separates segments. A bracket that is
never closed separates too, and what follows it is scanned on its own.
-/
import Stencil.Text.Word

namespace Stencil

open Text

/-- A piece of a path. -/
inductive Segment
  /-- A word. -/
  | word (text : List Char)
  /-- A bracket group, by what stands inside. -/
  | group (inner : List Char)
  deriving DecidableEq, Repr

namespace Segment

/-- A segment as it stands in the markup. -/
def chars : Segment → List Char
  | .word text => text
  | .group inner => '[' :: inner ++ [']']

-- ============================================================= groups

/-- Where the scan of a group stands: in how many brackets, and inside
which quote. -/
structure Nesting where
  depth : Nat
  quote : Option Char
  deriving DecidableEq, Repr

/-- Inside one bracket and no quote. -/
def Nesting.start : Nesting := ⟨1, none⟩

/-- The nesting after a character that does not close the group. -/
def Nesting.next (n : Nesting) (c : Char) : Nesting :=
  match n.quote with
  | some q => if c == q then { n with quote := none } else n
  | none =>
    if c == '\'' || c == '"' then { n with quote := some c }
    else if c == '[' then { n with depth := n.depth + 1 }
    else if c == ']' then { n with depth := n.depth - 1 }
    else n

/-- Whether a character closes the group. -/
def Nesting.closes (n : Nesting) (c : Char) : Bool :=
  n.quote == none && c == ']' && n.depth == 1

/-- What stands in a group before the bracket that closes it, and what
follows that bracket. -/
def closeGroup : Nesting → List Char → Option (List Char × List Char)
  | _, [] => none
  | n, c :: rest =>
    if n.closes c then some ([], rest)
    else (closeGroup (n.next c) rest).map fun r => (c :: r.1, r.2)

/-- A group is what stands in it, the closing bracket and the rest. -/
theorem eq_of_closeGroup {n : Nesting} {cs inner rest : List Char}
    (h : closeGroup n cs = some (inner, rest)) :
    cs = inner ++ ']' :: rest := by
  induction cs generalizing n inner with
  | nil => simp [closeGroup] at h
  | cons c cs ih =>
    simp only [closeGroup] at h
    split at h
    · rename_i hc
      obtain ⟨rfl, rfl⟩ := Prod.mk.inj (Option.some.inj h)
      simp only [Nesting.closes, Bool.and_eq_true, beq_iff_eq] at hc
      simp [hc.1.2]
    · obtain ⟨⟨i, r⟩, hr, heq⟩ := Option.map_eq_some_iff.1 h
      obtain ⟨rfl, rfl⟩ := Prod.mk.inj heq
      simp [ih hr]

-- ============================================================== words

/-- The question mark that may end a word. -/
def questionMark : List Char → List Char
  | '?' :: _ => ['?']
  | _ => []

/-- The word that a text starts with: dashed-word characters and then
perhaps a question mark. -/
def takeWord (cs : List Char) : List Char :=
  cs.takeWhile isDashedWord ++ questionMark (cs.dropWhile isDashedWord)

/-- What follows the word that a text starts with. -/
def dropWord (cs : List Char) : List Char :=
  let rest := cs.dropWhile isDashedWord
  rest.drop (questionMark rest).length

theorem takeWord_append_dropWord (cs : List Char) :
    takeWord cs ++ dropWord cs = cs := by
  have h : questionMark (cs.dropWhile isDashedWord) ++
      (cs.dropWhile isDashedWord).drop
        (questionMark (cs.dropWhile isDashedWord)).length =
      cs.dropWhile isDashedWord := by
    cases hd : cs.dropWhile isDashedWord with
    | nil => simp [questionMark]
    | cons d ds => by_cases hq : d = '?' <;> simp [questionMark, hq]
  simp only [takeWord, dropWord, List.append_assoc, h]
  exact List.takeWhile_append_dropWhile

theorem takeWord_ne_nil {c : Char} {cs : List Char}
    (h : isDashedWord c = true) : takeWord (c :: cs) ≠ [] := by
  simp [takeWord, h]

theorem length_dropWord_le {c : Char} {cs : List Char}
    (h : isDashedWord c = true) : (dropWord (c :: cs)).length ≤ cs.length := by
  have h1 := congrArg List.length (takeWord_append_dropWord (c :: cs))
  have h2 : 0 < (takeWord (c :: cs)).length :=
    List.length_pos_iff.2 (takeWord_ne_nil h)
  simp only [List.length_append, List.length_cons] at h1
  omega

-- ============================================================== scan

/-- The segments of a path. -/
def scan : List Char → List Segment
  | [] => []
  | c :: rest =>
    if c == '[' then
      match _h : closeGroup .start rest with
      | some (inner, after) => .group inner :: scan after
      | none => scan rest
    else if _h : isDashedWord c then
      .word (takeWord (c :: rest)) :: scan (dropWord (c :: rest))
    else scan rest
termination_by cs => cs.length
decreasing_by
  · have := congrArg List.length (eq_of_closeGroup _h)
    simp only [List.length_append, List.length_cons] at *
    omega
  · simp
  · have : (dropWord (c :: rest)).length ≤ rest.length := length_dropWord_le _h
    simp only [List.length_cons]
    omega
  · simp

/-- The brackets that are never closed: for each, the text scanned since
the one before it, or since the start, and its place there. -/
def unclosed (origin : List Char) : List Char → List (Nat × List Char)
  | [] => []
  | c :: rest =>
    if c == '[' then
      match _h : closeGroup .start rest with
      | some (_, after) => unclosed origin after
      | none => (origin.length - (rest.length + 1), origin) :: unclosed rest rest
    else unclosed origin rest
termination_by cs => cs.length
decreasing_by
  · have := congrArg List.length (eq_of_closeGroup _h)
    simp only [List.length_append, List.length_cons] at *
    omega
  · simp
  · simp

-- ===================================================== groups shrink

/-- What stands in a group of a path is shorter than the path. -/
theorem length_group_lt {cs inner : List Char}
    (h : .group inner ∈ scan cs) : inner.length < cs.length := by
  fun_induction scan cs with
  | case1 => simp at h
  | case2 c rest hc i after hg ih =>
    have := congrArg List.length (eq_of_closeGroup hg)
    simp only [List.length_append, List.length_cons] at *
    rcases List.mem_cons.1 h with h | h
    · cases h; omega
    · have := ih h; omega
  | case3 c rest hc hg ih =>
    have := ih h
    simp only [List.length_cons]
    omega
  | case4 c rest hc hw ih =>
    rcases List.mem_cons.1 h with h | h
    · cases h
    · have := ih h
      have : (dropWord (c :: rest)).length ≤ rest.length := length_dropWord_le hw
      simp only [List.length_cons]
      omega
  | case5 c rest hc hw ih =>
    have := ih h
    simp only [List.length_cons]
    omega

end Segment
end Stencil
