/-
Well-nested chunks: the grammar of templates, and the stack that
recognises it.

A body is made of texts, outputs and blocks. A block starts with its
opening tag, goes on with bodies that `elsif` tags and at most one `else`
tag separate, the `else` tag being the last of them, and ends with the
tag named after it. `Nested` says this the way a grammar does, with one
constructor for each production.

A reader cannot ask where a block will end. It goes from chunk to chunk
and keeps the blocks that are open, the innermost first, and `follow` is
what one chunk does to them. Both agree: what a part of the grammar
derives takes the stack exactly to where the part ends, and a stack that
runs empty has left a derivation behind, because `Closes` describes what
the open blocks still ask of the chunks to come and every step passes it
back to the stack before.
-/
import Stencil.Template.Body

namespace Stencil

-- ============================================================= grammar

/-- The names of tags that open a block. -/
def OpensBlock (name : String) : Prop := name = "if" ∨ name = "unless"

instance (name : String) : Decidable (OpensBlock name) :=
  inferInstanceAs (Decidable (_ ∨ _))

/-- A block that is open: its name, and whether its `else` tag has been
passed. -/
structure Opened where
  name : String
  last : Bool
  deriving DecidableEq, Repr

/-- The parts of a template. -/
inductive Part
  /-- Texts, outputs and blocks. -/
  | body
  /-- What an open block goes on with, up to its closing tag. -/
  | rest (block : Opened)

/-- The chunks that a part of a template derives. The markup of closing
tags and of `else` tags does not matter. -/
inductive Nested : Part → List Chunk → Prop
  | nil : Nested .body []
  | text {s : String} {cs : List Chunk} :
      Nested .body cs → Nested .body (.text s :: cs)
  | output {markup : String} {cs : List Chunk} :
      Nested .body cs → Nested .body (.output markup :: cs)
  | block {name markup : String} {cs ds : List Chunk} :
      OpensBlock name → Nested (.rest ⟨name, false⟩) cs →
      Nested .body ds → Nested .body (.tag name markup :: cs ++ ds)
  | close {name markup : String} {last : Bool} {cs : List Chunk} :
      Nested .body cs →
      Nested (.rest ⟨name, last⟩) (cs ++ [.tag (closingTag name) markup])
  | elsif {name markup : String} {cs ds : List Chunk} :
      Nested .body cs → Nested (.rest ⟨name, false⟩) ds →
      Nested (.rest ⟨name, false⟩) (cs ++ .tag elsifTag markup :: ds)
  | otherwise {name markup : String} {cs ds : List Chunk} :
      Nested .body cs → Nested (.rest ⟨name, true⟩) ds →
      Nested (.rest ⟨name, false⟩) (cs ++ .tag elseTag markup :: ds)

-- =============================================================== stack

/-- The blocks that are open after a chunk, if it has a place there. -/
def follow : List Opened → Chunk → Option (List Opened)
  | stack, .text _ => some stack
  | stack, .output _ => some stack
  | _, .broken _ => none
  | stack, .tag name _ =>
    if OpensBlock name then some (⟨name, false⟩ :: stack)
    else
      match stack with
      | [] => none
      | block :: outer =>
        if name = closingTag block.name then some outer
        else if (name = elsifTag ∨ name = elseTag) ∧ block.last = false then
          some (⟨block.name, name == elseTag⟩ :: outer)
        else none

/-- A closing tag opens no block, and no branch of one. -/
theorem closingTag_special (name : String) :
    ¬OpensBlock (closingTag name) ∧ elsifTag ≠ closingTag name ∧
      elseTag ≠ closingTag name := by
  have hlist : (closingTag name).toList = 'e' :: 'n' :: 'd' :: name.toList := by
    simp [closingTag]
  refine ⟨?_, ?_, ?_⟩
  · rintro (h | h)
    · rw [h] at hlist
      exact absurd hlist (by simp)
    · rw [h] at hlist
      exact absurd hlist (by simp)
  · intro h
    rw [← h] at hlist
    exact absurd hlist (by simp [elsifTag])
  · intro h
    rw [← h] at hlist
    exact absurd hlist (by simp [elseTag])

/-- The tags that start a branch open no block. -/
theorem branchTag_special : ¬OpensBlock elsifTag ∧ ¬OpensBlock elseTag := by
  decide

section

variable {stack outer : List Opened} {name markup : String} {last : Bool}

/-- An opening tag puts its block on the stack. -/
theorem follow_opening (h : OpensBlock name) :
    follow stack (.tag name markup) = some (⟨name, false⟩ :: stack) :=
  if_pos h

/-- The tag named after the innermost block takes it off the stack. -/
theorem follow_closing :
    follow (⟨name, last⟩ :: outer) (.tag (closingTag name) markup) =
      some outer := by
  obtain ⟨hopen, -, -⟩ := closingTag_special name
  simp [follow, hopen]

/-- Before its `else` tag a block admits another condition. -/
theorem follow_elsif :
    follow (⟨name, false⟩ :: outer) (.tag elsifTag markup) =
      some (⟨name, false⟩ :: outer) := by
  obtain ⟨-, hne, -⟩ := closingTag_special name
  simp [follow, branchTag_special, hne, show elsifTag ≠ elseTag by decide]

/-- A block admits one `else` tag. -/
theorem follow_else :
    follow (⟨name, false⟩ :: outer) (.tag elseTag markup) =
      some (⟨name, true⟩ :: outer) := by
  obtain ⟨-, -, hne⟩ := closingTag_special name
  simp [follow, branchTag_special, hne]

end

-- ======================================================== completeness

/-- The open blocks where a part starts, given those where it ends. -/
def Part.enter : Part → List Opened → List Opened
  | .body, stack => stack
  | .rest block, stack => block :: stack

/-- What a part derives leads the stack to where the part ends, whatever
comes after it. -/
theorem Nested.foldlM_follow {part : Part} {cs : List Chunk}
    (h : Nested part cs) (stack : List Opened) (more : List Chunk) :
    (cs ++ more).foldlM follow (part.enter stack) =
      more.foldlM follow stack := by
  induction h generalizing stack more with
  | nil => rfl
  | text _ ih => exact ih stack more
  | output _ ih => exact ih stack more
  | @block name markup cs ds hopen _ _ ihc ihd =>
    simp only [List.cons_append, List.append_assoc, List.foldlM_cons,
      follow_opening hopen, Option.bind_eq_bind, Option.bind_some]
    exact (ihc stack (ds ++ more)).trans (ihd stack more)
  | @close name markup last cs _ ih =>
    rw [List.append_assoc]
    refine (ih (⟨name, last⟩ :: stack) _).trans ?_
    simp only [List.cons_append, List.nil_append, List.foldlM_cons,
      follow_closing, Option.bind_eq_bind, Option.bind_some]
  | @elsif name markup cs ds _ _ ihc ihd =>
    rw [List.append_assoc]
    refine (ihc (⟨name, false⟩ :: stack) _).trans ?_
    simp only [List.cons_append, List.foldlM_cons, follow_elsif,
      Option.bind_eq_bind, Option.bind_some]
    exact ihd stack more
  | @otherwise name markup cs ds _ _ ihc ihd =>
    rw [List.append_assoc]
    refine (ihc (⟨name, false⟩ :: stack) _).trans ?_
    simp only [List.cons_append, List.foldlM_cons, follow_else,
      Option.bind_eq_bind, Option.bind_some]
    exact ihd stack more

-- =========================================================== soundness

/-- What the open blocks still ask of the chunks to come. -/
def Closes : List Opened → List Chunk → Prop
  | [], cs => Nested .body cs
  | block :: outer, cs =>
    ∃ ds es, cs = ds ++ es ∧ Nested (.rest block) ds ∧ Closes outer es

/-- What may stand at the start of a body may stand at the start of any
part. -/
theorem Nested.prepend (item : List Chunk)
    (hitem : ∀ cs, Nested .body cs → Nested .body (item ++ cs))
    {part : Part} {cs : List Chunk} (h : Nested part cs) :
    Nested part (item ++ cs) := by
  cases h with
  | nil => exact hitem _ .nil
  | text h => exact hitem _ (.text h)
  | output h => exact hitem _ (.output h)
  | block hopen hc hd => exact hitem _ (.block hopen hc hd)
  | close h =>
    rw [← List.append_assoc]
    exact .close (hitem _ h)
  | elsif hc hd =>
    rw [← List.append_assoc]
    exact .elsif (hitem _ hc) hd
  | otherwise hc hd =>
    rw [← List.append_assoc]
    exact .otherwise (hitem _ hc) hd

/-- What may stand at the start of a body may come next, whatever blocks
are open. -/
theorem Closes.prepend (item : List Chunk)
    (hitem : ∀ cs, Nested .body cs → Nested .body (item ++ cs))
    {stack : List Opened} {cs : List Chunk} (h : Closes stack cs) :
    Closes stack (item ++ cs) := by
  cases stack with
  | nil => exact hitem cs h
  | cons block outer =>
    obtain ⟨ds, es, rfl, hd, he⟩ := h
    exact ⟨item ++ ds, es, (List.append_assoc ..).symm, hd.prepend item hitem, he⟩

/-- A chunk that has a place among the open blocks stands before all that
the blocks open after it may go on with. -/
theorem Closes.cons {stack stack' : List Opened} {c : Chunk}
    {cs : List Chunk} (hc : follow stack c = some stack')
    (h : Closes stack' cs) : Closes stack (c :: cs) := by
  cases c with
  | text s =>
    cases hc
    exact h.prepend [.text s] fun _ => .text
  | output markup =>
    cases hc
    exact h.prepend [.output markup] fun _ => .output
  | broken s => cases hc
  | tag name markup =>
    simp only [follow] at hc
    split at hc
    · next hopen =>
      cases hc
      obtain ⟨ds, es, rfl, hd, he⟩ := h
      exact he.prepend (.tag name markup :: ds) fun _ => .block hopen hd
    · split at hc
      · cases hc
      · next block outer =>
        obtain ⟨opener, last⟩ := block
        split at hc
        · next hname =>
          cases hc
          subst hname
          exact ⟨[_], cs, rfl, .close .nil, h⟩
        · split at hc
          · next hbranch =>
            obtain ⟨hname, hlast⟩ := hbranch
            obtain rfl : last = false := hlast
            cases hc
            obtain ⟨ds, es, rfl, hd, he⟩ := h
            rcases hname with rfl | rfl
            · exact ⟨_ :: ds, es, rfl, .elsif .nil hd, he⟩
            · exact ⟨_ :: ds, es, rfl, .otherwise .nil hd, he⟩
          · cases hc

/-- A stack that runs empty over the chunks has what its blocks ask for. -/
theorem closes_of_foldlM {stack : List Opened} {cs : List Chunk}
    (h : cs.foldlM follow stack = some []) : Closes stack cs := by
  induction cs generalizing stack with
  | nil =>
    cases h
    exact .nil
  | cons c cs ih =>
    obtain ⟨stack', hc, h⟩ := Option.bind_eq_some_iff.1 h
    exact (ih h).cons hc

/-- The stack starts empty and ends empty over the well-nested chunks, and
over no others. -/
theorem foldlM_follow_iff {cs : List Chunk} :
    cs.foldlM follow [] = some [] ↔ Nested .body cs := by
  constructor
  · exact fun h => closes_of_foldlM h
  · intro h
    have hrun := h.foldlM_follow [] []
    rwa [List.append_nil] at hrun

end Stencil
