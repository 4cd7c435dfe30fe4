/-
Conventional spacing: where the blanks of a condition have to stand.

The strict grammar skips blanks, so to it they only matter where they end
a name or a number. To the lenient grammar they are what the pieces of a
condition are told apart by. A condition is `WellSpaced` when its blanks
serve both: outside brackets none stands inside an operand, and around a
linking word, and in front of the word `contains`, there are some. An
operand that is nothing but a linking word cannot be told from one.

`Stand` follows the tokens and remembers, outside brackets, what has to
come; `laid` asks of each token whether its gap is right there. Ranges
are a matter of their own (`RangesClear`): their bounds must be unbroken,
and two dots may stand in the first one only if a blank marks those that
end it.

Under a derivation, well-spaced tokens are written tightly, which is what
the other modules ask for.
-/
import Stencil.Proofs.Markup.Rereading

namespace Stencil

open Text

-- ============================================================== layout

/-- What has to come, or has just come, outside all brackets. -/
inductive Phase
  /-- An operand has to come. -/
  | due
  /-- An operand has to come, right after a linking word. -/
  | linked
  /-- An operand has come that so far is only a linking word. -/
  | word
  /-- An operand has come. It may go on. -/
  | begun
  /-- A dot has come, so the operand goes on. -/
  | dotted
  deriving DecidableEq, Repr

/-- Where a token stands: in how many brackets, and in which phase of a
condition. -/
structure Stand where
  depth : Nat
  phase : Phase
  deriving DecidableEq, Repr

namespace Stand

/-- In front of a condition. -/
def start : Stand := ⟨0, .due⟩

/-- Whether the gap in front of a token is right where it stands. Inside
brackets every gap is. -/
def allows (s : Stand) (p : Placed) : Bool :=
  if s.depth != 0 then true
  else match s.phase with
    | .due => true
    | .linked => !p.gap.isEmpty
    | .word => (p.token.kind == .dot || p.token.kind == .openSquare) &&
        p.gap.isEmpty
    | .dotted => p.gap.isEmpty
    | .begun =>
      match p.token.kind with
      | .dot | .openSquare => p.gap.isEmpty
      | .id => !p.gap.isEmpty
      | .comparison => p.token.text != "contains" || !p.gap.isEmpty
      | _ => true

/-- The phase after a token outside all brackets. -/
def phaseAfter (t : Token) : Phase → Phase
  | .due | .linked =>
    if t.kind == .id && relationWords.contains t.text then .word else .begun
  | .dotted => .begun
  | .word | .begun =>
    match t.kind with
    | .dot => .dotted
    | .comparison => .due
    | .id => .linked
    | _ => .begun

/-- Where the next token stands. -/
def next (s : Stand) (t : Token) : Stand :=
  ⟨match t.kind with
    | .openSquare | .openRound => s.depth + 1
    | .closeSquare | .closeRound => s.depth - 1
    | _ => s.depth,
    if s.depth != 0 then s.phase else phaseAfter t s.phase⟩

end Stand

/-- Whether the gaps of placed tokens are right where they stand. -/
def laid : Stand → List Placed → Bool
  | _, [] => true
  | s, p :: rest => s.allows p && laid (s.next p.token) rest

namespace Placed

/-- The gap in front of placed tokens. -/
def lead : List Placed → List Char
  | [] => []
  | p :: _ => p.gap

/-- Placed tokens as they stand in the markup, without the gap in front
of the first. -/
def body : List Placed → List Char
  | [] => []
  | p :: rest => p.token.text.toList ++ text rest

/-- Placed tokens are a gap and what follows it. -/
theorem text_eq (ps : List Placed) : text ps = lead ps ++ body ps := by
  cases ps with
  | nil => rfl
  | cons p ps => rw [text_cons, List.append_assoc, lead, body]

/-- In every range among placed tokens the bounds hold no blanks, and the
first bound does not hold two dots, unless there is a blank before or
after the dots between the bounds. -/
def RangesClear (ps : List Placed) : Prop :=
  ∀ a b c : Placed, ∀ xs ys : List Placed,
    a :: (xs ++ b :: (ys ++ [c])) <:+: ps →
    a.token.kind = .openRound → b.token.kind = .dotdot →
    c.token.kind = .closeRound →
    (∃ e, Derives (.operand e) (xs.map token)) →
    (∃ e, Derives (.operand e) (ys.map token)) →
    IsUnbroken (body xs) ∧ (b.gap = [] → lead ys = [] → HasNoDots (body xs)) ∧
      IsUnbroken (body ys)

/-- What is clear stays clear in its parts. -/
theorem RangesClear.part {xs ps : List Placed} (h : RangesClear ps)
    (hx : xs <:+: ps) : RangesClear xs :=
  fun a b c ys zs hin => h a b c ys zs (hin.trans hx)

/-- Without ranges there is nothing to be clear. -/
theorem rangesClear_of_kinds {ps : List Placed}
    (h : ∀ p ∈ ps, p.token.kind ≠ .openRound) : RangesClear ps :=
  fun a _ _ _ _ hin hkind =>
    absurd hkind (h a (hin.subset (List.mem_cons_self ..)))

end Placed

/-- The tokens of a markup where they stand in it. -/
def Token.places (markup : String) : List Placed :=
  match Token.scan markup with
  | .ok tokens => Placed.place markup.toList tokens
  | .error _ => []

/-- A markup is spaced as the lenient grammar needs it. -/
def WellSpaced (markup : String) : Prop :=
  laid .start (Token.places markup) = true ∧
    Placed.RangesClear (Token.places markup)

-- ==================================================== layout in sequence

theorem laid_append (s : Stand) (ps qs : List Placed) :
    laid s (ps ++ qs) =
      (laid s ps && laid ((ps.map Placed.token).foldl Stand.next s) qs) := by
  induction ps generalizing s with
  | nil => rfl
  | cons p ps ih =>
    simp only [List.cons_append, laid, ih, List.map_cons, List.foldl_cons,
      Bool.and_assoc]

/-- Inside brackets, derived tokens lead back to where they started. -/
theorem Derives.foldl_next_inside {phrase : Phrase} {ts : List Token}
    (h : Derives phrase ts) (d : Nat) (phase : Phase) :
    ts.foldl Stand.next ⟨d + 1, phase⟩ = ⟨d + 1, phase⟩ := by
  induction h generalizing d with
  | literal => rfl
  | name _ _ ih => exact ih d
  | bracketed _ _ ihInner ihSteps =>
    rw [List.foldl_cons, List.foldl_append]
    show List.foldl _ (Stand.next (List.foldl _ ⟨d + 2, phase⟩ _) _) _ = _
    rw [ihInner]
    exact ihSteps d
  | string => rfl
  | number => rfl
  | range _ _ _ ihFirst ihLast =>
    rw [List.foldl_cons, List.foldl_append, List.foldl_cons,
      List.foldl_append]
    show List.foldl _ (List.foldl _ (Stand.next
      (List.foldl _ ⟨d + 2, phase⟩ _) _) _) _ = _
    rw [ihFirst]
    show List.foldl _ (List.foldl Stand.next ⟨d + 2, phase⟩ _) _ = _
    rw [ihLast]
    rfl
  | done => rfl
  | key _ ih => exact ih d
  | index _ _ ihInner ihSteps =>
    rw [List.foldl_cons, List.foldl_append]
    show List.foldl _ (Stand.next (List.foldl _ ⟨d + 2, phase⟩ _) _) _ = _
    rw [ihInner]
    exact ihSteps d

/-- Behind a bracket group, the stand is the one in front of it, with the
phase that the opening bracket has led to. -/
theorem Derives.foldl_next_group {phrase : Phrase} {ts : List Token}
    (h : Derives phrase ts) (phase : Phase) (b : String)
    (us : List Token) :
    (ts ++ ⟨.closeSquare, b⟩ :: us).foldl Stand.next ⟨1, phase⟩ =
      us.foldl Stand.next ⟨0, phase⟩ := by
  rw [List.foldl_append, h.foldl_next_inside]
  rfl

/-- The steps of a path lead back to an operand that has begun. -/
theorem Derives.foldl_next_steps {p q : Path} {ts : List Token}
    (h : Derives (.steps p q) ts) :
    ts.foldl Stand.next ⟨0, .begun⟩ = ⟨0, .begun⟩ := by
  generalize hphrase : Phrase.steps p q = phrase at h
  induction h generalizing p q with
  | done => rfl
  | key _ ih => exact ih rfl
  | index hinner _ _ ihSteps =>
    exact (hinner.foldl_next_group .begun _ _).trans (ihSteps rfl)
  | _ => cases hphrase

/-- A name leads to a lone linking word, or to any other operand. -/
theorem Stand.next_name (word : String) :
    next ⟨0, .due⟩ ⟨.id, word⟩ =
      ⟨0, if relationWords.contains word then .word else .begun⟩ := by
  simp [next, phaseAfter]

/-- After an operand, it has begun and may go on, unless it is only a
linking word. -/
theorem Derives.foldl_next_operand {e : Expr} {ts : List Token}
    (h : Derives (.operand e) ts) :
    ts.foldl Stand.next ⟨0, .due⟩ = ⟨0, .begun⟩ ∨
      ∃ word, ts = [⟨.id, word⟩] ∧ relationWords.contains word = true ∧
        ts.foldl Stand.next ⟨0, .due⟩ = ⟨0, .word⟩ := by
  have hsingle : ∀ word, [(⟨.id, word⟩ : Token)].foldl Stand.next ⟨0, .due⟩ =
      ⟨0, .begun⟩ ∨ ∃ w, [(⟨.id, word⟩ : Token)] = [⟨.id, w⟩] ∧
        relationWords.contains w = true ∧
        [(⟨.id, word⟩ : Token)].foldl Stand.next ⟨0, .due⟩ = ⟨0, .word⟩ := by
    intro word
    rw [List.foldl_cons, Stand.next_name]
    cases hw : relationWords.contains word with
    | false => exact Or.inl rfl
    | true => exact Or.inr ⟨word, rfl, hw, rfl⟩
  cases h with
  | literal => exact hsingle _
  | name _ hsteps =>
    cases hsteps with
    | done => exact hsingle _
    | key hsteps =>
      refine Or.inl ?_
      rw [List.foldl_cons, Stand.next_name]
      split <;> exact hsteps.foldl_next_steps
    | index hinner hsteps =>
      refine Or.inl ?_
      rw [List.foldl_cons, Stand.next_name]
      split <;> exact (hinner.foldl_next_group .begun _ _).trans
        hsteps.foldl_next_steps
  | bracketed hinner hsteps =>
    exact Or.inl ((hinner.foldl_next_group .begun _ _).trans
      hsteps.foldl_next_steps)
  | string => exact Or.inl rfl
  | number => exact Or.inl rfl
  | range hfirst hlast _ =>
    refine Or.inl ?_
    rw [List.foldl_cons, List.foldl_append]
    show List.foldl _ (List.foldl Stand.next ⟨1, .begun⟩ _) _ = _
    rw [hfirst.foldl_next_inside, List.foldl_cons, List.foldl_append]
    show List.foldl _ (List.foldl Stand.next ⟨1, .begun⟩ _) _ = _
    rw [hlast.foldl_next_inside]
    rfl

-- ============================================================ writing

namespace Placed

/-- What a placed token needs for its place in a written operand: blank
gaps, fitting texts, and ranges that are clear. -/
def Clean (ps : List Placed) : Prop :=
  (∀ p ∈ ps, p.gap.all isBlank = true ∧
    Fits p.token.kind p.token.text.toList) ∧ RangesClear ps

theorem Clean.part {xs ps : List Placed} (h : Clean ps) (hx : xs <:+: ps) :
    Clean xs :=
  ⟨fun p hp => h.1 p (hx.subset hp), h.2.part hx⟩

/-- What follows the first placed token is clean. -/
theorem Clean.tail {p : Placed} {ps : List Placed} (h : Clean (p :: ps)) :
    Clean ps := h.part (List.suffix_cons p ps).isInfix

/-- The text of the first placed token fits its kind. -/
theorem Clean.fits_head {p : Placed} {ps : List Placed}
    (h : Clean (p :: ps)) : Fits p.token.kind p.token.text.toList :=
  (h.1 p (List.mem_cons_self ..)).2

/-- Both parts of clean placed tokens are clean. -/
theorem Clean.split {xs zs : List Placed} (h : Clean (xs ++ zs)) :
    Clean xs ∧ Clean zs :=
  ⟨h.part (List.prefix_append ..).isInfix,
    h.part (List.suffix_append ..).isInfix⟩

/-- The gap in front of clean placed tokens is blank. -/
theorem Clean.lead {ps : List Placed} (h : Clean ps) :
    (lead ps).all isBlank = true := by
  cases ps with
  | nil => rfl
  | cons p ps => exact (h.1 p (List.mem_cons_self ..)).1

end Placed

/-- The phase in which a phrase begins. -/
def Phrase.phase : Phrase → Phase
  | .operand _ => .due
  | .steps .. => .begun

/-- How a phrase is written: without the gap in front if it is an
operand. -/
def Phrase.writing : Phrase → List Placed → List Char
  | .operand _, ps => Placed.body ps
  | .steps .., ps => Placed.text ps

/-- What is right behind a lone linking word is right behind any other
operand. -/
theorem laid_begun_of_word {ps : List Placed}
    (h : laid ⟨0, .word⟩ ps = true) : laid ⟨0, .begun⟩ ps = true := by
  cases ps with
  | nil => rfl
  | cons p ps =>
    obtain ⟨hallows, hrest⟩ := Bool.and_eq_true_iff.1 h
    refine Bool.and_eq_true_iff.2 ⟨?_, hrest⟩
    simp only [Stand.allows, bne_self_eq_false, Bool.false_eq_true, if_false,
      Bool.and_eq_true, Bool.or_eq_true, beq_iff_eq] at hallows ⊢
    obtain ⟨hkind | hkind, hgap⟩ := hallows
    · rw [hkind]
      exact hgap
    · rw [hkind]
      exact hgap

/-- What goes on after a name goes on as after any operand. -/
theorem laid_begun {word : String} {ps : List Placed}
    (h : laid (Stand.next ⟨0, .due⟩ ⟨.id, word⟩) ps = true) :
    laid ⟨0, .begun⟩ ps = true := by
  rw [Stand.next_name] at h
  split at h
  · exact laid_begun_of_word h
  · exact h

/-- Behind a bracket group, the gaps are right where the group began. -/
theorem Derives.laid_group {phrase : Phrase} {phase : Phase} {b : String}
    {gap : List Char} {xs zs : List Placed}
    (hderive : Derives phrase (xs.map Placed.token))
    (h : laid ⟨1, phase⟩ (xs ++ ⟨gap, ⟨.closeSquare, b⟩⟩ :: zs) = true) :
    laid ⟨0, phase⟩ zs = true := by
  rw [laid_append, hderive.foldl_next_inside, Bool.and_eq_true] at h
  exact (Bool.and_eq_true_iff.1 h.2).2

/-- The placed tokens of a list that starts with a token. -/
theorem Placed.of_map_cons {ps : List Placed} {t : Token} {ts : List Token}
    (h : ps.map token = t :: ts) :
    ∃ gap qs, ps = ⟨gap, t⟩ :: qs ∧ qs.map token = ts := by
  obtain ⟨⟨gap, t⟩, qs, rfl, rfl, hqs⟩ := List.map_eq_cons_iff.1 h
  exact ⟨gap, qs, rfl, hqs⟩

/-- The placed tokens of a list with a token in it. -/
theorem Placed.of_map_append {ps : List Placed} {t : Token}
    {ts us : List Token} (h : ps.map token = ts ++ t :: us) :
    ∃ xs gap zs, ps = xs ++ ⟨gap, t⟩ :: zs ∧ xs.map token = ts ∧
      zs.map token = us := by
  obtain ⟨xs, qs, rfl, hxs, hqs⟩ := List.map_eq_append_iff.1 h
  obtain ⟨gap, zs, rfl, hzs⟩ := of_map_cons hqs
  exact ⟨xs, gap, zs, rfl, hxs, hzs⟩

/-- Only no steps are written as nothing. -/
theorem Derives.nil_of_text {p q : Path} {ts : List Token}
    (h : Derives (.steps p q) ts) {ps : List Placed}
    (hps : ps.map Placed.token = ts) (hclean : Placed.Clean ps)
    (htext : Placed.text ps = []) : ts = [] := by
  cases ps with
  | nil => exact hps.symm
  | cons r rs =>
    have hr : r.token.text.toList = [] := by
      have hchars := (List.append_eq_nil_iff.1 htext).1
      exact (List.append_eq_nil_iff.1 hchars).2
    have hfits := hclean.fits_head
    cases h with
    | done => rfl
    | key _ | index _ _ =>
      -- a dot or a bracket has a text
      rw [hr, (List.cons.inj hps).1] at hfits
      cases hfits

/-- Placed tokens up to a token that ends them, as they stand in the
markup. -/
theorem Placed.text_closed (xs zs : List Placed) (gap : List Char)
    (t : Token) :
    text (xs ++ ⟨gap, t⟩ :: zs) =
      (lead xs ++ body xs ++ gap) ++ (t.text.toList ++ text zs) := by
  rw [text_append, text_cons, text_eq xs]
  simp only [List.append_assoc]

/-- A bracket group as it stands in the markup. -/
theorem Placed.text_group {xs zs : List Placed} {gap : List Char}
    {a b : String} (hopen : Fits .openSquare a.toList)
    (h : Clean (xs ++ ⟨gap, ⟨.closeSquare, b⟩⟩ :: zs)) :
    IsGap true (lead xs) ∧ IsGap true gap ∧
      a.toList ++ text (xs ++ ⟨gap, ⟨.closeSquare, b⟩⟩ :: zs) =
        '[' :: (lead xs ++ body xs ++ gap) ++ ']' :: text zs := by
  obtain ⟨hxs, hzs⟩ := h.split
  have hclose : b.toList = [']'] := hzs.fits_head
  refine ⟨⟨hxs.lead, nofun⟩, ⟨hzs.lead, nofun⟩, ?_⟩
  rw [text_closed, show a.toList = ['['] from hopen, hclose]
  rfl

/-- What is derived from well-spaced tokens is written as they stand. -/
theorem Derives.written {phrase : Phrase} {ts : List Token}
    (h : Derives phrase ts) {loose : Bool} {ps : List Placed}
    (hps : ps.map Placed.token = ts) (hclean : Placed.Clean ps)
    (hlaid : loose = false → laid ⟨0, phrase.phase⟩ ps = true) :
    Written loose phrase (phrase.writing ps) := by
  induction h generalizing loose ps with
  | @literal word v hword =>
    obtain ⟨gap, qs, rfl, hqs⟩ := Placed.of_map_cons hps
    obtain rfl : qs = [] := List.map_eq_nil_iff.1 hqs
    show Written loose _ (word.toList ++ [])
    rw [List.append_nil]
    exact .literal hclean.fits_head (by rwa [String.ofList_toList])
  | @name word p ts hword hsteps ih =>
    obtain ⟨gap, qs, rfl, hqs⟩ := Placed.of_map_cons hps
    have htail := ih hqs hclean.tail
      (fun hl => laid_begun (Bool.and_eq_true_iff.1 (hlaid hl)).2)
    rw [← String.ofList_toList (s := word)] at htail
    refine .name hclean.fits_head (fun htext => ?_) htail
    rw [String.ofList_toList]
    exact hword (hsteps.nil_of_text hqs hclean.tail htext)
  | @bracketed a b e p ts us hinner _ ihInner ihSteps =>
    obtain ⟨gap, qs, rfl, hqs⟩ := Placed.of_map_cons hps
    obtain ⟨xs, gap', zs, rfl, rfl, rfl⟩ := Placed.of_map_append hqs
    obtain ⟨hxs, hzs⟩ := hclean.tail.split
    obtain ⟨hbefore, hgap', htext⟩ := Placed.text_group hclean.fits_head
      hclean.tail
    rw [Phrase.writing, Placed.body, htext]
    refine .bracketed hbefore (ihInner rfl hxs nofun) hgap'
      (ihSteps rfl hzs.tail fun hl => ?_)
    exact hinner.laid_group (Bool.and_eq_true_iff.1 (hlaid hl)).2
  | @string text =>
    obtain ⟨gap, qs, rfl, hqs⟩ := Placed.of_map_cons hps
    obtain rfl : qs = [] := List.map_eq_nil_iff.1 hqs
    obtain ⟨q, inner, htext, hq, hmem⟩ := hclean.fits_head
    show Written loose (.operand (.const (.text
      (String.ofList (text.toList.drop 1).dropLast)))) (text.toList ++ [])
    rw [List.append_nil, show text.toList = q :: inner ++ [q] from htext,
      List.cons_append, List.drop_succ_cons, List.drop_zero,
      List.dropLast_concat]
    exact .string hq hmem
  | @number text v hv =>
    obtain ⟨gap, qs, rfl, hqs⟩ := Placed.of_map_cons hps
    obtain rfl : qs = [] := List.map_eq_nil_iff.1 hqs
    show Written loose _ (text.toList ++ [])
    rw [List.append_nil]
    exact .number hclean.fits_head (by rwa [String.ofList_toList])
  | @range a b c first last e ts us hfirst hlast he ihFirst ihLast =>
    obtain ⟨gap, qs, rfl, hqs⟩ := Placed.of_map_cons hps
    obtain ⟨xs, gap', zs, rfl, rfl, hzs⟩ := Placed.of_map_append hqs
    obtain ⟨ys, gap'', rs, rfl, rfl, hrs⟩ := Placed.of_map_append hzs
    obtain rfl : rs = [] := List.map_eq_nil_iff.1 hrs
    obtain ⟨hxs, hrest⟩ := hclean.tail.split
    obtain ⟨hys, hend⟩ := hrest.tail.split
    obtain ⟨hcs, hdots, hds⟩ := hclean.2 _ _ _ xs ys (List.infix_refl _) rfl rfl
      rfl ⟨first, hfirst⟩ ⟨last, hlast⟩
    have hopen : a.toList = ['('] := hclean.fits_head
    have hmiddle : b.toList = ['.', '.'] := hrest.fits_head
    have hclose : c.toList = [')'] := hend.fits_head
    have hbody : Placed.body (⟨gap, ⟨.openRound, a⟩⟩ :: (xs ++
        ⟨gap', ⟨.dotdot, b⟩⟩ :: (ys ++ [⟨gap'', ⟨.closeRound, c⟩⟩]))) =
        '(' :: (Placed.lead xs ++ Placed.body xs ++ gap') ++ ['.', '.'] ++
          (Placed.lead ys ++ Placed.body ys ++ gap'') ++ [')'] := by
      rw [Placed.body, Placed.text_closed, Placed.text_closed, hopen, hmiddle,
        hclose]
      simp [Placed.text]
    rw [Phrase.writing, hbody]
    exact .range (ihFirst rfl hxs nofun) (ihLast rfl hys nofun) hcs hdots hds
      ⟨hxs.lead, nofun⟩ ⟨hrest.lead, nofun⟩ ⟨hys.lead, nofun⟩
      ⟨hend.lead, nofun⟩ he
  | done =>
    obtain rfl : ps = [] := List.map_eq_nil_iff.1 hps
    exact .done _
  | @key d word p q ts hsteps ih =>
    obtain ⟨gap, qs, rfl, hqs⟩ := Placed.of_map_cons hps
    obtain ⟨gap', zs, rfl, hzs⟩ := Placed.of_map_cons hqs
    have hdot : d.toList = ['.'] := hclean.fits_head
    have hgap := (hclean.1 _ (List.mem_cons_self ..)).1
    have hgap' := (hclean.tail.1 _ (List.mem_cons_self ..)).1
    have htail := ih hzs hclean.tail.tail fun hl =>
      (Bool.and_eq_true_iff.1 (Bool.and_eq_true_iff.1 (hlaid hl)).2).2
    have htext : Placed.text (⟨gap, ⟨.dot, d⟩⟩ :: ⟨gap', ⟨.id, word⟩⟩ :: zs) =
        gap ++ '.' :: gap' ++ word.toList ++ Placed.text zs := by
      rw [Placed.text_cons, Placed.text_cons, hdot]
      simp
    rw [← String.ofList_toList (s := word)] at htail
    rw [Phrase.writing, htext]
    refine .key ⟨hgap, fun hl => ?_⟩ ⟨hgap', fun hl => ?_⟩
      hclean.tail.fits_head htail
    · exact List.isEmpty_iff.1 (Bool.and_eq_true_iff.1 (hlaid hl)).1
    · exact List.isEmpty_iff.1 (Bool.and_eq_true_iff.1
        (Bool.and_eq_true_iff.1 (hlaid hl)).2).1
  | @index a b e p q ts us hinner _ ihInner ihSteps =>
    obtain ⟨gap, qs, rfl, hqs⟩ := Placed.of_map_cons hps
    obtain ⟨xs, gap', zs, rfl, rfl, rfl⟩ := Placed.of_map_append hqs
    obtain ⟨hxs, hzs⟩ := hclean.tail.split
    obtain ⟨hbefore, hgap', htext⟩ := Placed.text_group hclean.fits_head
      hclean.tail
    have hgap := (hclean.1 _ (List.mem_cons_self ..)).1
    rw [Phrase.writing, Placed.text_cons, List.append_assoc, htext,
      ← List.append_assoc]
    refine .index ⟨hgap, fun hl => ?_⟩ hbefore (ihInner rfl hxs nofun) hgap'
      (ihSteps rfl hzs.tail fun hl => ?_)
    · exact List.isEmpty_iff.1 (Bool.and_eq_true_iff.1 (hlaid hl)).1
    · exact hinner.laid_group (Bool.and_eq_true_iff.1 (hlaid hl)).2

-- ========================================================= whole markups

/-- The tokens of a scan, where they stand: some that are no end, and the
end with what is left in front of it. -/
theorem Token.exists_places {markup : String} {tokens : List Token}
    (h : scan markup = .ok tokens) :
    ∃ ps last, Token.places markup = ps ++ [⟨last, endOfString⟩] ∧
      tokens = ps.map Placed.token ++ [endOfString] ∧
      (∀ t ∈ ps.map Placed.token, t.kind ≠ .endOfString) ∧
      Placed.Sound (ps ++ [⟨last, endOfString⟩]) ∧
      Placed.text ps ++ last = markup.toList := by
  unfold places
  rw [h]
  unfold scan at h
  split at h
  · next ts hscan =>
    cases h
    obtain ⟨htext, hsound, hkinds⟩ := scanAfter_place hscan
    have hmap := Placed.map_token_place markup.toList (ts ++ [endOfString])
    dsimp only
    generalize Placed.place markup.toList (ts ++ [endOfString]) = places
      at htext hsound hmap ⊢
    obtain ⟨ps, qs, rfl, rfl, hqs⟩ := List.map_eq_append_iff.1 hmap
    obtain ⟨last, rs, rfl, hrs⟩ := Placed.of_map_cons hqs
    obtain rfl := List.map_eq_nil_iff.1 hrs
    refine ⟨ps, last, rfl, rfl, hkinds, hsound, ?_⟩
    rw [← htext, Placed.text_append]
    simp [Placed.text, Placed.chars, endOfString]
  · cases h

end Stencil
