/-
The two grammars of operands agree, except about ranges.

An operand that the strict grammar derives is written in the markup as its
tokens stand there, loosely: blanks are free around dots and brackets. The
lenient grammar reads such writing as it was meant, whatever names, quotes
and literal words it is made of. Only the bounds of a range may be found
elsewhere, as they are looked for without regard to quotes and brackets.
Where they are clear, and so where there is no parenthesis at all, the
grammars agree.
-/
import Stencil.Proofs.Markup.Spacing

namespace Stencil

open Text

namespace Expr

/-- An operand with clear ranges is written in its markup, between
blanks. -/
theorem exists_written {markup : String} {e : Expr}
    (h : parseStrict markup = .ok e)
    (hclear : Placed.RangesClear (Token.places markup)) :
    ∃ before cs after, markup.toList = before ++ cs ++ after ∧
      before.all isBlank = true ∧ after.all isBlank = true ∧
      Written true (.operand e) cs := by
  unfold parseStrict at h
  split at h
  · next tokens hscan =>
    obtain ⟨ps, last, hplaces, rfl, hkinds, hsound, htext⟩ :=
      Token.exists_places hscan
    rw [hplaces] at hclear
    have hderive := derives_of_readTokens h hkinds
    obtain ⟨hps, hlast⟩ :=
      Placed.Clean.split ⟨hsound.of_mem, hclear⟩
    refine ⟨Placed.lead ps, Placed.body ps, last, ?_, hps.lead, hlast.lead,
      hderive.written rfl hps nofun⟩
    rw [← Placed.text_eq, htext]
  · cases h

/-- Where the strict grammar reads an operand from markup with clear
ranges, the lenient grammar reads the same operand. -/
theorem parse_of_rangesClear {markup : String} {e : Expr}
    (h : parseStrict markup = .ok e)
    (hclear : Placed.RangesClear (Token.places markup)) :
    parse markup = .ok e := by
  obtain ⟨before, cs, after, hmarkup, hbefore, hafter, hwritten⟩ :=
    exists_written h hclear
  rw [parse, hmarkup]
  exact hwritten.means before after hbefore hafter

/-- Where the strict grammar reads an operand from markup without an
opening parenthesis, the lenient grammar reads the same operand. -/
theorem parse_of_parseStrict {markup : String} {tokens : List Token}
    {e : Expr} (hscan : Token.scan markup = .ok tokens)
    (hround : ∀ t ∈ tokens, t.kind ≠ .openRound)
    (h : parseStrict markup = .ok e) : parse markup = .ok e := by
  refine parse_of_rangesClear h (Placed.rangesClear_of_kinds ?_)
  obtain ⟨ps, last, hplaces, rfl, -⟩ := Token.exists_places hscan
  intro p hp
  rw [hplaces] at hp
  refine hround p.token ?_
  have hmem := List.mem_map_of_mem (f := Placed.token) hp
  rwa [List.map_append] at hmem

/-- Blanks around dots and brackets, a literal word as a root, brackets in
quotes, and names with dashes and a question mark make no difference. -/
theorem parse_of_parseStrict_path :
    ∃ e, parseStrict " nil . size[ \"]'[\" ][a-b?[ -1.5 ].contains] [true] " =
        .ok e ∧
      parse " nil . size[ \"]'[\" ][a-b?[ -1.5 ].contains] [true] " =
        .ok e := by
  have hread : (parseStrict
      " nil . size[ \"]'[\" ][a-b?[ -1.5 ].contains] [true] ").toOption ≠
        none := by decide +kernel
  have hround : ((Token.scan
      " nil . size[ \"]'[\" ][a-b?[ -1.5 ].contains] [true] ").toOption.all
        fun tokens => tokens.all fun t => t.kind != .openRound) = true := by
    decide +kernel
  cases hscan : Token.scan
      " nil . size[ \"]'[\" ][a-b?[ -1.5 ].contains] [true] " with
  | error e =>
    rw [parseStrict, hscan] at hread
    exact absurd rfl hread
  | ok tokens =>
    rw [hscan] at hround
    cases h : parseStrict
        " nil . size[ \"]'[\" ][a-b?[ -1.5 ].contains] [true] " with
    | error e => exact absurd (congrArg Except.toOption h) hread
    | ok e =>
      refine ⟨e, rfl, parse_of_parseStrict hscan (fun t ht => ?_) h⟩
      simpa using List.all_eq_true.1 hround t ht

end Expr

end Stencil
