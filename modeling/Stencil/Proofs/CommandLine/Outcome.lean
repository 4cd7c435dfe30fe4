/-
What the command may end in.

The assignments of a command are integers, floats and texts, so a template
is rendered over plain data, and no tag of the standard registry refuses
to be rendered. All failures are then the library's own and are reported,
except where the host refuses a number. It may refuse to make an integer of
a bound of a range, to count its integers or to write one of them, and it
takes a parenthesis in the source to come to that. Or it refuses to read an
integer of too many digits, which the source then spells. These failures
end the command without a report.
-/
import Stencil.CommandLine.Run
import Stencil.Proofs.Evaluation.Plain
import Stencil.Proofs.Template.Rejection

namespace Stencil

section

variable {ranges long : Prop}

-- =========================================================== rendering

/-- No tag that is always known stands alone. -/
theorem Registry.tag?_standard_ne_leaf {name : String} {kind : LeafTag} :
    standard.tag? name ≠ some (.leaf kind) := by
  intro h
  obtain ⟨before, after, hsplit, -⟩ := List.lookup_eq_some_iff.1 h
  have hmem : (name, TagKind.leaf kind) ∈ standard := by
    rw [hsplit]
    exact List.mem_append_right _ (List.mem_cons_self ..)
  simp [standard] at hmem

/-- A new context of a table of plain values is plain. -/
theorem World.plain_newContext {entries : List (Value × Value)}
    (hentries : ∀ e ∈ entries, e.2.Plain ranges) {w w' : World}
    {assigns : Value} {ctx : ContextId} {strict : Bool}
    (hassigns : w.store.object? assigns = some (.table entries))
    (h : Eval.newContext none [assigns] strict w = (.ok ctx, w')) :
    w'.Plain ranges ctx := by
  rw [Eval.newContext_apply] at h
  cases h
  intro layer hlayer
  rw [context_push] at hlayer
  rcases List.mem_cons.1 hlayer with rfl | hlayer
  · exact ⟨[], Store.object?_alloc _ _, fun e he => by cases he⟩
  · obtain rfl := List.mem_singleton.1 hlayer
    obtain ⟨i, rfl, hget⟩ := Store.object?_eq_some.1 hassigns
    refine ⟨entries, ?_, hentries⟩
    exact (Store.get?_alloc_old _ (Store.lt_size_of_get? hget)).trans hget

/-- Over a table of plain values a template that was read with the
standard tags is rendered, or fails as it may over plain data. -/
theorem Eval.render_ofPlain {entries : List (Value × Value)}
    (hentries : ∀ e ∈ entries, e.2.Plain ranges) {mode : Mode}
    {source : String} {journal : Journal} {template : Template}
    (hround : '(' ∈ source.toList → ranges)
    (hread : (Template.parse .standard mode source journal).1 =
      .ok template)
    {w : World} {assigns : Value}
    (hassigns : w.store.object? assigns = some (.table entries))
    (strict : Bool) :
    Admits (fun _ => True) (Failure.OfPlain ranges long)
      (render (some assigns) [] strict template w).1 := by
  have hnodes : ∀ n ∈ template.nodes,
      n.Meets (Expr.Spelled ranges ranges) fun _ => False :=
    Template.parse_spelled
      (fun _ _ htag => Registry.tag?_standard_ne_leaf htag) hround hread
  rcases hcontext : newContext none [assigns] strict w with ⟨ctx, w'⟩
  obtain ⟨rfl, -⟩ := Prod.mk.inj hcontext
  have hplain := World.plain_newContext hentries hassigns hcontext
  obtain ⟨-, -, hends⟩ := (evaluates_plain ranges long w.contexts.size).renderIn
    (fun _ => False.elim) hnodes hplain
  unfold render
  rw [bind_apply]
  rw [show newContext none ((some assigns).toList ++ []) strict w = _
    from hcontext]
  exact hends

-- ========================================================= assignments

namespace CommandLine

/-- What is assigned on the command line is plain. -/
theorem valueOf_plain {s : String} (hs : (s.length : Int) ≤ maxLength) :
    (valueOf s).Plain ranges := by
  unfold valueOf
  split
  · next n hn => exact ⟨Or.inr (Numeral.isWritable_of_integer? hn), nofun⟩
  · split
    · exact ⟨trivial, nofun⟩
    · refine ⟨trivial, fun t ht => ?_⟩
      cases ht
      exact hs

/-- The value of an assignment stands in its argument. -/
theorem assignment_plain {argument : String} {a : String × Value}
    (hlength : (argument.length : Int) ≤ maxLength)
    (h : assignment argument = .ok a) : a.2.Plain ranges := by
  unfold assignment at h
  dsimp only at h
  split at h
  · next c value hdrop =>
    split at h
    · cases h
    · cases h
      have hshorter := congrArg List.length hdrop
      rw [List.length_drop, List.length_cons] at hshorter
      refine valueOf_plain ?_
      rw [String.length_ofList]
      rw [← String.length_toList] at hlength
      omega
  · cases h

/-- Whatever is collected was assigned. -/
theorem mem_of_mem_collect {assigns : List (String × Value)}
    {e : String × Value} (h : e ∈ collect assigns) : e ∈ assigns := by
  refine List.foldlRecOn (motive := fun entries => ∀ e ∈ entries,
    e ∈ assigns) assigns _ (fun e he => by cases he) ?_ e h
  intro entries hentries a ha e he
  split at he
  · obtain ⟨e', he', rfl⟩ := List.mem_map.1 he
    split
    · exact ha
    · exact hentries e' he'
  · rcases List.mem_append.1 he with he | he
    · exact hentries e he
    · exact List.mem_singleton.1 he ▸ ha

-- ============================================================= reports

/-- What a run may report: a text that was rendered, or an error of the
library's own. -/
inductive Report.Regular : Report → Prop
  | rendered (text : String) (errors : List String) :
    Regular ⟨0, text ++ "\n", errors⟩
  | failed (lines : List String) (failure : Failure) :
    failure.isOwn = true →
    Regular ⟨1, "", lines ++ [errorLine failure]⟩

/-- A failure over plain data is reported, or it is the host's. -/
theorem admits_fail {f : Failure} (hf : f.OfPlain ranges long)
    (lines : List String) :
    Admits Report.Regular (Failure.OfHost ranges long) (fail f lines) := by
  unfold fail
  split
  · next hown => exact .ok (.failed lines f hown)
  · next hown => exact .error (hf.resolve_left hown)

/-- The outcome of an attempt is an answer, whatever it is. -/
theorem behaves_attempt {α : Type} {Q : α → Prop}
    {fails fails' : Failure → Prop} {x : Eval α} {w : World}
    (h : Admits Q fails (x w).1) :
    Behaves (.failing World fails') (fun _ r => Admits Q fails r)
      (Eval.attempt x) w :=
  fun _ => ⟨trivial, trivial, .ok h⟩

/-- A new object is found where it was put. -/
theorem behaves_alloc {fails : Failure → Prop} {w : World} (o : Object) :
    Behaves (.failing World fails) (fun t v => t.store.object? v = some o)
      (Eval.alloc o) w :=
  fun _ => ⟨trivial, trivial, .ok (Store.object?_alloc w.store o)⟩

/-- What is assigned on the command line can be shown. -/
theorem succeeds_dump {assigns : List (String × Value)}
    (hassigns : ∀ a ∈ assigns, a.2.isWritable = true) :
    ∃ lines, assigns.mapM assignLine = .ok lines := by
  cases hlines : assigns.mapM assignLine with
  | ok lines => exact ⟨lines, rfl⟩
  | error f =>
    obtain ⟨a, ha, hline⟩ := exists_of_mapM_eq_error hlines
    rcases outcome_bind_eq_error.1 hline with hshown | ⟨shown, -, hno⟩
    · cases (hassigns a ha).symm.trans (written_eq_error.1 hshown).1
    · cases hno

/-- A run reports a text or an error of the library's own, unless the host
refuses a number. -/
theorem behaves_run {settings : Settings} {source : String}
    (hpermits : Permits ranges long source.toList)
    (hassigns : ∀ a ∈ settings.assigns, ∀ ranges, a.2.Plain ranges)
    (w : World) :
    Behaves (.failing World (Failure.OfHost ranges long))
      (fun _ => Report.Regular) (run settings source) w := by
  have hentries : ∀ e ∈ settings.assigns.map fun a => (Value.text a.1, a.2),
      e.2.Plain ranges := by
    intro e he
    obtain ⟨a, ha, rfl⟩ := List.mem_map.1 he
    exact hassigns a ha ranges
  have hread : Admits
      (fun template => (Template.parse .standard settings.mode source
        w.journal).1 = .ok template)
      (Failure.OfPlain ranges long)
      (Eval.readTemplate .standard settings.mode source w).1 := by
    show Admits _ _
      (Template.parse .standard settings.mode source w.journal).1
    cases hparse : (Template.parse .standard settings.mode source
        w.journal).1 with
    | ok template => exact .ok rfl
    | error f =>
      exact .error (Template.parse_ofGrammar hpermits hparse).ofPlain
  refine .bind (behaves_attempt hread) fun r t _ hr => ?_
  cases hr with
  | error hf => exact .ofExcept (admits_fail hf [])
  | @ok template htemplate =>
    refine .bind (behaves_alloc _) fun assigns u _ hobject => ?_
    have hrender : Admits (fun _ => True) (Failure.OfPlain ranges long)
        (Eval.render (some assigns) [] settings.strictVariables template
          u).1 :=
      Eval.render_ofPlain hentries hpermits.round htemplate hobject _
    refine .bind (behaves_attempt hrender) fun r _ _ hr => ?_
    cases hr with
    | error hf => exact .ofExcept (admits_fail hf _)
    | @ok text _ =>
      obtain ⟨lines, hlines⟩ : ∃ lines, (if settings.dumpContext then
          settings.assigns else []).mapM assignLine = .ok lines := by
        refine succeeds_dump fun a ha => ?_
        have hmem : a ∈ settings.assigns := by
          split at ha
          · exact ha
          · cases ha
        exact (hassigns a hmem False).spelled.isWritable.resolve_left id
      rw [hlines]
      exact .pure (.rendered text _)

end CommandLine

end

namespace CommandLine

/-- Whatever is assigned, the command reports a text or an error of the
library's own, or the host refuses a number: one that has to do with a range
that the source spells, or an integer of too many digits in the source. -/
theorem run_reports {arguments : List String}
    {assigns : List (String × Value)}
    (hassigns : arguments.mapM assignment = .ok assigns)
    (hlengths : ∀ a ∈ arguments, (a.length : Int) ≤ maxLength)
    (file : String) (mode : Mode) (strictVariables dumpContext : Bool)
    (source : String) (w : World) :
    Admits Report.Regular
      (Failure.OfHost ('(' ∈ source.toList)
        (Numeral.OverlongIn source.toList))
      (run ⟨file, collect assigns, mode, strictVariables, dumpContext⟩
        source w).1 := by
  have hplain : ∀ a ∈ collect assigns, ∀ ranges, a.2.Plain ranges := by
    intro a ha ranges
    obtain ⟨argument, hargument, h⟩ :=
      exists_of_mem_mapM hassigns a (mem_of_mem_collect ha)
    exact assignment_plain (hlengths argument hargument) h
  obtain ⟨-, -, hends⟩ := behaves_run Permits.self
    (show ∀ a ∈ (Settings.mk file (collect assigns) mode strictVariables
      dumpContext).assigns, _ from hplain) w trivial
  exact hends

/-- Infinity alone does no harm: without a parenthesis in the source a
report is certain. -/
theorem run_reports_infinity :
    ∃ assigns, ["n=inf", "word=ab"].mapM assignment = .ok assigns ∧
      (∀ a ∈ ["n=inf", "word=ab"], (a.length : Int) ≤ maxLength) ∧
      ∃ report, (run ⟨"-", collect assigns, .strict, true, false⟩
        "{% if n > 1 %}{{ word.size }}{% endif %}" (.fresh false)).1 =
          .ok report ∧ report.Regular := by
  have hassigns : ["n=inf", "word=ab"].mapM assignment =
      .ok [("n", .float (.infinity false)), ("word", .text "ab")] := rfl
  have hlengths : ∀ a ∈ ["n=inf", "word=ab"],
      (a.length : Int) ≤ maxLength := by decide
  refine ⟨_, hassigns, hlengths, ?_⟩
  have hreports := run_reports hassigns hlengths "-" .strict true false
    "{% if n > 1 %}{{ word.size }}{% endif %}" (.fresh false)
  rcases hout : (run ⟨"-", _, .strict, true, false⟩
    "{% if n > 1 %}{{ word.size }}{% endif %}" (.fresh false)).1
    with f | report
  · rw [hout] at hreports
    cases hreports with
    | error h =>
      rcases h with ⟨hround, -⟩ | ⟨⟨digits, hrow, -, hlong⟩, -⟩
      · exact absurd hround (by decide)
      · have hshort := Nat.lt_of_lt_of_le hlong hrow.length_le
        exact absurd hshort (by decide)
  · rw [hout] at hreports
    cases hreports with
    | ok hreport => exact ⟨report, rfl, hreport⟩

/-- Not every run reports. The bound of this range is infinite, which is
none of the library's own errors. -/
theorem exists_run_infinite :
    ["n=inf"].mapM assignment = .ok [("n", .float (.infinity false))] ∧
      (run ⟨"-", [("n", .float (.infinity false))], .lax, false, false⟩
        "{{ (1..n) }}" (.fresh false)).1 = .error .infiniteInteger ∧
      Failure.infiniteInteger.isOwn = false := by
  refine ⟨rfl, ?_, rfl⟩
  have hrun : (match (run ⟨"-", [("n", .float (.infinity false))], .lax,
      false, false⟩ "{{ (1..n) }}" (.fresh false)).1 with
    | .ok _ => false
    | .error f => decide (f = .infiniteInteger)) = true := by
    decide +kernel
  split at hrun
  · cases hrun
  · next hout => rw [hout, of_decide_eq_true hrun]

end CommandLine

end Stencil
