/-
A deferred value runs once.

What has been computed is put into the list or table that it was computed
for. So a deferred value that stands in one slot is called once, by however
many renders, and by whatever path they reach it (`runAll_calls_once`): by
names and keys, by positions from both ends, through aliases of its list or
table, and through markup that other deferred values and drops read.

It takes that each call returns, and does not come back to the same value.
And it takes that nobody else gets hold of the value unforced. A command
can do that. `first` of a table puts the first value into a new list as it
is, and what is forced there is remembered in that list, which is gone with
the next step (`exists_calls_twice`).
-/
import Stencil.Proofs.Evaluation.Calling
import Stencil.Proofs.Evaluation.Watching

namespace Stencil

-- ================================================================= acts

namespace Act

/-- All operands that an act evaluates meet a condition. -/
def Operands (P : Expr → Prop) : Act → Prop
  | .evaluate _ e => P e
  | .renderIn _ t | .render _ _ _ t =>
    ∀ n ∈ t.nodes, n.Meets P fun _ => True

variable {x : Lodger} {w u : World} {calls : Nat}

/-- An act keeps the lodger where it is, or calls it and remembers. -/
theorem tends_run (honce : x.OnceEach w) {a : Act} (ha : a.Meets u.Knows)
    (hwraps : a.Operands fun e =>
      e.Commands fun c => ¬x.container.Wraps x.slot c) :
    Eval.Tends x w u.store.size calls (fun _ => True) a.run u := by
  have hevaluates (ctx : ContextId) :
      EvaluatesUnless (x.conduct w u.store.size calls) (x.Raises w) ctx
        (fun e => e.All u.Knows ∧
          e.Commands fun c => ¬x.container.Wraps x.slot c) Anything :=
    Eval.evaluates_lodging honce ctx
  cases a with
  | evaluate ctx e =>
    exact .mono (fun _ _ _ _ => trivial)
      ((hevaluates ctx).operand u e ⟨ha, hwraps⟩)
  | renderIn ctx t =>
    have hmeets := fun n hn => (ha n hn).and (hwraps n hn)
    exact .bind ((hevaluates ctx).renderIn (fun _ _ => trivial) hmeets)
      fun _ _ _ (_ : Anything _ _) => .pure trivial
  | render assigns environments strict t =>
    obtain ⟨hassigns, henvironments, ht⟩ := ha
    have hmeets := fun n hn => (ht n hn).and (hwraps n hn)
    refine .bind (.bind (Eval.tends_newContext
      (Eval.knows_environments hassigns henvironments) strict)
      fun ctx _ _ _ => (hevaluates ctx).renderIn (fun _ _ => trivial) hmeets)
      fun _ _ _ (_ : Anything _ _) => .pure trivial

/-- A run keeps the lodger where it is, or calls it and remembers, if no
act ends where a call of it has raised. -/
theorem runAll_lodges (honce : x.OnceEach w) {acts : List Act}
    (hu : u.WellFormed) (hremembers : w.Remembers u)
    (hlodges : x.Lodges calls u) (hacts : ∀ a ∈ acts, a.Meets u.Knows)
    (hwraps : ∀ a ∈ acts, a.Operands fun e =>
      e.Commands fun c => ¬x.container.Wraps x.slot c)
    (hreturns : ∀ before a after, acts = before ++ a :: after → ∀ f t,
      a.run (runAll run before u).2 = (.error f, t) → ¬x.Raises w t f) :
    x.Lodges calls (runAll run acts u).2 := by
  induction acts generalizing u with
  | nil => exact hlodges
  | cons a rest ih =>
    obtain ⟨ha, hrest⟩ := List.forall_mem_cons.1 hacts
    obtain ⟨hwrap, hwraps⟩ := List.forall_mem_cons.1 hwraps
    rcases tends_run honce ha hwrap
        ⟨⟨hu, Nat.le_refl _⟩, hremembers, hlodges⟩ with
      ⟨f, hfails, hraises⟩ | ⟨-, ⟨⟨hu', hsize⟩, hremembers', hlodges'⟩, -⟩
    · exact absurd hraises
        (hreturns [] a rest rfl f _ (Prod.ext hfails rfl))
    · refine ih hu' hremembers' hlodges'
        (fun b hb => (hrest b hb).mono fun _ hv => hv.mono hsize) hwraps
        fun before b after heq f t hrun => ?_
      exact hreturns (a :: before) b after (by rw [heq]; rfl) f t hrun

/-- A deferred value that stands in one slot of a list or table, and nowhere
else, is called at most once, whatever is done with the data: by
expressions and renders, any number of them, and in whatever contexts. It
has to return wherever it is called, and not to call itself on the way. And
no command may hand it out unforced: in a list of its own nowhere, and as
it is not in the markup that deferred values and drops read. -/
theorem runAll_calls_once (hw : w.WellFormed) {acts : List Act}
    (hacts : ∀ a ∈ acts, a.Meets w.Knows) (hstands : x.Stands w)
    (hwraps : ∀ a ∈ acts, a.Operands fun e =>
      e.Commands fun c => ¬x.container.Wraps x.slot c)
    (honce : x.OnceEach w)
    (hreturns : ∀ before a after, acts = before ++ a :: after → ∀ f u,
      a.run (runAll run before w).2 = (.error f, u) → ¬x.Raises w u f) :
    (runAll run acts w).2.callsOf x.label ≤ w.callsOf x.label + 1 := by
  have hstart : w.Remembers w :=
    ⟨[], .start w, (Evolves.start w).memoised⟩
  have hlodges := runAll_lodges honce hw hstart hstands.lodges hacts hwraps
    hreturns
  obtain ⟨o, -, -, hsum⟩ := hlodges.home
  exact Nat.le_of_add_right_le (Nat.le_of_eq hsum)

/-- A deferred value at the start of a list, which a template reaches by
two positions and by markup that something else reads. The command hands it
out to be written, which does not call it. -/
theorem runAll_calls_once_list :
    ∃ (x : Lodger) (w : World) (t : Template) (acts : List Act),
      (Template.parse .standard .lax
        "{{ l.first }}{{ m }}{{ l[0] }}{{ l[-2] }}" (.fresh false)).1 =
          .ok t ∧
      acts = [.render none [.object 0] true t,
        .render none [.object 0] true t] ∧
      w.store.objects = #[
        .table [(.text "l", .object 1), (.text "m", .object 3)],
        .list [.object 2, .int 7],
        .deferred ⟨"a", .function, .yield (.text "A")⟩,
        .deferred ⟨"b", .function, .read "l[0]"⟩] ∧
      x.value = .object 2 ∧ x.label = "a" ∧ x.Stands w ∧
      (runAll run acts w).1.map Except.toOption =
        [some (.text "<deferred a>AAA"), some (.text "AAAA")] ∧
      (runAll run acts w).2.callsOf x.label ≤ w.callsOf x.label + 1 := by
  let w : World := ⟨⟨#[
      .table [(.text "l", .object 1), (.text "m", .object 3)],
      .list [.object 2, .int 7],
      .deferred ⟨"a", .function, .yield (.text "A")⟩,
      .deferred ⟨"b", .function, .read "l[0]"⟩]⟩, #[], [], .fresh false⟩
  let x : Lodger := ⟨2, ⟨"a", .function, .yield (.text "A")⟩, 1,
    .list [.object 2, .int 7], 0⟩
  let acts (t : Template) : List Act :=
    [.render none [.object 0] true t, .render none [.object 0] true t]
  have hw : w.WellFormed := by decide +kernel
  have hguarded : x.Guarded "l[0]" := by
    intro e he
    have hparse : (Expr.parse "l[0]").toOption = some (.path (.step
        (.root (.const (.text "l"))) (.const (.int 0)) none)) := by
      decide +kernel
    rw [he] at hparse
    cases hparse
    simp [Expr.Commands, Path.Commands]
  have hclear : ∀ i o, w.store.get? i = some o → x.Clear i o := by
    intro i o ho
    rcases i with _ | _ | _ | _ | i
    · cases ho
      exact .of_values (show Value.object 2 ∉ _ by decide)
        (fun _ heq => by cases heq) fun _ hm => by cases hm
    · cases ho
      refine ⟨show Value.object 2 ∉ _ by decide, fun k hk => ?_,
        (fun _ heq => by cases heq), fun _ hm => by cases hm⟩
      rcases k with _ | _ | k
      · exact ⟨rfl, rfl⟩
      · cases hk
      · cases hk
    · cases ho
      exact ⟨show Value.object 2 ∉ _ by decide, (fun _ hk => by cases hk),
        (fun _ _ _ => rfl), fun _ hm => by cases hm⟩
    · cases ho
      refine ⟨show Value.object 2 ∉ _ by decide, (fun _ hk => by cases hk),
        fun d hd hlabel => ?_, List.forall_mem_singleton.2 hguarded⟩
      cases hd
      exact absurd hlabel (show "b" ≠ "a" by decide)
    · cases ho
  have hstands : x.Stands w := ⟨rfl, rfl, rfl, hclear⟩
  have hrun : (Template.parse .standard .lax
      "{{ l.first }}{{ m }}{{ l[0] }}{{ l[-2] }}"
      (.fresh false)).1.toOption.map (fun t => decide (
        (runAll run (acts t) w).1.map Except.toOption =
          [some (.text "<deferred a>AAA"), some (.text "AAAA")])) =
      some true := by
    decide +kernel
  -- the template is whatever reading answers, and reading answers
  generalize hparsed : (Template.parse .standard .lax
    "{{ l.first }}{{ m }}{{ l[0] }}{{ l[-2] }}" (.fresh false)).1 = read
    at hrun
  cases read with
  | error f => cases hrun
  | ok t =>
    have hdata : w.Knows (.object 0) := Value.below_object.2 (by decide)
    have hact : (Act.render none [.object 0] true t).Meets w.Knows :=
      ⟨(fun _ hv => nomatch hv), List.forall_mem_singleton.2 hdata,
        Template.knows_of_parse hparsed w⟩
    have hwrap : (Act.render none [.object 0] true t).Operands fun e =>
        e.Commands fun c => ¬x.container.Wraps x.slot c :=
      fun n hn => (Template.knows_of_parse hparsed w n hn).mono
        (fun e _ => e.commands_of_forall fun _ => id) fun _ => id
    have hcalls {u u' : World} {r : Except Failure Value}
        (hu : w.Remembers u) (h : u.Calls x.value r u') :
        r = .ok (.text "A") ∧
          u'.callsOf x.label = u.callsOf x.label + 1 :=
      Lodger.calls_of_yield rfl rfl hu h
    refine ⟨x, w, t, acts t, rfl, rfl, rfl, rfl, rfl, hstands,
      of_decide_eq_true (Option.some.inj hrun),
      runAll_calls_once hw ?_ hstands ?_ ?_ ?_⟩
    · exact List.forall_mem_cons.2 ⟨hact, List.forall_mem_singleton.2 hact⟩
    · exact List.forall_mem_cons.2 ⟨hwrap, List.forall_mem_singleton.2 hwrap⟩
    · exact fun u y u' hu hcalled => (hcalls hu hcalled).2
    · rintro before a after - f u - ⟨v, hv, hcalled⟩
      cases (hcalls hv hcalled).1

/-- Handed out in a list by the first entry of its table, a deferred value
is called again each time: the list that remembers is a new one. -/
theorem exists_calls_twice :
    ∃ (x : Lodger) (w : World) (t : Template),
      (Template.parse .standard .lax "{{ d.first[1] }}{{ d.first[1] }}"
        (.fresh false)).1 = .ok t ∧
      w.store.objects = #[
        .table [(.text "d", .object 1)],
        .table [(.text "x", .object 2)],
        .deferred ⟨"a", .function, .yield (.text "v")⟩] ∧
      x.value = .object 2 ∧ x.label = "a" ∧ x.Stands w ∧
      (Act.run (.render none [.object 0] true t) w).1.toOption =
        some (.text "vv") ∧
      w.callsOf x.label = 0 ∧
      (Act.run (.render none [.object 0] true t) w).2.callsOf x.label =
        2 := by
  let w : World := ⟨⟨#[
      .table [(.text "d", .object 1)],
      .table [(.text "x", .object 2)],
      .deferred ⟨"a", .function, .yield (.text "v")⟩]⟩,
    #[], [], .fresh false⟩
  let x : Lodger := ⟨2, ⟨"a", .function, .yield (.text "v")⟩, 1,
    .table [(.text "x", .object 2)], 0⟩
  have hclear : ∀ i o, w.store.get? i = some o → x.Clear i o := by
    intro i o ho
    rcases i with _ | _ | _ | i
    · cases ho
      exact .of_values (show Value.object 2 ∉ _ by decide)
        (fun _ heq => by cases heq) fun _ hm => by cases hm
    · cases ho
      refine ⟨show Value.object 2 ∉ _ by decide, fun k hk => ?_,
        (fun _ heq => by cases heq), fun _ hm => by cases hm⟩
      rcases k with _ | k
      · exact ⟨rfl, rfl⟩
      · cases hk
    · cases ho
      exact ⟨show Value.object 2 ∉ _ by decide, (fun _ hk => by cases hk),
        (fun _ _ _ => rfl), fun _ hm => by cases hm⟩
    · cases ho
  have hrun : (Template.parse .standard .lax
      "{{ d.first[1] }}{{ d.first[1] }}" (.fresh false)).1.toOption.map
        (fun t => decide (
          (Act.run (.render none [.object 0] true t) w).1.toOption =
            some (.text "vv") ∧
          (Act.run (.render none [.object 0] true t) w).2.callsOf "a" =
            2)) = some true := by
    decide +kernel
  generalize (Template.parse .standard .lax
    "{{ d.first[1] }}{{ d.first[1] }}" (.fresh false)).1 = read at hrun
  cases read with
  | error f => cases hrun
  | ok t =>
    obtain ⟨htext, hcalls⟩ := of_decide_eq_true (Option.some.inj hrun)
    exact ⟨x, w, t, rfl, rfl, rfl, rfl, ⟨rfl, rfl, rfl, hclear⟩, htext, rfl,
      hcalls⟩

end Act

end Stencil
