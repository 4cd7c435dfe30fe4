/-
The ends of a sequence: by name, and by position.

`first` and `last` are commands of a sequence, and 0 and -1 are positions
in it. A position is looked up as any key is: what is found is forced if
it is deferred, the sequence remembers the outcome, and the template
receives it. A command finds the same item (`Store.command?_end`), but
what it answers is received as it is. So the two spellings agree on every
item that is not deferred, and they part on those that are: the command
hands out the deferred value itself, and no call is made.

Both spellings evaluate the same path first, under different texts, which
only notes can tell apart.
-/
import Stencil.Proofs.Evaluation.Lookalike
import Stencil.Proofs.Evaluation.Silence
import Stencil.Proofs.Evaluation.Steps

namespace Stencil

/-- A command that asks for an end of a sequence, and the position of that
end. -/
inductive IsEnd : Command → Int → Prop
  | first : IsEnd .first 0
  | last : IsEnd .last (-1)

namespace Store

variable {store : Store} {v : Value}

/-- A command for an end answers the item at its position. -/
theorem command?_end (hv : store.access v = .sequence) {command : Command}
    {index : Int} (hend : IsEnd command index) :
    store.command? v command = some (.ok (store.item v index), store) := by
  cases hend with
  | first => simp [command?, hv, Access.answers, firstOf]
  | last => simp [command?, hv, Access.answers]

end Store

namespace Eval

variable {reenter : Reenter} {ctx : ContextId} {w w' t : World} {v x : Value}
  {command : Command} {index : Int} {p : Path}

-- ============================================================== a step

/-- A command for an end of a sequence hands out the item there. -/
theorem stepFrom_end (whole : Path)
    (hv : t.store.access v = .sequence) (hend : IsEnd command index) :
    stepFrom reenter ctx whole v (.text command.word) (some command) t =
      (do return some (← receive reenter ctx (t.store.item v index)) :
        Eval (Option Value)) t := by
  have hcommand : (some command).bind (t.store.command? v) =
      some (.ok (t.store.item v index), t.store) :=
    Store.command?_end hv hend
  exact stepFrom_of_answers whole (Store.offers_text hv command.word)
    hcommand

/-- A position of a sequence leads to the forced item there. -/
theorem stepFrom_index (whole : Path)
    (hv : t.store.access v = .sequence) (index : Int) :
    stepFrom reenter ctx whole v (.int index) none t =
      (do return some (← receive reenter ctx
          (← forcedPart reenter ctx v (.int index))) :
        Eval (Option Value)) t :=
  stepFrom_of_offers whole (Store.offers_index hv index) none

/-- A deferred value is received as it is. -/
theorem receive_deferred {d : Deferred}
    (hd : t.store.deferred? x = some d) :
    receive reenter ctx x t = (.ok x, t) := by
  obtain ⟨i, rfl, ho⟩ := Store.deferred?_eq_some.1 hd
  change t.store.object? (.object i) = _ at ho
  have hvalue : toTemplateValue reenter (.object i) t =
      (.ok (.object i), t) := by
    rw [toTemplateValue, store_bind_apply, ho]
    rfl
  rw [receive, bind_apply, hvalue]
  show Eval.bind ctx (.object i) t = _
  rw [Eval.bind, store_bind_apply, ho]
  rfl

/-- The deferred part of a value is forced and remembered. -/
theorem forcedPart_deferred {key : Value} {d : Deferred}
    (hdrop : t.store.drop? v = none)
    (hfetch : t.store.fetch v key = .ok x)
    (hd : t.store.deferred? x = some d) :
    forcedPart reenter ctx v key t =
      (do
        let forced ← force reenter ctx d
        note fun s => do
          return "Forced lazy value: " ++ (← s.print key) ++ " = " ++
            (← s.display forced)
        remember v key forced
        return forced : Eval Value) t := by
  rw [forcedPart, bind_apply, part_of_fetch hdrop, hfetch]
  dsimp only
  rw [store_bind_apply, hd]

-- ============================================================ the whole

/-- A path that leads to something else than nil has led there, with
whatever text it is quoted. -/
theorem path_of_evaluate (hp : evaluate ctx (.path p) w = (.ok v, w'))
    (hv : v ≠ .nil) (whole : Path) :
    ∃ t, path markup ctx whole p w = (.ok (some v), t) ∧ Hushed w' t := by
  obtain ⟨found, u, hpath, hrest⟩ := bind_eq_ok.1 hp
  cases found with
  | none =>
    cases hrest
    exact absurd rfl hv
  | some x =>
    cases hrest
    obtain ⟨houtcome, hworld⟩ :=
      (agree_path (hushed_uniform.markupWithin maxDepth) ctx
        p whole p (.refl w)).eq
    rcases hother : path markup ctx whole p w with ⟨r, t⟩
    change (path markup ctx _ p w).1 = (path markup ctx whole p w).1
      at houtcome
    change Hushed (path markup ctx _ p w).2 (path markup ctx whole p w).2
      at hworld
    rw [hpath, hother] at houtcome hworld
    obtain rfl : _ = r := houtcome
    exact ⟨t, rfl, hworld.store, hworld.contexts, hworld.calls⟩

/-- What comes of a path with one more constant step, once its front has
led somewhere, is what the step comes to. -/
theorem agree_evaluate_step
    (hp : evaluate ctx (.path p) w = (.ok v, w')) (hv : v ≠ .nil)
    (key : Value) (hint : Option Command) {x : Eval Value}
    (hx : Parallel Hushed (fun _ => False) x)
    (hstep : ∀ whole t, Hushed w' t →
      stepFrom markup ctx whole v key hint t =
        (do return some (← x) : Eval (Option Value)) t) :
    AgreeHushed
      (evaluate ctx (.path (.step p (.const key) hint)) w) (x w') := by
  let whole : Path := .step p (.const key) hint
  obtain ⟨t, hpath, ht⟩ := path_of_evaluate hp hv whole
  have hrun : path markup ctx whole (.step p (.const key) hint) w =
      (do return some (← x) : Eval (Option Value)) t := by
    rw [path, bind_apply, hpath]
    exact hstep whole t ht
  obtain ⟨houtcome, hworld⟩ := (hx w' t ht).eq
  rcases hxt : x t with ⟨r, u⟩
  rw [hxt] at houtcome hworld
  show AgreeHushed ((path markup ctx whole (.step p (.const key) hint) >>=
    _) w) _
  rw [bind_apply, hrun, bind_apply, hxt]
  cases r with
  | error f => exact Or.inl ⟨houtcome.symm, hworld.symm⟩
  | ok y =>
    refine Or.inl ⟨houtcome.symm, ?_⟩
    exact ⟨hworld.store.symm, hworld.contexts.symm, hworld.calls.symm⟩

/-- The deferred part of a value is forced, remembered and received; what
is noted of it is not heard. -/
theorem agree_forcedPart {key : Value} {d : Deferred}
    (hdrop : t.store.drop? v = none)
    (hfetch : t.store.fetch v key = .ok x)
    (hd : t.store.deferred? x = some d) :
    AgreeHushed ((forcedPart markup ctx v key >>= receive markup ctx) t)
      ((do
        let forced ← force markup ctx d
        remember v key forced
        receive markup ctx forced : Eval Value) t) := by
  have hre := hushed_uniform.markupWithin maxDepth
  have hpart : (forcedPart markup ctx v key >>= receive markup ctx) t =
      (do
        let forced ← force markup ctx d
        note fun s => do
          return "Forced lazy value: " ++ (← s.print key) ++ " = " ++
            (← s.display forced)
        remember v key forced
        receive markup ctx forced : Eval Value) t := by
    rw [bind_apply, forcedPart_deferred hdrop hfetch hd, ← bind_apply]
    simp only [bind_assoc, pure_bind]
  rw [hpart]
  refine (hushed_uniform.force hre ctx d t t (.refl t)).bind
    fun forced u u' hu => ?_
  have hrest : Parallel Hushed (fun _ => False) (do
      remember v key forced
      receive markup ctx forced : Eval Value) :=
    Parallel.bind (hushed_uniform.remember v key forced) fun _ =>
      hushed_uniform.receive hre ctx forced
  rw [note_bind_apply]
  exact hrest _ _ ⟨hu.store, hu.contexts, hu.calls⟩

/-- The ends of a sequence by name and by position. Whatever path leads to
a list, a tuple or a range, in whatever context: if the item at the end is
not deferred, both spellings come to the same value or fail alike, and
leave the same objects and the same counts of calls. If it is deferred,
the position leads to what it is forced to, which the sequence remembers;
the command hands out the deferred value itself, and makes no call. -/
theorem evaluate_end (ctx : ContextId) (p : Path) {w w' : World}
    {v : Value} (hp : evaluate ctx (.path p) w = (.ok v, w'))
    (hv : w'.store.access v = .sequence) {command : Command} {index : Int}
    (hend : IsEnd command index) :
    let named := evaluate ctx
      (.path (.step p (.const (.text command.word)) (some command))) w
    let placed := evaluate ctx
      (.path (.step p (.const (.int index)) none)) w
    let item := w'.store.item v index
    (w'.store.deferred? item = none →
      named.1 = placed.1 ∧ Hushed named.2 placed.2) ∧
    ∀ d, w'.store.deferred? item = some d →
      let forced := (do
        let y ← force markup ctx d
        remember v (.int index) y
        receive markup ctx y : Eval Value) w'
      named.1 = .ok item ∧ Hushed named.2 w' ∧
        placed.1 = forced.1 ∧ Hushed placed.2 forced.2 := by
  intro named placed item
  have hre := hushed_uniform.markupWithin maxDepth
  have hne : v ≠ .nil := by
    rintro rfl
    cases hv
  have hnamed : AgreeHushed named (receive markup ctx item w') := by
    refine agree_evaluate_step hp hne _ _
      (hushed_uniform.receive hre ctx item) fun whole t ht => ?_
    have hitem : t.store.item v index = item := by rw [← ht.store]
    rw [stepFrom_end whole (ht.store ▸ hv) hend, hitem]
  have hplaced : AgreeHushed placed
      ((forcedPart markup ctx v (.int index) >>= receive markup ctx) w') := by
    refine agree_evaluate_step hp hne _ _
      (Parallel.bind (hushed_uniform.forcedPart hre ctx v (.int index))
        fun y => hushed_uniform.receive hre ctx y) fun whole t ht => ?_
    rw [stepFrom_index whole (ht.store ▸ hv) index, bind_assoc]
  have hdrop := Store.drop?_sequence hv
  have hfetch := Store.fetch_sequence hv index
  refine ⟨fun hd => ?_, fun d hd => ?_⟩
  · have hpart : forcedPart markup ctx v (.int index) w' = (.ok item, w') := by
      rw [forcedPart_of_fetch hdrop fun x hx => ?_, hfetch]
      cases hfetch.symm.trans hx
      exact hd
    rw [bind_apply, hpart] at hplaced
    obtain ⟨hnamed, hworld⟩ := hnamed.eq
    obtain ⟨hplaced, hworld'⟩ := hplaced.eq
    exact ⟨hnamed.trans hplaced.symm, hworld.trans hworld'.symm⟩
  · rw [receive_deferred hd] at hnamed
    obtain ⟨hnamed, hworld⟩ := hnamed.eq
    obtain ⟨hplaced, hworld'⟩ := hplaced.eq
    obtain ⟨hforced, hworld''⟩ := (agree_forcedPart hdrop hfetch hd).eq
    exact ⟨hnamed, hworld, hplaced.trans hforced, hworld'.trans hworld''⟩

/-- A list whose first item is deferred, and whose last one is not. -/
theorem evaluate_end_list :
    ∃ w w' : World,
      evaluate 0 (.path (.root (.const (.text "l")))) w =
        (.ok (.object 1), w') ∧
      w'.store.item (.object 1) 0 = .object 0 ∧
      (evaluate 0 (.path (.step (.root (.const (.text "l")))
        (.const (.text "first")) (some .first))) w).1 = .ok (.object 0) ∧
      let first := evaluate 0 (.path (.step (.root (.const (.text "l")))
        (.const (.int 0)) none)) w
      let forced := (do
        let y ← force markup 0 ⟨"a", .function, .yield (.text "v")⟩
        remember (.object 1) (.int 0) y
        receive markup 0 y : Eval Value) w'
      first.1 = forced.1 ∧ Hushed first.2 forced.2 ∧
      let named := evaluate 0 (.path (.step (.root (.const (.text "l")))
        (.const (.text "last")) (some .last))) w
      let placed := evaluate 0 (.path (.step (.root (.const (.text "l")))
        (.const (.int (-1))) none)) w
      named.1 = placed.1 ∧ Hushed named.2 placed.2 := by
  let w : World := ⟨⟨#[.deferred ⟨"a", .function, .yield (.text "v")⟩,
      .list [.object 0, .int 7], .table [(.text "l", .object 1)]]⟩,
    #[⟨[.object 2], [], false⟩], [], .fresh false⟩
  rcases hp : evaluate 0 (.path (.root (.const (.text "l")))) w with ⟨r, w'⟩
  have hrun : (evaluate 0 (.path (.root (.const (.text "l")))) w).1 =
        .ok (.object 1) ∧
      (evaluate 0 (.path (.root (.const (.text "l")))) w).2.store.objects =
        w.store.objects := by
    decide +kernel
  rw [hp] at hrun
  obtain ⟨rfl, hobjects⟩ := hrun
  have hstore : w'.store = w.store := congrArg Store.mk hobjects
  have hv : w'.store.access (.object 1) = .sequence := by
    rw [hstore]
    rfl
  have hitem : w'.store.item (.object 1) 0 = .object 0 := by
    rw [hstore]
    rfl
  have hdeferred : w'.store.deferred? (w'.store.item (.object 1) 0) =
      some ⟨"a", .function, .yield (.text "v")⟩ := by
    rw [hstore]
    rfl
  have hlast : w'.store.deferred? (w'.store.item (.object 1) (-1)) =
      none := by
    rw [hstore]
    rfl
  obtain ⟨hnamed, -, hplaced, hworld⟩ :=
    (evaluate_end 0 _ hp hv .first).2 _ hdeferred
  rw [hitem] at hnamed
  exact ⟨w, w', hp, hitem, hnamed, hplaced, hworld,
    (evaluate_end 0 _ hp hv .last).1 hlast⟩

/-- The two spellings of the first item of a list, as they are read, come
to different values where the item is deferred: one to what it yields,
the other to the deferred value, which is not called. -/
theorem exists_named_ne_placed :
    ∃ (w : World) (named placed : Expr),
      Expr.parse "l.first" = .ok named ∧ Expr.parse "l[0]" = .ok placed ∧
      (evaluate 0 (.path (.root (.const (.text "l")))) w).1 =
        .ok (.object 1) ∧
      w.store.object? (.object 1) = some (.list [.object 0]) ∧
      (evaluate 0 named w).1 = .ok (.object 0) ∧
      (evaluate 0 named w).2.calls = [] ∧
      (evaluate 0 placed w).1 = .ok (.text "v") ∧
      (evaluate 0 placed w).2.calls = [("a", 1)] := by
  let w : World := ⟨⟨#[.deferred ⟨"a", .function, .yield (.text "v")⟩,
      .list [.object 0], .table [(.text "l", .object 1)]]⟩,
    #[⟨[.object 2], [], false⟩], [], .fresh false⟩
  refine ⟨w, .path (.step (.root (.const (.text "l")))
      (.const (.text "first")) (some .first)),
    .path (.step (.root (.const (.text "l"))) (.const (.int 0)) none), ?_⟩
  decide +kernel

end Eval

end Stencil
