/-
What a template does not name cannot influence it.

Where no name is found out by evaluation, the names that a template looks
up stand in its source. If two lists of data then have the same values
first for each of them, the template renders to the same text from both,
or fails alike (`render_eq_of_lookUp?`). All the data may differ in
everything else: in other names, in what hides what, and in the number of
layers.

The names in a source are scalars. Whether one of them counts as one with
a key is a matter of the key alone, so nothing that rendering adds to the
store changes what the layers have for it.
-/
import Stencil.Proofs.Evaluation.Lookalike

namespace Stencil

/-- Layers that have the same values for scalar names are alike for
them. -/
theorem Lookalike.of_scalars {store₀ : Store} {N : Value → Prop}
    {layers layers' : List Value} (hlayers : ∀ v ∈ layers, store₀.Inert v)
    (hlayers' : ∀ v ∈ layers', store₀.Inert v)
    (hN : ∀ name, N name → name.IsScalar ∧
      store₀.lookUp? layers name = store₀.lookUp? layers' name) :
    Lookalike store₀.Grown N layers layers' where
  make h _ _ := h.alloc _
  drop h v hv := ((hlayers v hv).grown h).drop?_eq_none
  drop' h v hv := ((hlayers' v hv).grown h).drop?_eq_none
  inert h _ _ := Store.Inert.lookUp? fun v hv => (hlayers v hv).grown h
  same := by
    rintro store name h - hname
    obtain ⟨hscalar, hsame⟩ := hN name hname
    rw [Store.lookUp?_scalar hscalar fun v hv =>
        h.object?_eq (hlayers v hv).has,
      Store.lookUp?_scalar hscalar fun v hv =>
        h.object?_eq (hlayers' v hv).has]
    exact hsame

-- ======================================================= new contexts

/-- Data that are alike for scalar names are so in new contexts, which have
an empty scope in front. -/
theorem World.entered_beside {w : World} {data data' : List Value}
    (hdata : ∀ v ∈ data, w.store.Inert v)
    (hdata' : ∀ v ∈ data', w.store.Inert v) (strict : Bool)
    {N : Value → Prop} (hN : ∀ name, N name → name.IsScalar ∧
      w.store.lookUp? data name = w.store.lookUp? data' name) :
    ∃ holds layers layers', Lookalike holds N layers layers' ∧
      (w.entered data strict).Beside holds w.contexts.size w.contexts.size
        layers layers' (w.entered data' strict) := by
  have hmade : (w.store.alloc (.table [])).2.Inert
        (w.store.alloc (.table [])).1 ∧
      ∀ v, w.store.Inert v → (w.store.alloc (.table [])).2.Inert v :=
    Store.Inert.alloc rfl fun x hx => by cases hx
  obtain ⟨hscope, hold⟩ := hmade
  have hempty := Store.object?_alloc w.store (.table [])
  have hgrown := (Store.Grown.refl w.store).alloc (.table [])
  have hinert {data : List Value} (hdata : ∀ v ∈ data, w.store.Inert v) :
      ∀ v ∈ (w.store.alloc (.table [])).1 :: data,
        (w.store.alloc (.table [])).2.Inert v :=
    List.forall_mem_cons.2 ⟨hscope, fun v hv => hold v (hdata v hv)⟩
  refine ⟨_, _, _, Lookalike.of_scalars (hinert hdata) (hinert hdata')
    fun name hname => ?_, rfl, ?_, ?_, ?_, .refl _⟩
  · obtain ⟨hscalar, hsame⟩ := hN name hname
    refine ⟨hscalar, ?_⟩
    rw [Store.lookUp?_cons_empty hempty, Store.lookUp?_cons_empty hempty,
      Store.lookUp?_scalar hscalar fun v hv =>
        hgrown.object?_eq (hdata v hv).has,
      Store.lookUp?_scalar hscalar fun v hv =>
        hgrown.object?_eq (hdata' v hv).has]
    exact hsame
  · rw [context_entered, if_pos rfl]
    rfl
  · rw [context_entered, if_pos rfl]
    rfl
  · rw [context_entered, context_entered, if_pos rfl, if_pos rfl]

/-- Whether a root is a constant of a kind is seen from the root. -/
instance (N : Value → Prop) [DecidablePred N] (root : Expr) :
    Decidable (∃ name, root = .const name ∧ N name) :=
  match root with
  | .const name => decidable_of_iff (N name)
    ⟨fun h => ⟨name, rfl, h⟩, fun ⟨_, heq, h⟩ => Expr.const.inj heq ▸ h⟩
  | .path _ | .range _ _ => .isFalse fun ⟨_, heq, _⟩ => nomatch heq

namespace Eval

/-- A template of which all names stand in its source renders to the same
text, or fails alike, from any two lists of data that have the same values
first for these names and in which nothing is deferred or a drop. It leaves
the same world but for the context that has been added. -/
theorem render_eq_of_lookUp? {tags : Registry} {mode : Mode}
    {source : String} {journal : Journal} {t : Template}
    (hparsed : (Template.parse tags mode source journal).1 = .ok t)
    {w : World} {assigns assigns' : Option Value}
    {environments environments' : List Value}
    (hdata : ∀ v ∈ assigns.toList ++ environments, w.store.Inert v)
    (hdata' : ∀ v ∈ assigns'.toList ++ environments', w.store.Inert v)
    (hnames : ∀ n ∈ t.nodes, n.Meets (Expr.Roots fun root =>
      ∃ name, root = .const name ∧
        w.store.lookUp? (assigns.toList ++ environments) name =
          w.store.lookUp? (assigns'.toList ++ environments') name)
      fun _ => True) (strict : Bool) :
    (render assigns environments strict t w).1 =
        (render assigns' environments' strict t w).1 ∧
      ∃ contexts, (render assigns' environments' strict t w).2 =
        { (render assigns environments strict t w).2 with
          contexts := contexts } := by
  have hmeets (n : Node) (hn : n ∈ t.nodes) :=
    (Template.parse_all (P := Value.IsScalar) (fun _ => id) hparsed n hn).and
      (hnames n hn)
  rw [render_apply, render_apply, ← Evaluator.renderIn_evaluate]
  generalize assigns.toList ++ environments = data at hdata hmeets ⊢
  generalize assigns'.toList ++ environments' = data' at hdata' hmeets ⊢
  obtain ⟨holds, layers, layers', hlayers, hbeside⟩ :=
    World.entered_beside hdata hdata' strict
      (N := fun name => name.IsScalar ∧
        w.store.lookUp? data name = w.store.lookUp? data' name)
      fun name hname => hname
  have hroots (root : Expr) (hscalar : root.All Value.IsScalar) :
      (∃ name, root = .const name ∧
        w.store.lookUp? data name = w.store.lookUp? data' name) →
      root.Names fun name => name.IsScalar ∧
        w.store.lookUp? data name = w.store.lookUp? data' name := by
    rintro ⟨name, rfl, hsame⟩
    exact Or.inl ⟨name, rfl, hscalar, hsame⟩
  have haccord :=
    accord_beside hlayers (fun hv _ => .of_scalar hv) hroots
      w.contexts.size w.contexts.size
  obtain ⟨houtcome, hworld⟩ := (haccord.renderIn hmeets).identically hbeside
  exact ⟨houtcome.symm, _, hworld.rest⟩

/-- A condition, and a key that is looked up itself: what is
rendered is the same from one table and from two others, which have other
names and hide each other. -/
theorem render_eq_of_lookUp?_hidden :
    ∃ (w : World) (t : Template),
      (Template.parse .standard .lax "{% if u.a %}{{ l[i] }}{% endif %}"
        (.fresh false)).1 = .ok t ∧
      w.store.objects = #[
        .table [(.text "u", .object 1), (.text "l", .object 2),
          (.text "i", .int (-1)), (.text "x", .int 7)],
        .table [(.text "a", .bool true)],
        .list [.text "p", .text "q"],
        .table [(.text "y", .nil), (.text "u", .object 1)],
        .table [(.text "u", .nil), (.text "i", .int (-1)),
          (.text "l", .object 2)]] ∧
      (render (some (.object 0)) [] true t w).1.toOption = some "q" ∧
      (render (some (.object 0)) [] true t w).1 =
        (render none [.object 3, .object 4] true t w).1 ∧
      ∃ contexts, (render none [.object 3, .object 4] true t w).2 =
        { (render (some (.object 0)) [] true t w).2 with
          contexts := contexts } := by
  let w : World := ⟨⟨#[
      .table [(.text "u", .object 1), (.text "l", .object 2),
        (.text "i", .int (-1)), (.text "x", .int 7)],
      .table [(.text "a", .bool true)],
      .list [.text "p", .text "q"],
      .table [(.text "y", .nil), (.text "u", .object 1)],
      .table [(.text "u", .nil), (.text "i", .int (-1)),
        (.text "l", .object 2)]]⟩,
    #[], [], .fresh false⟩
  let data : List Value := (some (Value.object 0)).toList ++ []
  let data' : List Value :=
    (none : Option Value).toList ++ [.object 3, .object 4]
  have hw : w.WellFormed := by decide +kernel
  have hidle : ∀ o ∈ w.store.objects.toList, o.acts = false := by
    decide +kernel
  have hinert {v : Value} (hv : w.store.Has [] v) : w.store.Inert v :=
    Store.inert_of_all hw.closed (fun i o ho =>
      hidle o (Array.mem_toList_iff.2 (Array.mem_of_getElem? ho))) hv
  have hrun : (Template.parse .standard .lax
      "{% if u.a %}{{ l[i] }}{% endif %}" (.fresh false)).1.toOption.map
        (fun t => decide (
          (render (some (.object 0)) [] true t w).1.toOption = some "q" ∧
          ∀ n ∈ t.nodes, n.Meets (Expr.Roots fun root =>
            ∃ name, root = .const name ∧
              w.store.lookUp? data name = w.store.lookUp? data' name)
            fun _ => True)) = some true := by
    decide +kernel
  -- the template is whatever reading answers, and reading answers
  generalize hparsed : (Template.parse .standard .lax
    "{% if u.a %}{{ l[i] }}{% endif %}" (.fresh false)).1 = read at hrun
  cases read with
  | error f => cases hrun
  | ok t =>
    obtain ⟨htext, hnames⟩ := of_decide_eq_true (Option.some.inj hrun)
    have hdata : ∀ v ∈ data, w.store.Inert v :=
      List.forall_mem_singleton.2 (hinert (Value.below_object.2 (by decide)))
    have hdata' : ∀ v ∈ data', w.store.Inert v :=
      List.forall_mem_cons.2
        ⟨hinert (Value.below_object.2 (by decide)),
          List.forall_mem_singleton.2
            (hinert (Value.below_object.2 (by decide)))⟩
    exact ⟨w, t, rfl, rfl, htext,
      render_eq_of_lookUp? hparsed hdata hdata' hnames true⟩

end Eval

end Stencil
