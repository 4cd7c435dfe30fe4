/-
A context with layers is one with a single merged table.

Where no data are deferred and none are drops, a context in which names are
searched through any number of scopes and environments, and one whose only
scope is the table that these merge into, are interchangeable: whatever is
evaluated or rendered has the same outcome in the one as in the other, and
leaves the same world (`interchange_of_merges`). Names need not be texts. A
root that is evaluated may come to any value, to a list as well, which is a
key of no table. Such a context can be made for any other one by setting the
entries of its layers in a new table (`World.flattens_flatten`).

A strict context reports a name that no layer holds. The report tells the
name, and an integer of too many digits cannot be told: then it is this that
fails (`findVariable_overlong`).

The store may grow in between, by lists that entries of tables are put in.
The layers stay what they are, and so does their merging.
-/
import Stencil.Proofs.Evaluation.Lookalike
import Stencil.Proofs.Store.Merging
import Stencil.Scope

namespace Stencil

variable {w : World} {ctx ctx' : ContextId}

/-- Evaluation in one context is evaluation in another one. The second has
a single scope, into which the layers of the first are merged: mappings,
from which nothing deferred and no drop can be reached. -/
structure World.Flattens (w : World) (ctx ctx' : ContextId) : Prop where
  mappings : w.store.Mappings (w.context ctx).layers
  inert : ∀ layer ∈ (w.context ctx).layers, w.store.Inert layer
  flat : ∃ scope es,
    w.context ctx' = ⟨[scope], [], (w.context ctx).strict⟩ ∧
      w.store.object? scope = some (.table es) ∧
      w.store.Merges (w.context ctx).layers es

/-- A table that is there is a mapping. -/
theorem World.WellFormed.mappings_table (hw : w.WellFormed) {v : Value}
    {es : List (Value × Value)} (hv : w.store.object? v = some (.table es)) :
    w.store.Mappings [v] := by
  obtain ⟨i, rfl, hes⟩ := Store.object?_eq_some.1 hv
  obtain ⟨haccess, hentries⟩ := Store.access_table hv
  refine List.forall_mem_singleton.2 ⟨haccess, fun e he => ?_⟩
  rw [hentries] at he
  exact hw.keys_has hes he

/-- A world with one more context, which has a single scope: a new table,
into which the layers of a context are merged. -/
def World.flatten (w : World) (ctx : ContextId) : World :=
  let (scope, store) :=
    w.store.alloc (.table (w.store.merged (w.context ctx).layers))
  { w with
    store := store
    contexts := w.contexts.push ⟨[scope], [], (w.context ctx).strict⟩ }

/-- Any context with such layers can be flattened. -/
theorem World.flattens_flatten (hw : w.WellFormed)
    (hctx : ctx < w.contexts.size)
    (hmappings : w.store.Mappings (w.context ctx).layers)
    (hinert : ∀ layer ∈ (w.context ctx).layers, w.store.Inert layer) :
    (w.flatten ctx).WellFormed ∧
      (w.flatten ctx).Flattens ctx w.contexts.size := by
  let o : Object := .table (w.store.merged (w.context ctx).layers)
  have hgrown := (Store.Grown.refl w.store).alloc o
  have hmerged (e : Value × Value)
      (he : e ∈ w.store.merged (w.context ctx).layers) :=
    Store.mem_merged hw.closed hmappings he
  have hvalues : ∀ v ∈ o.values, w.store.Has [] v := by
    intro v hv
    obtain ⟨e, he, hv⟩ := List.mem_flatMap.1 hv
    obtain ⟨hkey, layer, -, e', he', hvalue⟩ := hmerged e he
    rcases List.mem_cons.1 hv with rfl | hv
    · exact hkey.1
    · rw [List.mem_singleton.1 hv, hvalue]
      exact (hw.closed.entries_has he').2
  have hwell := hw.alloc hvalues fun es hes e he =>
    (hmerged e (Object.table.inj hes ▸ he)).1.2
  have hkept : ∀ layer ∈ (w.context ctx).layers,
      (w.store.alloc o).2.object? layer = w.store.object? layer :=
    fun layer hlayer => hgrown.object?_eq (hinert layer hlayer).has
  have hcontext : (w.flatten ctx).context ctx = w.context ctx :=
    congrArg (fun c : Option Context => c.getD ⟨[], [], false⟩)
      ((Array.getElem?_push_lt hctx).trans
        (Array.getElem?_eq_getElem hctx).symm)
  refine ⟨?_, ?_⟩
  · refine hwell.push (List.forall_mem_singleton.2 ?_)
    refine Value.below_object.2 ⟨?_, List.not_mem_nil⟩
    rw [Store.size_alloc]
    exact Nat.lt_succ_self _
  · refine ⟨?_, ?_, (w.store.alloc o).1, _, ?_, Store.object?_alloc _ _, ?_⟩
    · rw [hcontext]
      exact hmappings.rewritten hgrown.rewritten hw.closed hkept
    · rw [hcontext]
      exact fun layer hlayer => (hinert layer hlayer).grown hgrown
    · rw [hcontext]
      exact World.context_push _ _ _ _ _
    · rw [hcontext]
      exact (Store.merges_merged hw.closed hmappings).rewritten
        hgrown.rewritten hw.closed hmappings (fun e he => (hmerged e he).1)
        hkept

-- =========================================================== lookalikes

/-- Layers are alike to the table they are merged into. -/
theorem Lookalike.of_merges {store₀ : Store} {layers : List Value}
    {scope : Value} {es : List (Value × Value)}
    (hclosed : store₀.Closed []) (hlayers : store₀.Mappings layers)
    (hinert : ∀ layer ∈ layers, store₀.Inert layer)
    (hscope : store₀.object? scope = some (.table es))
    (hkeys : store₀.Mappings [scope]) (hmerges : store₀.Merges layers es) :
    Lookalike (fun store => store₀.Grown store ∧ store.Closed [])
      (fun _ => True) layers [scope] where
  make h hk hx := ⟨h.1.alloc _, h.2.alloc
    (List.forall_mem_cons.2 ⟨hk.has, List.forall_mem_singleton.2 hx.has⟩)⟩
  drop h layer hlayer := ((hinert layer hlayer).grown h.1).drop?_eq_none
  drop' h := by
    obtain ⟨i, rfl, ho⟩ := Store.object?_eq_some.1 hscope
    refine List.forall_mem_singleton.2 ?_
    have ho' := h.1 i _ ho
    simp only [Store.drop?, Store.object?, ho']
  inert h _ _ := Store.Inert.lookUp? fun layer hlayer =>
    (hinert layer hlayer).grown h.1
  same := by
    rintro store name ⟨hgrown, hclosed'⟩ hname -
    have hkept : ∀ layer ∈ layers,
        store.object? layer = store₀.object? layer :=
      fun layer hlayer => hgrown.object?_eq (hinert layer hlayer).has
    have hkept' : ∀ layer ∈ [scope],
        store.object? layer = store₀.object? layer := by
      obtain ⟨i, rfl, ho⟩ := Store.object?_eq_some.1 hscope
      exact List.forall_mem_singleton.2 ((hgrown i _ ho).trans ho.symm)
    have hes : ∀ e ∈ es, store₀.Keyable e.1 :=
      (Store.access_table hscope).2 ▸
        (hkeys scope (List.mem_singleton.2 rfl)).2
    have hmerges' := hmerges.rewritten hgrown.rewritten hclosed hlayers hes
      hkept
    exact (hmerges'.lookUp?_eq hclosed'
      (hlayers.rewritten hgrown.rewritten hclosed hkept)
      ((hkept' scope (List.mem_singleton.2 rfl)).trans hscope)
      (hkeys.rewritten hgrown.rewritten hclosed hkept') hname).symm

namespace Eval

/-- Actions that mirror each other both ways, in two contexts of one world,
do the same. -/
theorem eq_of_beside {α : Type} {x y : Eval α} {holds : Store → Prop}
    {layers layers' : List Value}
    (h : BesideDoes holds ctx ctx' layers layers' Identically x y w w)
    (h' : BesideDoes holds ctx' ctx layers' layers Identically y x w w)
    (hw : w.Beside holds ctx ctx' layers layers' w) : y w = x w := by
  obtain ⟨houtcome, hrelated⟩ := h.identically hw
  obtain ⟨⟨hleft, -⟩, -⟩ := h hw
  obtain ⟨⟨hright, -⟩, -⟩ := h' hw.symm
  have hworld : (y w).2 = (x w).2 := by
    rw [hrelated.rest, hright, ← hleft]
  exact Prod.ext houtcome hworld

-- ======================================================= single names

/-- Where nothing is deferred and no drop, a name stands for what its value
stands for, or is not defined. -/
theorem findVariable_of_inert {reenter : Reenter}
    (hlayers : ∀ layer ∈ (w.context ctx).layers, w.store.Inert layer)
    (name : Value) :
    (findVariable reenter ctx name w).1 =
      match w.store.lookUp? (w.context ctx).layers name with
      | some x => .ok (w.store.standIn x)
      | none =>
        if (w.context ctx).strict then
          .error (undefined w.store name)
        else .ok .nil := by
  rcases Store.lookUp?_cases
      (fun layer hlayer => (hlayers layer hlayer).drop?_eq_none) name with
    ⟨hfind, hnone⟩ | ⟨layer, x, hfind, hsome, hdrop, hfetch⟩
  · rw [findVariable_of_none hfind, hnone]
  · have hx : w.store.Inert x := .lookUp? hlayers hsome
    have hpart : forcedPart reenter ctx layer name w = (.ok x, w) := by
      rw [← hfetch]
      refine forcedPart_of_fetch hdrop fun y hy => ?_
      cases hfetch.symm.trans hy
      exact hx.deferred?_eq_none
    rw [findVariable, get_bind_apply, hfind, hsome]
    dsimp only
    rw [bind_apply, hpart]
    dsimp only
    rw [note_bind_apply]
    exact congrArg Prod.fst
      (receive_of_inert (w := { w with journal := w.journal.noteWritten _ })
        hx)

/-- Whether mappings hold a key is found out from one to the next, without
failing. -/
theorem anyHolds_mappings {store : Store} {layers : List Value}
    (hlayers : store.Mappings layers) {name : Value}
    (hname : store.isHashable name = true) :
    anyHolds store name layers =
      .ok (store.lookUp? layers name).isSome := by
  induction layers with
  | nil => rfl
  | cons layer rest ih =>
    obtain ⟨⟨haccess, -⟩, hrest⟩ := List.forall_mem_cons.1 hlayers
    have hholds : layerHolds store layer name =
        .ok (store.entry? (store.entries layer) name).isSome := by
      rw [layerHolds, haccess, hname, Store.hasKey_mapping haccess hname]
      rfl
    rw [anyHolds, hholds, Store.lookUp?_cons haccess hname, ih hrest]
    cases store.entry? (store.entries layer) name with
    | none => rfl
    | some x => rfl

/-- In a strict context a name fails if and only if no layer holds it, and
then as a name that is not defined. -/
theorem findVariable_eq_error_iff
    (hlayers : ∀ layer ∈ (w.context ctx).layers, w.store.Inert layer)
    (hstrict : (w.context ctx).strict = true) (name : Value) (f : Failure) :
    (findVariable markup ctx name w).1 = .error f ↔
      (∀ layer ∈ (w.context ctx).layers,
        w.store.hasKey layer name = false) ∧ f = undefined w.store name := by
  rw [findVariable_of_inert hlayers, ← Store.lookUp?_eq_none
    fun layer hlayer => (hlayers layer hlayer).drop?_eq_none]
  cases w.store.lookUp? (w.context ctx).layers name with
  | none =>
    dsimp only
    rw [if_pos hstrict]
    exact ⟨fun h => ⟨rfl, (Except.error.inj h).symm⟩, fun h => h.2 ▸ rfl⟩
  | some x => exact iff_of_false nofun fun h => nomatch h.1

/-- A name that can be written is reported as not defined in a strict
context if and only if no layer holds it, and exactly then any other name
fails over its digits. -/
theorem findVariable_undefined_iff
    (hlayers : ∀ layer ∈ (w.context ctx).layers, w.store.Inert layer)
    (hstrict : (w.context ctx).strict = true) (name : Value) :
    (w.store.isWritable name = true →
      ((∃ s, (findVariable markup ctx name w).1 =
          .error (.undefinedVariable s)) ↔
        ∀ layer ∈ (w.context ctx).layers,
          w.store.hasKey layer name = false)) ∧
    (w.store.isWritable name = false →
      ((findVariable markup ctx name w).1 = .error .tooManyDigits ↔
        ∀ layer ∈ (w.context ctx).layers,
          w.store.hasKey layer name = false)) := by
  simp only [findVariable_eq_error_iff hlayers hstrict, undefined]
  constructor
  · intro hname
    simp only [hname, if_true, exists_and_left,
      Failure.undefinedVariable.injEq, exists_eq, and_true]
  · intro hname
    simp only [hname, Bool.false_eq_true, if_false, and_true]

-- ============================================================= the whole

/-- Evaluation cannot tell layers from the one table that they are merged
into. Expressions, conditions and templates have the same outcome, answer
or failure, and leave the same world. The same names are known, and stand
for the same values. In strict contexts, a name that can be a key and can be
written is reported as not defined if and only if none of the layers holds
it, and exactly then a name that cannot be written fails over its
digits. -/
theorem interchange_of_merges (hw : w.WellFormed)
    (h : w.Flattens ctx ctx') :
    (∀ e, e.All w.store.Inert → evaluate ctx' e w = evaluate ctx e w) ∧
    (∀ c, c.Meets (Expr.All w.store.Inert) →
      condition ctx' c w = condition ctx c w) ∧
    (∀ t : Template,
      (∀ n ∈ t.nodes, n.Meets (Expr.All w.store.Inert) fun _ => True) →
      renderIn ctx' t w = renderIn ctx t w) ∧
    (∀ name, w.Knows name →
      findVariable markup ctx' name w = findVariable markup ctx name w) ∧
    (∀ name, w.store.Keyable name →
      knows ctx' name w = knows ctx name w) ∧
    ((w.context ctx).strict = true → ∀ c ∈ [ctx, ctx'],
      ∀ name, w.store.Keyable name →
        (w.store.isWritable name = true →
          ((∃ s, (findVariable markup c name w).1 =
              .error (.undefinedVariable s)) ↔
            ∀ layer ∈ (w.context ctx).layers,
              w.store.hasKey layer name = false)) ∧
        (w.store.isWritable name = false →
          ((findVariable markup c name w).1 = .error .tooManyDigits ↔
            ∀ layer ∈ (w.context ctx).layers,
              w.store.hasKey layer name = false))) := by
  obtain ⟨scope, es, hflat, hscope, hmerges⟩ := h.flat
  have hkeys := hw.mappings_table hscope
  have hlike := Lookalike.of_merges hw.closed h.mappings h.inert hscope hkeys
    hmerges
  have hbeside : w.Beside
      (fun store => w.store.Grown store ∧ store.Closed []) ctx ctx'
      (w.context ctx).layers [scope] w :=
    ⟨rfl, rfl, by rw [hflat]; rfl, by rw [hflat], .refl _, hw.closed⟩
  have hK {v : Value} {store : Store} (hv : w.store.Inert v)
      (hstore : w.store.Grown store ∧ store.Closed []) : store.Inert v :=
    hv.grown hstore.1
  have hS (root : Expr) (_ : root.All w.store.Inert) (_ : True) :
      root.Names fun _ => True :=
    Or.inr fun _ => trivial
  have haccord := accord_beside hlike hK hS ctx ctx'
  have haccord' := accord_beside hlike.symm hK hS ctx' ctx
  have hfind (name : Value) (hname : w.Knows name) :
      findVariable markup ctx' name w = findVariable markup ctx name w :=
    eq_of_beside
      (.mono (fun _ _ _ _ hab => hab.1)
        (beside_findVariable hlike hname trivial))
      (.mono (fun _ _ _ _ hab => hab.1)
        (beside_findVariable hlike.symm hname trivial)) hbeside
  have hroots {e : Expr} (he : e.All w.store.Inert) :
      e.All w.store.Inert ∧ e.Roots fun _ => True :=
    ⟨he, .of_all (fun _ => trivial) e⟩
  have hundefined := findVariable_undefined_iff h.inert
  refine ⟨fun e he => ?_, fun c hc => ?_, fun t ht => ?_, hfind,
    fun name hname => ?_, fun hstrict c hc name hname => ?_⟩
  · exact eq_of_beside (haccord.operand w w e (hroots he))
      (haccord'.operand w w e (hroots he)) hbeside
  · have hc' := hc.mono fun _ => hroots
    rw [← Evaluator.condition_evaluate, ← Evaluator.condition_evaluate]
    exact eq_of_beside (haccord.condition hc') (haccord'.condition hc')
      hbeside
  · have ht' := fun n hn => (ht n hn).mono (fun _ => hroots) fun _ => id
    rw [← Evaluator.renderIn_evaluate, ← Evaluator.renderIn_evaluate]
    exact eq_of_beside (haccord.renderIn ht') (haccord'.renderIn ht') hbeside
  · have hsame := hmerges.lookUp?_eq hw.closed h.mappings hscope hkeys
      hname.1
    rw [knows, knows, get_bind_apply, get_bind_apply, hflat,
      anyHolds_mappings h.mappings hname.2, ← hsame]
    exact congrArg (fun r => ofExcept r w) (anyHolds_mappings hkeys hname.2)
  · rcases List.mem_cons.1 hc with rfl | hc
    · exact hundefined hstrict name
    · obtain rfl := List.mem_singleton.1 hc
      rw [hfind name hname.1]
      exact hundefined hstrict name

/-- An inner scope hides a name with nil and the key 1 with the key true, a
frozen environment comes last, and a name is evaluated: its value is the
same from the scopes and from the table they are merged into, which has the
key 1. A name that no layer holds is not defined in the merged table. -/
theorem interchange_of_merges_shadowed :
    ∃ (w : World) (root hidden : Expr),
      w.store.objects = #[
        .table [(.text "x", .int 1), (.text "y", .object 4),
          (.int 1, .text "one")],
        .table [(.text "x", .nil), (.bool true, .text "yes")],
        .frozen [(.text "x", .int 5), (.text "k", .bool true)],
        .table [(.int 1, .text "yes"), (.text "k", .bool true),
          (.text "x", .nil), (.text "y", .object 4)],
        .list [.int 7]] ∧
      w.contexts = #[⟨[.object 1, .object 0], [.object 2], true⟩,
        ⟨[.object 3], [], true⟩] ∧
      Expr.parse "[k]" = .ok root ∧ Expr.parse "x" = .ok hidden ∧
      (evaluate 0 root w).1.toOption = some (.text "yes") ∧
      evaluate 1 root w = evaluate 0 root w ∧
      (evaluate 0 hidden w).1.toOption = some .nil ∧
      evaluate 1 hidden w = evaluate 0 hidden w ∧
      knows 1 (.text "y") w = knows 0 (.text "y") w ∧
      ∃ s, (findVariable markup 1 (.text "z") w).1 =
        .error (.undefinedVariable s) := by
  let w : World := ⟨⟨#[
      .table [(.text "x", .int 1), (.text "y", .object 4),
        (.int 1, .text "one")],
      .table [(.text "x", .nil), (.bool true, .text "yes")],
      .frozen [(.text "x", .int 5), (.text "k", .bool true)],
      .table [(.int 1, .text "yes"), (.text "k", .bool true),
        (.text "x", .nil), (.text "y", .object 4)],
      .list [.int 7]]⟩,
    #[⟨[.object 1, .object 0], [.object 2], true⟩,
      ⟨[.object 3], [], true⟩], [], .fresh false⟩
  let root : Expr := .path (.root (.path (.root (.const (.text "k")))))
  let hidden : Expr := .path (.root (.const (.text "x")))
  have hw : w.WellFormed := by decide +kernel
  have hidle : ∀ o ∈ w.store.objects.toList, o.acts = false := by
    decide +kernel
  have hflattens : w.Flattens 0 1 := by
    refine ⟨?_, fun layer hlayer => ?_, .object 3, _, rfl, rfl, ?_, ?_⟩
    · decide +kernel
    · exact Store.inert_of_all hw.closed (fun i o ho =>
        hidle o (Array.mem_toList_iff.2 (Array.mem_of_getElem? ho)))
        (hw.layers 0 layer hlayer)
    · decide +kernel
    · decide +kernel
  obtain ⟨hexpr, -, -, -, hknows, hundefined⟩ :=
    interchange_of_merges hw hflattens
  have hscalar (name : String) : w.store.Inert (.text name) :=
    .of_scalar fun i hi => by cases hi
  refine ⟨w, root, hidden, rfl, rfl, ?_, ?_, ?_, hexpr root (hscalar _), ?_,
    hexpr hidden (hscalar _), hknows _ ?_, ?_⟩
  · decide +kernel
  · decide +kernel
  · decide +kernel
  · decide +kernel
  · decide +kernel
  · refine ((hundefined rfl 1 ?_ (.text "z") ?_).1 rfl).2 ?_
    · decide +kernel
    · decide +kernel
    · decide +kernel

/-- The least integer of too many digits is in no layer, and yet it is not
reported as a name that is not defined: it fails over its digits. -/
theorem findVariable_overlong :
    let w : World := { World.fresh false with
      store := ⟨#[.table []]⟩
      contexts := #[⟨[.object 0], [], true⟩] }
    (∀ layer ∈ (w.context 0).layers,
        w.store.hasKey layer (.int (10 ^ 4300)) = false) ∧
      (findVariable markup 0 (.int (10 ^ 4300)) w).1 =
        .error .tooManyDigits := by
  intro w
  -- the integer is kept closed: nothing but its length is computed
  have hint : ∀ n : Int, w.store.isWritable (.int n) = Numeral.isWritable n ∧
      ∀ layer ∈ (w.context 0).layers, w.store.hasKey layer (.int n) = false :=
    fun n => ⟨rfl, List.forall_mem_singleton.2 rfl⟩
  obtain ⟨hwritable, hnone⟩ := hint (10 ^ 4300)
  have hlong : Numeral.isWritable (10 ^ 4300) = false := by
    rw [Bool.eq_false_iff, Ne, Numeral.isWritable_iff]
    decide +kernel
  have hw : w.WellFormed := by decide +kernel
  have hidle : ∀ o ∈ w.store.objects.toList, o.acts = false := by
    decide +kernel
  have hinert : ∀ layer ∈ (w.context 0).layers, w.store.Inert layer :=
    fun layer hlayer => Store.inert_of_all hw.closed (fun i o ho =>
      hidle o (Array.mem_toList_iff.2 (Array.mem_of_getElem? ho)))
      (hw.layers 0 layer hlayer)
  have hundefined := findVariable_undefined_iff hinert rfl
    (.int (10 ^ 4300))
  exact ⟨hnone, (hundefined.2 (hwritable.trans hlong)).2 hnone⟩

end Eval

end Stencil
