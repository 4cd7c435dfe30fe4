/-
What evaluation changes in the data: nothing but what it remembers.

Every action of the evaluator takes a well formed world to one that it
evolves to, and what it answers is there in that world. So whatever is
evaluated or rendered, and whether it answers or fails on the way, slots of
lists and tables hold what they held, or what deferred values that stood in
them have answered, and all other data are as they were, in all contexts
with all their scopes.

The one place where this takes an argument is where a forced value is put
back. By then forcing it may have gone back to the start any number of
times, through other names of the same list or table, and filled slots of
its own. That the slot is still the one that was read is
`remember_cases`; what forcing did in between is part of the step
(`Evolves.memo`).
-/
import Stencil.Proofs.Evaluation.Evolution
import Stencil.Proofs.Evaluation.Operands
import Stencil.Proofs.Evaluation.Remembering
import Stencil.Proofs.Expr.Scalars

namespace Stencil

-- =========================================================== constants

mutual

/-- All constants of an expression meet a condition. -/
def Expr.All (P : Value → Prop) : Expr → Prop
  | .const v => P v
  | .path p => p.All P
  | .range first last => first.All P ∧ last.All P

/-- All constants of a path meet a condition. -/
def Path.All (P : Value → Prop) : Path → Prop
  | .root name => name.All P
  | .step path key _ => path.All P ∧ key.All P

end

mutual

theorem Expr.Spelled.all {ranges large : Prop} {P : Value → Prop}
    (hP : ∀ v : Value, v.Spelled ranges large → P v) :
    ∀ {e : Expr}, e.Spelled ranges large → e.All P
  | .const v, h => hP v h
  | .path _, h => Path.Spelled.all hP h
  | .range _ _, ⟨_, hfirst, hlast⟩ => ⟨hfirst.all hP, hlast.all hP⟩

theorem Path.Spelled.all {ranges large : Prop} {P : Value → Prop}
    (hP : ∀ v : Value, v.Spelled ranges large → P v) :
    ∀ {p : Path}, p.Spelled ranges large → p.All P
  | .root _, h => Expr.Spelled.all hP h
  | .step _ _ _, ⟨hpath, hkey⟩ =>
    ⟨Path.Spelled.all hP hpath, Expr.Spelled.all hP hkey⟩

end

/-- The constants that markup spells are scalars. -/
theorem Expr.parseChars_all {P : Value → Prop}
    (hP : ∀ v : Value, v.IsScalar → P v) {markup : List Char} {e : Expr}
    (h : parseChars markup = .ok e) : e.All P := by
  have hspelled : e.Spelled True True :=
    parseChars_spelled (fun _ => trivial) h
  exact hspelled.all fun v hv => hP v hv.isScalar

mutual

theorem Expr.All.mono {P P' : Value → Prop} (hP : ∀ v, P v → P' v) :
    ∀ {e : Expr}, e.All P → e.All P'
  | .const v, h => hP v h
  | .path _, h => Path.All.mono hP h
  | .range _ _, ⟨hfirst, hlast⟩ => ⟨hfirst.mono hP, hlast.mono hP⟩

theorem Path.All.mono {P P' : Value → Prop} (hP : ∀ v, P v → P' v) :
    ∀ {p : Path}, p.All P → p.All P'
  | .root _, h => Expr.All.mono hP h
  | .step _ _ _, ⟨hpath, hkey⟩ =>
    ⟨Path.All.mono hP hpath, Expr.All.mono hP hkey⟩

end

-- ============================================================= conduct

/-- A value refers to nothing that is not there. -/
def World.Knows (w : World) (v : Value) : Prop := w.store.Has [] v

/-- A world stays well formed and goes on by the steps of evaluation. Its
objects are at least so many. -/
def Conduct.memory (n : Nat) : Conduct World where
  holds w := w.WellFormed ∧ n ≤ w.store.size
  later w w' := ∃ forced, Evolves w forced w'
  fails _ := True
  refl w := ⟨[], .start w⟩
  trans h h' := by
    obtain ⟨forced, h⟩ := h
    obtain ⟨more, h'⟩ := h'
    exact ⟨forced ++ more, h.trans h'⟩

namespace World.Knows

variable {n : Nat} {w w' : World} {v : Value}

theorem of_scalar (h : v.IsScalar) : w.Knows v := h.below _ _

theorem later (hv : w.Knows v) (h : (Conduct.memory n).later w w') :
    w'.Knows v := by
  obtain ⟨forced, h⟩ := h
  exact hv.mono h.size_le

end World.Knows

namespace Eval

variable {n : Nat} {w : World} {reenter : Reenter} {ctx : ContextId}

/-- An action answers with a value that is there. -/
abbrev Recalls (n : Nat) (x : Eval Value) (w : World) : Prop :=
  Behaves (.memory n) World.Knows x w

/-- An action may answer with a value, which is there. -/
abbrev Recalls? (n : Nat) (x : Eval (Option Value)) (w : World) : Prop :=
  Behaves (.memory n) (fun w r => ∀ v ∈ r, w.Knows v) x w

-- ========================================================== the world

/-- Telling something changes no more than the journal. -/
theorem memory_tell (tell : World → Journal) :
    Behaves (.memory n) Anything
      (modify fun w => { w with journal := tell w } : Eval PUnit) w :=
  .modify fun ⟨hw, hn⟩ => ⟨⟨[], .tell _ (.start w)⟩,
    ⟨⟨hw.closed, hw.keys, hw.layers⟩, hn⟩, trivial⟩

theorem memory_note (message : Store → Except Failure String) :
    Behaves (.memory n) Anything (note message) w :=
  memory_tell fun w =>
    w.journal.noteWritten fun _ => (message w.store).toOption

theorem memory_countCall (label : String) :
    Behaves (.memory n) Anything (countCall label) w :=
  .modify fun ⟨hw, hn⟩ => ⟨⟨[], .count label (.start w)⟩,
    ⟨⟨hw.closed, hw.keys, hw.layers⟩, hn⟩, trivial⟩

/-- A new object that is neither deferred nor a table, of values that are
there. -/
theorem memory_alloc {o : Object} (ho : ∀ v ∈ o.values, w.Knows v)
    (hdeferred : ∀ d, o ≠ .deferred d) (htable : ∀ es, o ≠ .table es) :
    Recalls n (alloc o) w := by
  rintro ⟨hw, hn⟩
  have hsize : (w.store.alloc o).2.size = w.store.size + 1 :=
    Store.size_alloc o
  refine ⟨⟨[], .make (.start w) hdeferred⟩, ⟨hw.alloc ho ?_, ?_⟩, .ok ?_⟩
  · exact fun es hes => absurd hes (htable es)
  · exact Nat.le_trans hn (hsize ▸ Nat.le_succ _)
  · rintro i hi
    cases hi
    exact ⟨hsize ▸ Nat.lt_succ_self _, List.not_mem_nil⟩

theorem memory_ofExcept {α : Type} (r : Except Failure α) :
    Behaves (.memory n) (fun _ a => r = .ok a) (ofExcept r) w := by
  cases r with
  | ok a => exact .pure rfl
  | error f => exact .throw trivial

-- ======================================================= single steps

/-- Forcing a deferred value recalls what it yields. -/
theorem memory_force (hre : ∀ c m w, Recalls n (reenter c m) w)
    {d : Deferred} (hd : ∀ v ∈ d.deed.values, w.Knows v) :
    Recalls n (force reenter ctx d) w := by
  refine .bind (memory_countCall d.label) fun _ t hlater _ => ?_
  cases hdeed : d.deed with
  | yield v =>
    have hv : w.Knows v := hd v (by rw [hdeed]; exact List.mem_singleton.2 rfl)
    exact .pure (hv.later hlater)
  | read markup => exact hre ctx markup t
  | fail message => exact .throw trivial

/-- What is deferred yields values that are there. -/
theorem knows_of_deferred (hw : w.WellFormed) {x : Value} {d : Deferred}
    (hd : w.store.deferred? x = some d) :
    ∀ v ∈ d.deed.values, w.Knows v := by
  obtain ⟨i, -, ho⟩ := Store.deferred?_eq_some.1 hd
  exact hw.closed i _ ho

theorem memory_call {v : Value} {called : Eval Value}
    (h : call? w.store v = some called) : Recalls n called w := by
  refine .assume fun hw => ?_
  unfold call? at h
  split at h
  · cases h
    exact .pure (.of_scalar fun i hi => by cases hi)
  · next d ho =>
    split at h
    · cases h
      exact .throw trivial
    · cases h
      refine memory_force (fun _ _ _ => .throw trivial) fun v hv => ?_
      exact hw.1.closed.has_of_object? ho hv
  · cases h

theorem memory_missing (d : Drop) (key : Value) :
    Recalls n (missing d key) w := by
  refine .get_bind ?_
  split
  · split
    · exact .refuse (fun _ _ => trivial) fun _ => trivial
    · exact .pure (.of_scalar Value.isScalar_nil)
  · exact .pure (.of_scalar Value.isScalar_nil)

/-- A member of a drop answers with what is there. -/
theorem memory_answer (hre : ∀ c m w, Recalls n (reenter c m) w)
    {self : Value} (hself : w.Knows self) (d : Drop) {m : Member}
    (hm : ∀ v ∈ m.values, w.Knows v) :
    Recalls n (answer reenter self d m) w := by
  cases m with
  | method v => exact .pure (hm v (List.mem_singleton.2 rfl))
  | property v =>
    refine .store_bind ?_
    split
    · next hcalled => exact memory_call hcalled
    · exact .pure (hm v (List.mem_singleton.2 rfl))
  | reader markup =>
    dsimp only [answer]
    split
    · exact hre _ markup w
    · exact .throw trivial
  | itself => exact .pure hself
  | data v => exact .pure (hm v (List.mem_singleton.2 rfl))

theorem memory_ask (hre : ∀ c m w, Recalls n (reenter c m) w)
    {self : Value} (hself : w.Knows self) {d : Drop}
    (hd : ∀ v ∈ (Object.drop d).values, w.Knows v) (key : Value) :
    Recalls n (ask reenter self d key) w := by
  refine .store_bind ?_
  split
  · split
    · next hmember =>
      exact memory_answer hre hself d
        fun v hv => hd v (values_of_member? hmember v hv)
    · exact memory_missing d key
  · exact .throw trivial

/-- Host objects stand for values that are there. -/
theorem memory_toTemplateValue (hre : ∀ c m w, Recalls n (reenter c m) w)
    {v : Value} (hv : w.Knows v) :
    Recalls n (toTemplateValue reenter v) w := by
  refine .store_bind (.assume fun ⟨hw, _⟩ => ?_)
  split
  · next ho =>
    exact .pure (hw.closed.has_of_object? ho (List.mem_singleton.2 rfl))
  · next d ho =>
    have hvalues : ∀ x ∈ (Object.drop d).values, w.Knows x :=
      fun x hx => hw.closed.has_of_object? ho hx
    split
    · exact .pure hv
    · exact .pure hv
    -- a property and a stored slot are called where that is possible
    · refine .store_bind ?_
      split
      · next hcalled => exact memory_call hcalled
      · exact .throw trivial
    · refine .store_bind ?_
      split
      · next hcalled => exact memory_call hcalled
      · exact .throw trivial
    · next hlookup =>
      exact memory_answer hre hv d
        fun x hx => hvalues x (values_of_lookup hlookup x hx)
  · exact .pure hv

/-- A drop is bound as a copy that refers to the same values. -/
theorem memory_bind {v : Value} (hv : w.Knows v) :
    Recalls n (Eval.bind ctx v) w := by
  refine .store_bind (.assume fun ⟨hw, _⟩ => ?_)
  split
  · next d ho =>
    split
    · exact .pure hv
    · exact memory_alloc (fun x hx => hw.closed.has_of_object? ho hx)
        (fun _ heq => by cases heq) fun _ heq => by cases heq
  · exact .pure hv

theorem memory_receive (hre : ∀ c m w, Recalls n (reenter c m) w)
    {v : Value} (hv : w.Knows v) : Recalls n (receive reenter ctx v) w :=
  .bind (memory_toTemplateValue hre hv) fun _ _ _ hx => memory_bind hx

-- ============================================================== parts

/-- The part of a drop is what a member answers. -/
theorem memory_part_drop (hre : ∀ c m w, Recalls n (reenter c m) w)
    {v : Value} (hv : w.Knows v) {d : Drop}
    (hdrop : w.store.object? v = some (.drop d)) (key : Value) :
    Recalls n (part reenter v key) w := by
  refine .store_bind (.assume fun ⟨hw, _⟩ => ?_)
  simp only [Store.drop?, hdrop]
  exact memory_ask hre hv (fun x hx => hw.closed.has_of_object? hdrop hx) key

theorem note_bind_apply {α : Type} (message : Store → Except Failure String)
    (x : Unit → Eval α) (w : World) :
    (note message >>= x) w =
      x () { w with
        journal := w.journal.noteWritten fun _ =>
          (message w.store).toOption } :=
  rfl

variable {budget : Nat}

/-- What was found deferred is forced, told of and remembered. What forcing
does in between belongs to the step that fills the slot. -/
theorem memory_remember
    (hre : ∀ c m w, Recalls n (markupWithin budget c m) w)
    {v key x : Value} {d : Deferred} (hv : w.Knows v) (hkey : w.Knows key)
    (hfetch : w.store.fetch v key = .ok x)
    (hd : w.store.deferred? x = some d)
    (message : Value → Store → Except Failure String) :
    Recalls n (do
      let y ← force (markupWithin budget) ctx d
      note (message y)
      remember v key y
      return y) w := by
  rintro ⟨hw, hn⟩
  have hforce : Recalls n (force (markupWithin budget) ctx d) w :=
    memory_force hre (knows_of_deferred hw hd)
  have hforce := hforce ⟨hw, hn⟩
  rw [bind_apply]
  rcases hrun : force (markupWithin budget) ctx d w with ⟨r, u⟩
  rw [hrun] at hforce
  obtain ⟨⟨forced, hevolves⟩, ⟨hu, hun⟩, hends⟩ := hforce
  cases hends with
  | error => exact ⟨⟨forced, hevolves⟩, ⟨hu, hun⟩, .error trivial⟩
  | @ok y hy =>
    have hx : x ≠ .nil := by
      rintro rfl
      cases hd
    have hreshaped : w.store.Reshaped u.store :=
      hevolves.memoised.objects.mono fun _ _ _ => trivial
    have htold : ∀ journal, World.WellFormed { u with journal := journal } :=
      fun _ => ⟨hu.closed, hu.keys, hu.layers⟩
    dsimp only
    rw [note_bind_apply, bind_apply]
    generalize u.journal.noteWritten _ = journal
    rcases remember_cases (u := { u with journal := journal }) hw hreshaped
      hv hkey hfetch hx y with ⟨hrun', -⟩ |
        ⟨id, k, o, o', hid, hk, hid', hrun'⟩
    · rw [hrun']
      exact ⟨⟨forced, .tell _ hevolves⟩, ⟨htold _, hun⟩, .ok hy⟩
    · rw [hrun']
      have hfilled := (htold _).refill hid' hy k
      have hmemo := Evolves.memo (.start w) hid hk
        ⟨budget, ctx, d, hd, hrun⟩ hevolves hid'
      refine ⟨⟨_, .tell _ hmemo⟩, ⟨hfilled, ?_⟩, .ok ?_⟩
      · exact Nat.le_trans hun (Nat.le_of_eq (Store.size_put ..).symm)
      · exact hy.mono (Nat.le_of_eq (Store.size_put ..).symm)

/-- A drop remembers nothing. -/
theorem memory_forget {v key y : Value} {d : Drop}
    (hdrop : w.store.object? v = some (.drop d)) :
    Behaves (.memory n) Anything (remember v key y) w := by
  unfold Behaves
  rw [remember_other hdrop (fun _ heq => by cases heq)
    fun _ heq => by cases heq]
  exact fun hw => ⟨(Conduct.memory n).refl w, hw, .ok trivial⟩

/-- The part of a value under a key, forced if it is deferred. -/
theorem memory_forcedPart
    (hre : ∀ c m w, Recalls n (markupWithin budget c m) w)
    {v key : Value} (hv : w.Knows v) (hkey : w.Knows key) :
    Recalls n (forcedPart (markupWithin budget) ctx v key) w := by
  refine .assume fun ⟨hw, _⟩ => ?_
  cases hdrop : w.store.drop? v with
  | some d =>
    have hobj := Store.drop?_eq_some.1 hdrop
    refine .bind (memory_part_drop hre hv hobj key) fun x t hlater hx => ?_
    refine .store_bind (.assume fun ⟨ht, _⟩ => ?_)
    split
    · exact .pure hx
    · next hd =>
      refine .bind (memory_force hre (knows_of_deferred ht hd))
        fun y u hlater₁ hy => ?_
      refine .bind (memory_note _) fun _ a hlater₂ _ => ?_
      obtain ⟨forced, hevolves⟩ := (Conduct.memory n).trans hlater
        ((Conduct.memory n).trans hlater₁ hlater₂)
      have hstays : a.store.object? v = some (.drop d) :=
        hevolves.memoised.objects.object?_other hobj
          (fun _ heq => by cases heq) fun _ heq => by cases heq
      refine .bind (memory_forget hstays) fun _ b hlater₃ _ => ?_
      exact .pure ((hy.later hlater₂).later hlater₃)
  | none =>
    have hpart : Behaves (.memory n)
        (fun t x => t = w ∧ w.store.fetch v key = .ok x)
        (part (markupWithin budget) v key) w := by
      refine .store_bind ?_
      rw [hdrop]
      cases hfetch : w.store.fetch v key with
      | ok x => exact .pure ⟨rfl, rfl⟩
      | error f => exact .throw trivial
    refine .bind hpart fun x t _ ⟨ht, hfetch⟩ => ?_
    subst ht
    refine .store_bind ?_
    split
    · exact .pure (hw.closed.fetch_has hfetch)
    · next hd => exact memory_remember hre hv hkey hfetch hd _

-- ============================================================== lookup

theorem memory_findVariable
    (hre : ∀ c m w, Recalls n (markupWithin budget c m) w) {name : Value}
    (hname : w.Knows name) :
    Recalls n (findVariable (markupWithin budget) ctx name) w := by
  refine .get_bind (.assume fun ⟨hw, _⟩ => ?_)
  cases hfind : (w.context ctx).layers.find? fun v =>
      w.store.hasKey v name with
  | some layer =>
    have hlayer := hw.layers ctx layer (List.mem_of_find?_eq_some hfind)
    refine .bind (memory_forcedPart hre hlayer hname) fun v t _ hv => ?_
    exact .bind (memory_note _) fun _ u hlater _ =>
      memory_receive hre (hv.later hlater)
  | none =>
    refine .bind (memory_note _) fun _ t _ _ => ?_
    split
    · exact .refuse (fun _ _ => trivial) fun _ => trivial
    · exact .pure (.of_scalar Value.isScalar_nil)

/-- A command answers with what is there. It makes an object at most to put
an entry of a table in. -/
theorem memory_command {v : Value} {command : Command}
    {answer : Except Failure Value} {store : Store}
    (h : w.store.command? v command = some (answer, store)) :
    Behaves (.memory n) (fun t _ => ∀ x, answer = .ok x → t.Knows x)
      (modify fun w => { w with store := store } : Eval PUnit) w := by
  refine .assume fun ⟨hw, hn⟩ => ?_
  have hsame {answer : Except Failure Value}
      (hanswer : ∀ x, answer = .ok x → w.Knows x) :
      Behaves (.memory n) (fun t _ => ∀ x, answer = .ok x → t.Knows x)
        (modify fun u => { u with store := w.store } : Eval PUnit) w :=
    .modify fun hholds => ⟨(Conduct.memory n).refl w, hholds, hanswer⟩
  have hitem (index : Int) :
      ∀ x, (.ok (w.store.item v index) : Except Failure Value) = .ok x →
        w.Knows x := by
    intro x hx
    cases hx
    exact hw.closed.item_has v index
  unfold Store.command? at h
  split at h
  · cases command with
    | size =>
      cases h
      refine hsame fun x hx => ?_
      obtain ⟨length, -, hx⟩ := outcome_bind_eq_ok.1 hx
      cases hx
      exact .of_scalar fun i hi => by cases hi
    | last =>
      cases h
      exact hsame (hitem _)
    | first =>
      simp only [Store.firstOf] at h
      split at h
      · split at h
        · next k x rest hentries =>
          cases h
          have hmem : (k, x) ∈ w.store.entries v := by
            rw [hentries]
            exact List.mem_cons_self ..
          obtain ⟨hk, hx⟩ := hw.closed.entries_has hmem
          have hvalues : ∀ y ∈ (Object.list [k, x]).values, w.Knows y :=
            List.forall_mem_cons.2 ⟨hk, List.forall_mem_singleton.2 hx⟩
          obtain ⟨hlater, hholds, hends⟩ := memory_alloc (n := n) hvalues
            (fun _ heq => by cases heq) (fun _ heq => by cases heq) ⟨hw, hn⟩
          refine .modify fun _ => ⟨hlater, hholds, fun y hy => ?_⟩
          cases hy
          cases hends with
          | ok hknown => exact hknown
        · cases h
          refine hsame fun x hx => ?_
          cases hx
          exact .of_scalar Value.isScalar_nil
      · cases h
        exact hsame (hitem _)
  · cases h

theorem memory_stepFrom
    (hre : ∀ c m w, Recalls n (markupWithin budget c m) w)
    (whole : Path) {v key : Value} (hv : w.Knows v)
    (hkey : w.Knows key) (command : Option Command) :
    Recalls? n (stepFrom (markupWithin budget) ctx whole v key command) w := by
  have hsome {x : Value} {t : World} (hx : t.Knows x) :
      ∀ y ∈ some x, t.Knows y := fun y hy => Option.some.inj hy ▸ hx
  refine .store_bind ?_
  dsimp only
  split
  · refine .bind (memory_forcedPart hre hv hkey) fun x t _ hx => ?_
    refine .bind (memory_receive hre hx) fun y u _ hy => ?_
    exact .pure (hsome hy)
  · split
    · next answer store hcommand =>
      obtain ⟨c, -, hcommand⟩ := Option.bind_eq_some_iff.1 hcommand
      refine .bind (memory_command hcommand) fun _ t _ hanswer => ?_
      refine .bind (memory_ofExcept answer) fun x u hlater hx => ?_
      refine .bind (memory_receive hre ((hanswer x hx).later hlater))
        fun y a _ hy => ?_
      exact .pure (hsome hy)
    · refine .bind (memory_note _) fun _ t _ _ => .get_bind ?_
      split
      · exact .refuse (fun _ _ => trivial) fun _ => trivial
      · exact .pure fun y hy => by cases hy

mutual

/-- An expression is evaluated to what is there. -/
theorem memory_expr (hre : ∀ c m w, Recalls n (markupWithin budget c m) w) :
    ∀ {e : Expr}, e.All (Value.Below [] n) → ∀ w,
      Recalls n (expr (markupWithin budget) ctx e) w
  | .const _, hv, _ => .assume fun ⟨_, hn⟩ => .pure (Value.Below.mono hv hn)
  | .path p, hp, w => by
    refine .bind (memory_path hre _ hp w) fun r t _ hr => ?_
    split
    · next v =>
      exact .bind (memory_note _) fun _ u hlater _ =>
        .pure ((hr v rfl).later hlater)
    · exact .pure (.of_scalar Value.isScalar_nil)
  | .range first last, ⟨hfirst, hlast⟩, w => by
    refine .bind (memory_expr hre hfirst w) fun a t _ _ => .store_bind ?_
    refine .bind (memory_ofExcept _) fun a t _ _ => ?_
    refine .bind (memory_expr hre hlast t) fun b t _ _ => .store_bind ?_
    refine .bind (memory_ofExcept _) fun b t _ _ => ?_
    exact .pure (.of_scalar fun i hi => by cases hi)

/-- A path leads to what is there, or nowhere. -/
theorem memory_path (hre : ∀ c m w, Recalls n (markupWithin budget c m) w)
    (whole : Path) :
    ∀ {p : Path}, p.All (Value.Below [] n) → ∀ w,
      Recalls? n (path (markupWithin budget) ctx whole p) w
  | .root name, hname, w => by
    refine .bind (memory_expr hre hname w) fun key t _ hkey => ?_
    refine .bind (memory_findVariable hre hkey) fun v u _ hv => ?_
    exact .pure fun y hy => Option.some.inj hy ▸ hv
  | .step p key command, ⟨hp, hkey⟩, w => by
    refine .bind (memory_path hre whole hp w) fun r t _ hr => ?_
    split
    · exact .pure fun y hy => by cases hy
    · next v =>
      refine .bind (memory_expr hre hkey t) fun k u hlater hk => ?_
      exact memory_stepFrom hre whole ((hr v rfl).later hlater) hk command

end

-- ============================================================== markup

/-- Markup spells no object. -/
theorem memory_readOperand (markup : String) :
    Behaves (.memory n) (fun _ e => e.All (Value.Below [] n))
      (readOperand markup) w := by
  refine .bind (memory_tell _) fun _ t _ _ => ?_
  refine .mono (fun _ e _ he => ?_) (memory_ofExcept _)
  exact Expr.parseChars_all (fun v hv => hv.below [] n) he

/-- Markup is evaluated to what is there, however deeply evaluation may go
back to its start. -/
theorem memory_markupWithin (budget : Nat) :
    ∀ ctx markup w, Recalls n (markupWithin budget ctx markup) w := by
  induction budget with
  | zero => exact fun _ _ _ => .throw trivial
  | succ budget ih =>
    intro ctx markup w
    exact .bind (memory_readOperand markup) fun e t _ he =>
      memory_expr ih he t

end Eval

/-- Operands whose constants are there evaluate to what is there. -/
theorem evaluates_memory (n : Nat) (ctx : ContextId) :
    Evaluates (.memory n) ctx (Expr.All (Value.Below [] n))
      World.Knows where
  note _ message := Eval.memory_note message
  operand w _ he := Eval.memory_expr (Eval.memory_markupWithin _) he w
  stays hlater hv := hv.later hlater
  operator _ _ _ _ := trivial
  output _ _ _ := trivial

/-- The constants in a template that was read are scalars. -/
theorem Template.parse_all {P : Value → Prop}
    (hP : ∀ v : Value, v.IsScalar → P v) {tags : Registry} {mode : Mode}
    {source : String} {journal : Journal} {t : Template}
    (h : (parse tags mode source journal).1 = .ok t) :
    ∀ n ∈ t.nodes, n.Meets (Expr.All P) fun _ => True := by
  have hround : '(' ∈ source.toList → True := fun _ => trivial
  have hspelled : ∀ n ∈ t.nodes,
      n.Meets (Expr.Spelled True True) fun _ => True :=
    parse_spelled (fun _ _ _ => trivial) hround h
  refine fun n hn => (hspelled n hn).mono (fun e he => ?_) fun _ => id
  exact he.all fun v hv => hP v hv.isScalar

/-- A template that was read can be rendered in any world: what it is
spelled with is everywhere. -/
theorem Template.knows_of_parse {tags : Registry} {mode : Mode}
    {source : String} {journal : Journal} {t : Template}
    (h : (parse tags mode source journal).1 = .ok t) (w : World) :
    ∀ n ∈ t.nodes, n.Meets (Expr.All w.Knows) fun _ => True :=
  parse_all (fun _ => .of_scalar) h

/-- A world to which another one has evolved, and what was forced on the
way accounts for all that has changed. -/
def World.Remembers (w w' : World) : Prop :=
  ∃ forced, Evolves w forced w' ∧ Memoised w forced w'

namespace Eval

variable {w : World}

/-- What behaves leaves a well formed world that remembers. -/
theorem remembers_of_behaves {α : Type} {Q : World → α → Prop} {x : Eval α}
    (hw : w.WellFormed) (hx : Behaves (.memory w.store.size) Q x w) :
    (x w).2.WellFormed ∧ w.Remembers (x w).2 := by
  obtain ⟨⟨forced, hevolves⟩, ⟨hw', -⟩, -⟩ := hx ⟨hw, Nat.le_refl _⟩
  exact ⟨hw', forced, hevolves, hevolves.memoised⟩

/-- A new context has an empty table for its scope. -/
theorem memory_newContext {environments : List Value}
    (henvironments : ∀ v ∈ environments, w.Knows v) (strict : Bool) :
    Behaves (.memory w.store.size) Anything
      (newContext none environments strict) w := by
  rintro ⟨hw, hn⟩
  rw [newContext_apply]
  have hsize : (w.store.alloc (.table [])).2.size = w.store.size + 1 :=
    Store.size_alloc _
  have htable : World.WellFormed
      { w with store := (w.store.alloc (.table [])).2 } := by
    refine hw.alloc (fun v hv => by cases hv) fun es hes e he => ?_
    cases hes
    cases he
  refine ⟨⟨[], .add _ (.make (.start w) fun _ heq => by cases heq)⟩,
    ⟨htable.push ?_, hsize ▸ Nat.le_succ _⟩, .ok trivial⟩
  intro v hv
  rw [Context.layers, List.mem_append, List.mem_singleton] at hv
  rcases hv with rfl | hv
  · rintro i hi
    cases hi
    exact ⟨hsize ▸ Nat.lt_succ_self _, List.not_mem_nil⟩
  · exact (henvironments v hv).mono (hsize ▸ Nat.le_succ _)

/-- What a render looks names up in is there if its data are. -/
theorem knows_environments {assigns : Option Value}
    {environments : List Value} (hassigns : ∀ v ∈ assigns, w.Knows v)
    (henvironments : ∀ v ∈ environments, w.Knows v) :
    ∀ v ∈ assigns.toList ++ environments, w.Knows v := by
  intro v hv
  rcases List.mem_append.1 hv with hv | hv
  · exact hassigns v (Option.mem_toList.1 hv)
  · exact henvironments v hv

/-- A render in a new context is one in a world with an empty table and a
context more. -/
theorem memory_render {assigns : Option Value} {environments : List Value}
    (hassigns : ∀ v ∈ assigns, w.Knows v)
    (henvironments : ∀ v ∈ environments, w.Knows v) (strict : Bool)
    {t : Template}
    (ht : ∀ n ∈ t.nodes,
      n.Meets (Expr.All (Value.Below [] w.store.size)) fun _ => True) :
    Behaves (.memory w.store.size) Anything
      (render assigns environments strict t) w :=
  .bind (memory_newContext (knows_environments hassigns henvironments)
    strict) fun ctx _ _ _ =>
      (evaluates_memory w.store.size ctx).renderIn (fun _ _ => trivial) ht

/-- Evaluation changes the data of a well formed world only in what it
remembers: whatever is evaluated or rendered, in any context, and whether
it answers or fails. The world is well formed again afterwards. -/
theorem remembers_of_wellFormed (hw : w.WellFormed) :
    (∀ ctx e, e.All w.Knows →
      (evaluate ctx e w).2.WellFormed ∧ w.Remembers (evaluate ctx e w).2) ∧
    (∀ ctx text,
      (markup ctx text w).2.WellFormed ∧
        w.Remembers (markup ctx text w).2) ∧
    (∀ ctx c, c.Meets (Expr.All w.Knows) →
      (condition ctx c w).2.WellFormed ∧
        w.Remembers (condition ctx c w).2) ∧
    (∀ ctx (t : Template),
      (∀ n ∈ t.nodes, n.Meets (Expr.All w.Knows) fun _ => True) →
      (renderIn ctx t w).2.WellFormed ∧ w.Remembers (renderIn ctx t w).2) ∧
    ∀ assigns environments strict (t : Template),
      (∀ v ∈ assigns, w.Knows v) → (∀ v ∈ environments, w.Knows v) →
      (∀ n ∈ t.nodes, n.Meets (Expr.All w.Knows) fun _ => True) →
      (render assigns environments strict t w).2.WellFormed ∧
        w.Remembers (render assigns environments strict t w).2 := by
  have hevaluates (ctx : ContextId) := evaluates_memory w.store.size ctx
  refine ⟨fun ctx e he => ?_, fun ctx text => ?_, fun ctx c hc => ?_,
    fun ctx t ht => ?_,
    fun assigns environments strict t hassigns henvironments ht => ?_⟩
  · exact remembers_of_behaves hw ((hevaluates ctx).operand w e he)
  · exact remembers_of_behaves hw (memory_markupWithin _ ctx text w)
  · exact remembers_of_behaves hw ((hevaluates ctx).condition hc)
  · exact remembers_of_behaves hw
      ((hevaluates ctx).renderIn (fun _ _ => trivial) ht)
  · exact remembers_of_behaves hw
      (memory_render hassigns henvironments strict ht)

/-- Two names of one list, and a deferred value that goes back to the
start: a template that was read outputs it, both slots are filled, and
nothing else has changed. -/
theorem remembers_of_wellFormed_shared :
    ∃ (w : World) (t : Template),
      (Template.parse .standard .lax "{{ a }}" (.fresh false)).1 = .ok t ∧
      w.store.objects = #[
        .table [(.text "a", .object 1), (.text "l", .object 2),
          (.text "m", .object 2)],
        .deferred ⟨"outer", .function, .read "m[-2]"⟩,
        .list [.object 3, .int 7],
        .deferred ⟨"inner", .function, .yield (.text "x")⟩] ∧
      (renderIn 0 t w).2.store.objects = #[
        .table [(.text "a", .text "x"), (.text "l", .object 2),
          (.text "m", .object 2)],
        .deferred ⟨"outer", .function, .read "m[-2]"⟩,
        .list [.text "x", .int 7],
        .deferred ⟨"inner", .function, .yield (.text "x")⟩] ∧
      w.WellFormed ∧ w.Remembers (renderIn 0 t w).2 := by
  let w : World := ⟨⟨#[
      .table [(.text "a", .object 1), (.text "l", .object 2),
        (.text "m", .object 2)],
      .deferred ⟨"outer", .function, .read "m[-2]"⟩,
      .list [.object 3, .int 7],
      .deferred ⟨"inner", .function, .yield (.text "x")⟩]⟩,
    #[⟨[.object 0], [], false⟩], [], .fresh false⟩
  have hw : w.WellFormed := by decide +kernel
  have hrun : (Template.parse .standard .lax "{{ a }}"
      (.fresh false)).1.toOption.map
        (fun t => (renderIn 0 t w).2.store.objects) = some #[
      .table [(.text "a", .text "x"), (.text "l", .object 2),
        (.text "m", .object 2)],
      .deferred ⟨"outer", .function, .read "m[-2]"⟩,
      .list [.text "x", .int 7],
      .deferred ⟨"inner", .function, .yield (.text "x")⟩] := by
    decide +kernel
  -- the template is whatever reading answers, and reading answers
  generalize hparsed :
    (Template.parse .standard .lax "{{ a }}" (.fresh false)).1 = read at hrun
  cases read with
  | error f => cases hrun
  | ok t =>
    have hknows := Template.knows_of_parse hparsed w
    have hremembers := (remembers_of_wellFormed hw).2.2.2.1 0 t hknows
    exact ⟨w, t, rfl, rfl, Option.some.inj hrun, hw, hremembers.2⟩

end Eval

end Stencil
