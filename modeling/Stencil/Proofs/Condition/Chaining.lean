/-
How a chain of conditions is folded.

The walk along a chain goes from clause to clause with a running result.
At each clause it may do three things: pass it by, look at it and take
its truth for the new result, or look at it and fail. What it did is a
list of visits, in the order of the chain; a walk that failed has no
visits after the failure.

# What is looked at

The first clause always is. A clause linked by `and` is looked at when
the result so far holds, and one linked by `or` when it does not. A clause
that is passed by leaves the world as it is, the journal apart: none of
its deferred values is called.

# What comes out

There is no precedence, and yet the result has a closed form: a chain
holds when some clause that is first, or linked by `or`, holds, and all
clauses after it that are linked by `and` hold. The clauses passed by may
have any truth at all in it: joining the result with what cannot change it
is the same as passing it by (`join_of_not_matters`), so the fold that
skips and the fold over all truths agree.
-/
import Stencil.Condition.Evaluation
import Stencil.Proofs.Sequence

namespace Stencil

-- ============================================================ relations

/-- The running result after a clause of some truth. -/
def Relation.join : Relation → Bool → Bool → Bool
  | .and, result, truth => result && truth
  | .or, result, truth => result || truth

/-- Where a clause matters, its truth is the new result. -/
theorem Relation.join_of_matters {r : Relation} {result : Bool}
    (h : r.matters result = true) (truth : Bool) :
    r.join result truth = truth := by
  cases r <;> cases result <;> simp_all [matters, join]

/-- Where a clause does not matter, no truth of it changes the result. -/
theorem Relation.join_of_not_matters {r : Relation} {result : Bool}
    (h : r.matters result = false) (truth : Bool) :
    r.join result truth = result := by
  cases r <;> cases result <;> simp_all [matters, join]

/-- A clause linked by `and` matters when the result holds, and one linked
by `or` when it does not. -/
theorem Relation.matters_iff {r : Relation} {result : Bool} :
    r.matters result = true ↔
      (r = .and ∧ result = true) ∨ (r = .or ∧ result = false) := by
  cases r <;> cases result <;> decide

-- =============================================================== visits

/-- What a walk along a chain does at a clause. -/
inductive Visit
  /-- The clause is passed by. -/
  | skipped
  /-- The clause is looked at and found to hold or not. -/
  | seen (holds : Bool)
  /-- The clause is looked at, and that fails. -/
  | failed (f : Failure)

/-- The running result after a visit. -/
def Visit.after (result : Bool) : Visit → Bool
  | .seen holds => holds
  | _ => result

/-- The running result after some visits, from one before them. -/
def runningFrom (result : Bool) (visits : List Visit) : Bool :=
  visits.foldl Visit.after result

/-- The running result after the first visits of a walk. -/
def running (visits : List Visit) : Bool := runningFrom false visits

/-- A walk along clauses, from one world to another: each clause is passed
by, which leaves all but the journal as it is, or interpreted. A failure
is the end of the walk. -/
inductive Walks (ctx : ContextId) :
    World → List Clause → List Visit → World → Prop
  | done (w : World) : Walks ctx w [] [] w
  | skip {w u : World} {c : Clause} {cs : List Clause}
      {visits : List Visit} (journal : Journal)
      (rest : Walks ctx { w with journal := journal } cs visits u) :
      Walks ctx w (c :: cs) (.skipped :: visits) u
  | see {w t u : World} {c : Clause} {v : Value} {cs : List Clause}
      {visits : List Visit} (run : Eval.clause ctx c w = (.ok v, t))
      (journal : Journal)
      (rest : Walks ctx { t with journal := journal } cs visits u) :
      Walks ctx w (c :: cs) (.seen v.isTruthy :: visits) u
  | fail {w u : World} {c : Clause} {f : Failure} (cs : List Clause)
      (run : Eval.clause ctx c w = (.error f, u)) :
      Walks ctx w (c :: cs) [.failed f] u

/-- The visits at linked clauses, by their relations, from a running
result, and how the walk ends. -/
inductive Visited :
    Bool → List Relation → List Visit → Except Failure Bool → Prop
  | done (result : Bool) : Visited result [] [] (.ok result)
  | skip {result : Bool} {r : Relation} {rs : List Relation}
      {visits : List Visit} {outcome : Except Failure Bool}
      (idle : r.matters result = false)
      (rest : Visited result rs visits outcome) :
      Visited result (r :: rs) (.skipped :: visits) outcome
  | see {result holds : Bool} {r : Relation} {rs : List Relation}
      {visits : List Visit} {outcome : Except Failure Bool}
      (matters : r.matters result = true)
      (rest : Visited holds rs visits outcome) :
      Visited result (r :: rs) (.seen holds :: visits) outcome
  | fail {result : Bool} {r : Relation} (rs : List Relation) (f : Failure)
      (matters : r.matters result = true) :
      Visited result (r :: rs) [.failed f] (.error f)

-- ================================================ what the visits follow

variable {result holds : Bool} {rs : List Relation} {visits : List Visit}

/-- A clause is looked at when it matters to the result of the visits
before it. -/
theorem Visited.looks_iff {outcome : Except Failure Bool}
    (h : Visited result rs visits outcome) {k : Nat} {visit : Visit}
    (hk : visits[k]? = some visit) :
    visit ≠ .skipped ↔ ∃ r, rs[k]? = some r ∧
      r.matters (runningFrom result (visits.take k)) = true := by
  induction h generalizing k with
  | done => simp at hk
  | skip idle rest ih =>
    cases k with
    | zero => simp_all [runningFrom]
    | succ k => simpa [runningFrom, Visit.after] using ih hk
  | see matters rest ih =>
    cases k with
    | zero =>
      cases hk
      simp [runningFrom, matters]
    | succ k => simpa [runningFrom, Visit.after] using ih hk
  | fail rs f matters =>
    cases k with
    | zero =>
      cases hk
      simp [runningFrom, matters]
    | succ k => simp at hk

/-- A walk that answers has visited every clause. -/
theorem Visited.length_eq
    (h : Visited result rs visits (.ok holds)) :
    visits.length = rs.length := by
  generalize houtcome : Except.ok holds = outcome at h
  induction h with
  | done => rfl
  | skip _ _ ih => simp [ih houtcome]
  | see _ _ ih => simp [ih houtcome]
  | fail => cases houtcome

/-- A walk that answers has failed nowhere. -/
theorem Visited.failed_not_mem
    (h : Visited result rs visits (.ok holds)) (f : Failure) :
    Visit.failed f ∉ visits := by
  generalize houtcome : Except.ok holds = outcome at h
  induction h with
  | done => simp
  | skip _ _ ih => simp [ih houtcome]
  | see _ _ ih => simp [ih houtcome]
  | fail => cases houtcome

/-- A walk that fails does so at its last visit. -/
theorem Visited.getLast?_eq {f : Failure}
    (h : Visited result rs visits (.error f)) :
    visits.getLast? = some (.failed f) := by
  generalize houtcome : Except.error f = outcome at h
  induction h with
  | done => cases houtcome
  | skip _ _ ih => simp [List.getLast?_cons, ih houtcome]
  | see _ _ ih => simp [List.getLast?_cons, ih houtcome]
  | fail =>
    cases houtcome
    rfl

-- ====================================================== the closed form

/-- The fold over relations with a truth for every clause, where nothing is
passed by. The first relation links the clause of number `k`. -/
def folded (truth : Nat → Bool) : Nat → Bool → List Relation → Bool
  | _, result, [] => result
  | k, result, r :: rs => folded truth (k + 1) (r.join result (truth k)) rs

/-- The answer of a walk is that of the fold over any truths that the walk
did not see to be otherwise. -/
theorem Visited.eq_folded
    (h : Visited result rs visits (.ok holds)) {truth : Nat → Bool} {k : Nat}
    (agrees : ∀ j b, visits[j]? = some (.seen b) → truth (k + j) = b) :
    holds = folded truth k result rs := by
  generalize houtcome : Except.ok holds = outcome at h
  induction h generalizing k with
  | done =>
    cases houtcome
    rfl
  | skip idle rest ih =>
    rw [folded, Relation.join_of_not_matters idle]
    refine ih (fun j b hj => ?_) houtcome
    rw [Nat.add_right_comm]
    exact agrees (j + 1) b hj
  | see matters rest ih =>
    rw [folded, Relation.join_of_matters matters,
      show truth k = _ from agrees 0 _ rfl]
    refine ih (fun j b hj => ?_) houtcome
    rw [Nat.add_right_comm]
    exact agrees (j + 1) b hj
  | fail => cases houtcome

/-- All clauses linked by `and` hold, from some number on. -/
def Lasts (truth : Nat → Bool) (k : Nat) (rs : List Relation) : Prop :=
  ∀ j, rs[j]? = some .and → truth (k + j) = true

theorem lasts_cons {truth : Nat → Bool} {k : Nat} {r : Relation} :
    Lasts truth k (r :: rs) ↔
      (r = .and → truth k = true) ∧ Lasts truth (k + 1) rs := by
  constructor
  · intro h
    refine ⟨fun hr => h 0 (congrArg some hr), fun j hj => ?_⟩
    rw [Nat.add_right_comm]
    exact h (j + 1) hj
  · rintro ⟨hhead, htail⟩ (_ | j) hj
    · exact hhead (Option.some.inj hj)
    · have := htail j hj
      rwa [Nat.add_right_comm] at this

/-- A fold holds when its start does and lasts, or when some clause linked
by `or` holds and what comes after it lasts. -/
theorem folded_eq_true_iff {truth : Nat → Bool} {k : Nat} :
    folded truth k result rs = true ↔
      (result = true ∧ Lasts truth k rs) ∨
        ∃ i, rs[i]? = some .or ∧ truth (k + i) = true ∧
          Lasts truth (k + i + 1) (rs.drop (i + 1)) := by
  induction rs generalizing k result with
  | nil => simp [folded, Lasts]
  | cons r rs ih =>
    -- a clause linked by `or` is the first one or a later one
    have hsplit :
        (∃ i, (r :: rs)[i]? = some .or ∧ truth (k + i) = true ∧
          Lasts truth (k + i + 1) ((r :: rs).drop (i + 1))) ↔
        (r = .or ∧ truth k = true ∧ Lasts truth (k + 1) rs) ∨
        ∃ i, rs[i]? = some .or ∧ truth (k + 1 + i) = true ∧
          Lasts truth (k + 1 + i + 1) (rs.drop (i + 1)) := by
      constructor
      · rintro ⟨_ | i, hi, htruth, hlasts⟩
        · exact Or.inl ⟨Option.some.inj hi, htruth, hlasts⟩
        · rw [← Nat.add_assoc, Nat.add_right_comm k i 1] at htruth hlasts
          exact Or.inr ⟨i, hi, htruth, hlasts⟩
      · rintro (⟨rfl, htruth, hlasts⟩ | ⟨i, hi, htruth, hlasts⟩)
        · exact ⟨0, rfl, htruth, hlasts⟩
        · rw [Nat.add_right_comm k 1 i] at htruth hlasts
          exact ⟨i + 1, hi, htruth, hlasts⟩
    rw [folded, ih, hsplit, lasts_cons, ← or_assoc]
    refine or_congr ?_ Iff.rfl
    cases r <;> cases result <;> simp [Relation.join]

-- =============================================================== chains

namespace Condition

/-- The relation that links a clause of a chain; the first has none. -/
def relation? (c : Condition) (k : Nat) : Option Relation :=
  c.links[k]?.bind Prod.fst

/-- Whether a clause is to be looked at, after the visits before it. -/
def Asks (c : Condition) (visits : List Visit) (k : Nat) : Prop :=
  k = 0 ∨
    (c.relation? k = some .and ∧ running (visits.take k) = true) ∨
    (c.relation? k = some .or ∧ running (visits.take k) = false)

/-- Whether a chain holds, given the truth of each clause: some clause that
is first or linked by `or` holds, and so do all clauses after it that are
linked by `and`. -/
def HoldsBy (c : Condition) (truth : Nat → Bool) : Prop :=
  ∃ i < c.links.length, (i = 0 ∨ c.relation? i = some .or) ∧
    truth i = true ∧
    ∀ j > i, c.relation? j = some .and → truth j = true

variable {c : Condition}

/-- The relations of a chain, the first clause apart. -/
theorem relation?_succ (k : Nat) :
    c.relation? (k + 1) = (c.tail.map Prod.fst)[k]? := by
  rw [relation?, links, List.getElem?_cons_succ, List.getElem?_map,
    List.getElem?_map]
  cases c.tail[k]? <;> rfl

/-- After a first clause that was looked at, a linked one is to be looked at
when it matters to the result so far. -/
theorem asks_succ_iff {first : Bool} {k : Nat} :
    c.Asks (.seen first :: visits) (k + 1) ↔
      ∃ r, (c.tail.map Prod.fst)[k]? = some r ∧
        r.matters (runningFrom first (visits.take k)) = true := by
  rw [Asks, relation?_succ]
  have hrunning : running ((Visit.seen first :: visits).take (k + 1)) =
      runningFrom first (visits.take k) := rfl
  rw [hrunning]
  constructor
  · rintro (hzero | ⟨hr, hresult⟩ | ⟨hr, hresult⟩)
    · cases hzero
    · exact ⟨_, hr, Relation.matters_iff.2 (Or.inl ⟨rfl, hresult⟩)⟩
    · exact ⟨_, hr, Relation.matters_iff.2 (Or.inr ⟨rfl, hresult⟩)⟩
  · rintro ⟨r, hr, hmatters⟩
    rcases Relation.matters_iff.1 hmatters with
      ⟨rfl, hresult⟩ | ⟨rfl, hresult⟩
    · exact Or.inr (Or.inl ⟨hr, hresult⟩)
    · exact Or.inr (Or.inr ⟨hr, hresult⟩)

/-- The closed form is what the fold over all truths gives. -/
theorem holdsBy_iff {truth : Nat → Bool} :
    c.HoldsBy truth ↔
      folded truth 1 (truth 0) (c.tail.map Prod.fst) = true := by
  rw [folded_eq_true_iff]
  constructor
  · rintro ⟨_ | i, -, hlink, htruth, hlasts⟩
    · refine Or.inl ⟨htruth, fun j hj => ?_⟩
      rw [Nat.add_comm]
      exact hlasts (j + 1) (Nat.succ_pos j) ((relation?_succ j).trans hj)
    · refine Or.inr ⟨i, ?_, ?_, fun j hj => ?_⟩
      · exact (relation?_succ i).symm.trans (hlink.resolve_left (by simp))
      · rwa [Nat.add_comm]
      · rw [List.getElem?_drop] at hj
        have := hlasts (i + 1 + j + 1) (by omega) ((relation?_succ _).trans hj)
        rwa [show 1 + i + 1 + j = i + 1 + j + 1 by omega]
  · rintro (⟨htruth, hlasts⟩ | ⟨i, hi, htruth, hlasts⟩)
    · refine ⟨0, Nat.succ_pos _, Or.inl rfl, htruth, ?_⟩
      rintro (_ | j) hj hand
      · cases hj
      · rw [relation?_succ] at hand
        have := hlasts j hand
        rwa [Nat.add_comm] at this
    · have hlength : i < c.tail.length := by
        have := (List.getElem?_eq_some_iff.1 hi).1
        rwa [List.length_map] at this
      refine ⟨i + 1, by simpa [links] using hlength,
        Or.inr ((relation?_succ i).trans hi), ?_, ?_⟩
      · rwa [Nat.add_comm]
      · rintro (_ | j) hj hand
        · cases hj
        · rw [relation?_succ] at hand
          have := hlasts (j - (i + 1)) (by
            rwa [List.getElem?_drop, show i + 1 + (j - (i + 1)) = j by omega])
          rwa [show 1 + i + 1 + (j - (i + 1)) = j + 1 by omega] at this

end Condition

-- ============================================================== the walk

namespace Eval

/-- Telling of the running result changes nothing but the journal. -/
theorem noteClause_bind_apply {α : Type} (relation : String) (c : Clause)
    (result : Bool) (x : Unit → Eval α) (w : World) :
    ∃ journal, (noteClause relation c result >>= x) w =
      x () { w with journal := journal } :=
  ⟨_, rfl⟩

/-- The linked clauses of a chain are walked along by their relations. -/
theorem linked_walks (ctx : ContextId) (tail : List (Relation × Clause))
    (result : Bool) (w : World) :
    ∃ visits,
      Walks ctx w (tail.map Prod.snd) visits (linked ctx result tail w).2 ∧
      Visited result (tail.map Prod.fst) visits
        (linked ctx result tail w).1 := by
  induction tail generalizing result w with
  | nil => exact ⟨[], .done w, .done result⟩
  | cons link rest ih =>
    obtain ⟨r, c⟩ := link
    rw [linked, List.map_cons, List.map_cons]
    cases hr : r.matters result with
    | false =>
      obtain ⟨journal, htold⟩ := noteClause_bind_apply r.word c result
        (fun _ => linked ctx result rest) w
      obtain ⟨visits, hwalks, hvisited⟩ :=
        ih result { w with journal := journal }
      refine ⟨.skipped :: visits, ?_, ?_⟩
      · exact .skip journal (by simpa [htold] using hwalks)
      · exact .skip hr (by simpa [htold] using hvisited)
    | true =>
      rcases hrun : clause ctx c w with ⟨f | v, t⟩
      · refine ⟨[.failed f], ?_, ?_⟩
        · have hfail := Walks.fail (rest.map Prod.snd) hrun
          simpa [bind_apply, hrun] using hfail
        · have hfail := Visited.fail (rest.map Prod.fst) f hr
          simpa [bind_apply, hrun] using hfail
      · obtain ⟨journal, htold⟩ := noteClause_bind_apply r.word c v.isTruthy
          (fun _ => linked ctx v.isTruthy rest) t
        obtain ⟨visits, hwalks, hvisited⟩ :=
          ih v.isTruthy { t with journal := journal }
        refine ⟨.seen v.isTruthy :: visits, ?_, ?_⟩
        · refine .see hrun journal ?_
          simpa [bind_apply, hrun, ← htold] using hwalks
        · refine .see hr ?_
          simpa [bind_apply, hrun, ← htold] using hvisited

/-- What the walk along a chain looks at, and what comes out. The visits
tell it: they are those of a walk from the world before to the world after
in the order of the chain, and a clause is looked at exactly when it is the
first, or linked by `and` while the result so far holds, or linked by `or`
while it does not. When nothing fails the walk visits all clauses, and the
answer has the closed form for the truths seen and any truths of the
clauses passed by. When a clause fails so does the chain, and the walk ends
there. -/
theorem condition_folds (ctx : ContextId) {c : Condition}
    (hc : c.isOtherwise = false) (w : World) :
    ∃ visits,
      Walks ctx w (c.links.map Prod.snd) visits (condition ctx c w).2 ∧
      (∀ k visit, visits[k]? = some visit →
        (visit ≠ .skipped ↔ c.Asks visits k)) ∧
      match (condition ctx c w).1 with
      | .ok holds =>
        visits.length = c.links.length ∧ (∀ f, .failed f ∉ visits) ∧
          ∀ truth : Nat → Bool,
            (∀ k b, visits[k]? = some (.seen b) → truth k = b) →
            (holds = true ↔ c.HoldsBy truth)
      | .error f => visits.getLast? = some (.failed f) := by
  have hclauses : c.links.map Prod.snd = c.head :: c.tail.map Prod.snd := by
    simp [Condition.links, Function.comp_def]
  have hlength : c.links.length = (c.tail.map Prod.fst).length + 1 := by
    simp [Condition.links]
  rw [hclauses, hlength, condition, if_neg (by simp [hc]), bind_apply]
  rcases hrun : clause ctx c.head w with ⟨f | v, t⟩
  · refine ⟨[.failed f], .fail _ hrun, ?_, rfl⟩
    rintro (_ | k) visit hk
    · cases hk
      exact iff_of_true (by simp) (Or.inl rfl)
    · simp at hk
  · obtain ⟨journal, htold⟩ := noteClause_bind_apply "" c.head v.isTruthy
      (fun _ => linked ctx v.isTruthy c.tail) t
    obtain ⟨visits, hwalks, hvisited⟩ :=
      linked_walks ctx c.tail v.isTruthy { t with journal := journal }
    dsimp only
    rw [htold]
    refine ⟨.seen v.isTruthy :: visits, .see hrun journal hwalks, ?_, ?_⟩
    · rintro (_ | k) visit hk
      · cases hk
        exact iff_of_true (by simp) (Or.inl rfl)
      · exact (hvisited.looks_iff hk).trans Condition.asks_succ_iff.symm
    · split
      · next holds hholds =>
        rw [hholds] at hvisited
        refine ⟨by simp [hvisited.length_eq], ?_, fun truth agrees => ?_⟩
        · intro f hf
          rcases List.mem_cons.1 hf with hf | hf
          · cases hf
          · exact hvisited.failed_not_mem f hf
        · rw [Condition.holdsBy_iff, agrees 0 _ rfl]
          rw [← hvisited.eq_folded fun j b hj => ?_]
          rw [Nat.add_comm]
          exact agrees (j + 1) b hj
      · next f hf =>
        rw [hf] at hvisited
        simp [List.getLast?_cons, hvisited.getLast?_eq]

/-- In `true or boom and false and boom` the deferred value `boom`, which
fails when it is called, is called nowhere, and the chain does not hold:
its truth does not matter. -/
theorem condition_folds_skipped :
    let w : World := ⟨⟨#[
        .table [(.text "boom", .object 1)],
        .deferred ⟨"boom", .function, .fail "boom"⟩]⟩,
      #[⟨[.object 0], [], true⟩], [], .fresh false⟩
    let boom : Clause := .single (.path (.root (.const (.text "boom"))))
    let c : Condition := ⟨.single (.const (.bool true)),
      [(.or, boom), (.and, .single (.const (.bool false))), (.and, boom)]⟩
    c.isOtherwise = false ∧
      (condition 0 c w).1 = .ok false ∧
      (condition 0 c w).2.calls = [] ∧
      ∃ visits, Walks 0 w (c.links.map Prod.snd) visits
          (condition 0 c w).2 ∧
        (∀ k visit, visits[k]? = some visit →
          (visit ≠ .skipped ↔ c.Asks visits k)) ∧
        visits.length = 4 ∧
        ∀ truth : Nat → Bool,
          (∀ k b, visits[k]? = some (.seen b) → truth k = b) →
          ¬ c.HoldsBy truth := by
  intro w boom c
  obtain ⟨visits, hwalks, hasks, houtcome⟩ :=
    condition_folds 0 (c := c) (by decide) w
  have hanswer : (condition 0 c w).1 = .ok false := rfl
  rw [hanswer] at houtcome
  obtain ⟨hlength, -, hiff⟩ := houtcome
  refine ⟨by decide, hanswer, rfl, visits, hwalks, hasks, hlength,
    fun truth agrees hholds => ?_⟩
  cases (hiff truth agrees).2 hholds

end Eval
end Stencil
