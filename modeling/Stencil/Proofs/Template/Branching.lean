/-
The branch that decides: what a block renders, and what it never looks
at.

A block asks the conditions of its branches in order and writes the body
of the first branch that is taken. `Passes` is the part of the run before
that: conditions asked one after the other, none of which has its branch
taken. Such a run leaves the page as it was (`firstTaken_of_passes`), and
every search for a branch is one, up to a branch that stops it
(`passes_or_stops`).

What is written then goes on top of what was written before, and nothing
looks at the pieces below (`run_above`): this is evaluation in equal
worlds, on pages that differ in the earlier pieces.

That an `else` branch stops every search is a matter of reading. In a
negated block the first branch is taken when its condition fails, so an
`else` branch in that place would never be taken. But a block is opened
with a condition that was read from markup, and no markup spells the one
of `else`. This is kept for the blocks being read (`Frame.first`) and for
those that are finished (`Node.Headed`).
-/
import Stencil.Proofs.Evaluation.Uniformity
import Stencil.Proofs.Template.Blankness

namespace Stencil

namespace Rendering

variable {ctx : ContextId} {negated : Bool} {tag : String}
  {index : Nat} {w t u : World} {ps : List String}

-- ========================================================== the search

/-- Conditions that are asked in order, from the branch of an index on,
and none of which has its branch taken. -/
inductive Passes (ctx : ContextId) (negated : Bool) :
    Nat → List Condition → World → World → Prop
  | nil {index : Nat} {w : World} : Passes ctx negated index [] w w
  | cons {index : Nat} {c : Condition} {cs : List Condition} {holds : Bool}
      {w t u : World} :
      Eval.condition ctx c w = (.ok holds, t) →
      isTaken negated index holds = false →
      Passes ctx negated (index + 1) cs t u →
      Passes ctx negated index (c :: cs) w u

/-- A branch asks its condition, which writes nothing, and is written or
left to the ones behind it. -/
theorem firstTaken_cons (c : Condition) (body : List Node)
    (later : List Branch) :
    firstTaken ctx negated tag index (.mk c body :: later) ⟨w, ps⟩ =
      match Eval.condition ctx c w with
      | (.error f, u) => (.error f, ⟨u, ps⟩)
      | (.ok holds, u) =>
        if isTaken negated index holds then
          (noteBranch tag index c >>= fun _ => nodes ctx body) ⟨u, ps⟩
        else firstTaken ctx negated tag (index + 1) later ⟨u, ps⟩ := by
  rw [firstTaken, bind_apply]
  have hask : ofEval (Eval.condition ctx c) ⟨w, ps⟩ =
      ((Eval.condition ctx c w).1, ⟨(Eval.condition ctx c w).2, ps⟩) := rfl
  rw [hask]
  rcases Eval.condition ctx c w with ⟨f | holds, u⟩
  · rfl
  · dsimp only
    split <;> rfl

/-- Branches that are passed write nothing, whatever their bodies are, and
the search goes on behind them. -/
theorem firstTaken_of_passes {before : List Branch}
    (h : Passes ctx negated index (before.map Branch.condition) w u)
    (later : List Branch) :
    firstTaken ctx negated tag index (before ++ later) ⟨w, ps⟩ =
      firstTaken ctx negated tag (index + before.length) later ⟨u, ps⟩ := by
  induction before generalizing index w with
  | nil =>
    cases h
    rfl
  | cons b before ih =>
    obtain ⟨c, body⟩ := b
    cases h with
    | cons hc hpass hrest =>
      have hc' : Eval.condition ctx c w = _ := hc
      rw [List.cons_append, firstTaken_cons, hc']
      simp only [hpass, Bool.false_eq_true, if_false]
      rw [ih hrest, List.length_cons, Nat.add_right_comm, Nat.add_assoc]

/-- A condition stops the search at the branch of an index: it fails, or
its branch is taken. -/
def Stops (ctx : ContextId) (negated : Bool) (index : Nat) (c : Condition)
    (w : World) : Prop :=
  (∃ f u, Eval.condition ctx c w = (.error f, u)) ∨
    ∃ holds u, Eval.condition ctx c w = (.ok holds, u) ∧
      isTaken negated index holds = true

/-- The search passes all branches, or some and is then stopped. -/
theorem passes_or_stops (ctx : ContextId) (negated : Bool)
    (branches : List Branch) : ∀ index w,
    (∃ u, Passes ctx negated index (branches.map Branch.condition) w u) ∨
    ∃ before c body after t, branches = before ++ .mk c body :: after ∧
      Passes ctx negated index (before.map Branch.condition) w t ∧
      Stops ctx negated (index + before.length) c t := by
  induction branches with
  | nil => exact fun _ w => Or.inl ⟨w, .nil⟩
  | cons b branches ih =>
    intro index w
    obtain ⟨c, body⟩ := b
    rcases hc : Eval.condition ctx c w with ⟨f | holds, t⟩
    · exact Or.inr ⟨[], c, body, branches, w, rfl, .nil,
        Or.inl ⟨f, t, hc⟩⟩
    · cases htaken : isTaken negated index holds with
      | true =>
        exact Or.inr ⟨[], c, body, branches, w, rfl, .nil,
          Or.inr ⟨holds, t, hc, htaken⟩⟩
      | false =>
        rcases ih (index + 1) t with
          ⟨u, hpass⟩ | ⟨before, d, other, after, u, hsplit, hpass, hstop⟩
        · exact Or.inl ⟨u, .cons hc htaken hpass⟩
        · refine Or.inr ⟨.mk c body :: before, d, other, after, u, ?_,
            .cons hc htaken hpass, ?_⟩
          · rw [hsplit]
            rfl
          · rw [List.length_cons, Nat.add_comm before.length, ← Nat.add_assoc]
            exact hstop

-- ================================================== what was written

/-- What does not look at the pieces below writes on top of them what it
writes on an empty page. -/
theorem run_above {x : Rendering Unit}
    (hx : Parallel (Above Eq ps) (fun _ => False) x) (w : World) :
    x ⟨w, ps⟩ =
      ((x ⟨w, []⟩).1,
        ⟨(x ⟨w, []⟩).2.world, (x ⟨w, []⟩).2.pieces ++ ps⟩) := by
  rcases hx ⟨w, []⟩ ⟨w, ps⟩ ⟨rfl, rfl⟩ with
    ⟨houtcome, hworld, hpieces⟩ | ⟨_, _, hno⟩
  · refine Prod.ext houtcome.symm ?_
    dsimp only at hpieces ⊢
    rw [← hpieces, show (x ⟨w, []⟩).2.world = (x ⟨w, ps⟩).2.world from hworld]
  · exact hno.elim

-- ==================================================== what is decided

/-- What the branch of an index comes to on an empty page once it is
taken, from the world that its condition has left. -/
def branchRun (ctx : ContextId) (name : String) (index : Nat)
    (c : Condition) (body : List Node) (u : World) :
    Except Failure Unit × Page :=
  (noteBranch name index c >>= fun _ => nodes ctx body) ⟨u, []⟩

/-- What comes of a block on a page. Everything is said of all lists of
branches that share with those of the block what was looked at. -/
inductive Decides (ctx : ContextId) (negated : Bool)
    (name markup : String) (branches : List Branch) (page : Page) : Prop
  /-- No branch is taken. Then the page has the pieces it had, and the
  bodies of the branches do not matter. -/
  | none (u : World)
      (asked : Passes ctx negated 0 (branches.map Branch.condition)
        page.world u)
      (run : ∀ branches' : List Branch,
        branches'.map Branch.condition = branches.map Branch.condition →
        node ctx (.conditional negated name markup branches') page =
          (.ok (), ⟨u, page.pieces⟩))
  /-- A condition fails before any branch is taken. Then the page has the
  pieces it had. The bodies do not matter, nor do the branches behind. -/
  | failed (before after : List Branch) (c : Condition) (body : List Node)
      (t u : World) (f : Failure)
      (split : branches = before ++ .mk c body :: after)
      (asked : Passes ctx negated 0 (before.map Branch.condition)
        page.world t)
      (fails : Eval.condition ctx c t = (.error f, u))
      (run : ∀ (before' after' : List Branch) (body' : List Node),
        before'.map Branch.condition = before.map Branch.condition →
        node ctx (.conditional negated name markup
            (before' ++ .mk c body' :: after')) page =
          (.error f, ⟨u, page.pieces⟩))
  /-- A branch is taken, and no one before it. Then its body writes on top
  of the pieces there were what it writes on an empty page. The other
  bodies do not matter, nor do the branches behind. -/
  | taken (before after : List Branch) (c : Condition) (body : List Node)
      (t u : World) (holds : Bool)
      (split : branches = before ++ .mk c body :: after)
      (asked : Passes ctx negated 0 (before.map Branch.condition)
        page.world t)
      (asks : Eval.condition ctx c t = (.ok holds, u))
      (takes : isTaken negated before.length holds = true)
      (written : Except Failure Unit × Page)
      (writes : written = branchRun ctx name before.length c body u)
      (run : ∀ before' after' : List Branch,
        before'.map Branch.condition = before.map Branch.condition →
        node ctx (.conditional negated name markup
            (before' ++ .mk c body :: after')) page =
          (written.1,
            ⟨written.2.world, written.2.pieces ++ page.pieces⟩))

/-- Whatever a block is, its rendering is decided by the first branch that
stops the search. -/
theorem decides (ctx : ContextId) (negated : Bool) (name markup : String)
    (branches : List Branch) (page : Page) :
    Decides ctx negated name markup branches page := by
  obtain ⟨w, ps⟩ := page
  -- what is passed is passed with any bodies
  have skip {before before' : List Branch} {t : World}
      (hpass : Passes ctx negated 0 (before.map Branch.condition) w t)
      (hsame : before'.map Branch.condition =
        before.map Branch.condition) (later : List Branch) :
      node ctx (.conditional negated name markup (before' ++ later))
          ⟨w, ps⟩ =
        firstTaken ctx negated name before.length later ⟨t, ps⟩ := by
    have hlength : before'.length = before.length := by
      simpa using congrArg List.length hsame
    rw [← hsame] at hpass
    rw [node, firstTaken_of_passes hpass, Nat.zero_add, hlength]
  rcases passes_or_stops ctx negated branches 0 w with
    ⟨u, hpass⟩ | ⟨before, c, body, after, t, hsplit, hpass, hstop⟩
  · refine .none u hpass fun branches' hsame => ?_
    have hrun := skip hpass hsame []
    rw [List.append_nil] at hrun
    rw [hrun, firstTaken]
    rfl
  · rw [Nat.zero_add] at hstop
    rcases hstop with ⟨f, u, hc⟩ | ⟨holds, u, hc, htaken⟩
    · refine .failed before after c body t u f hsplit hpass hc ?_
      intro before' after' body' hsame
      rw [skip hpass hsame, firstTaken_cons, hc]
    · refine .taken before after c body t u holds hsplit hpass hc htaken
        _ rfl ?_
      intro before' after' hsame
      rw [skip hpass hsame, firstTaken_cons, hc]
      simp only [htaken, if_true]
      refine run_above ?_ u
      exact Parallel.bind (Uniform.ofEval (uniform_eq.note _)) fun _ =>
        uniform_eq.nodes ctx body

end Rendering

-- ========================================================== `else` last

/-- The condition of an `else` branch holds without being looked at. -/
theorem Eval.condition_otherwise {c : Condition}
    (hc : c.isOtherwise = true) (ctx : ContextId) (w : World) :
    condition ctx c w = (.ok true, w) := by
  rw [condition, if_pos hc]
  rfl

/-- A branch other than the first one is taken when its condition
holds. -/
theorem Rendering.isTaken_succ (negated : Bool) (index : Nat) :
    isTaken negated (index + 1) true = true := by
  cases negated <;> rfl

namespace Node

/-- A block whose first branch, if it has one, is no `else` branch. -/
def Headed (block : Node) : Prop :=
  ∀ b, block.branches.head? = some b → b.condition.isOtherwise = false

/-- Dropping blank texts is no matter of conditions. -/
theorem head?_tidied (bs : List Branch) :
    (tidied bs).head?.map Branch.condition =
      bs.head?.map Branch.condition := by
  unfold tidied
  split
  · cases bs <;> rfl
  · rfl

/-- The blocks in nodes are those in one of them. -/
theorem mem_allBlocks {block : Node} {ns : List Node} :
    block ∈ allBlocks ns ↔ ∃ n ∈ ns, block ∈ n.blocks := by
  induction ns with
  | nil => simp [allBlocks]
  | cons n ns ih => simp [allBlocks, ih]

/-- The blocks in branches are those in the body of one of them. -/
theorem mem_branchBlocks {block : Node} {bs : List Branch} :
    block ∈ branchBlocks bs ↔ ∃ b ∈ bs, block ∈ allBlocks b.body := by
  induction bs with
  | nil => simp [branchBlocks]
  | cons b bs ih =>
    obtain ⟨c, body⟩ := b
    simp [branchBlocks, ih, Branch.body]

end Node

namespace Frame

/-- The condition that a block was opened with. -/
def first (f : Frame) : Condition :=
  (f.branches.getLast?.map Branch.condition).getD f.condition

/-- The condition a block was opened with is that of its first branch. -/
theorem head?_allBranches (f : Frame) :
    f.allBranches.head?.map Branch.condition = some f.first := by
  rw [allBranches, List.head?_reverse, List.getLast?_cons, first]
  cases f.branches.getLast? <;> rfl

/-- The next branch does not change with what a block was opened. -/
theorem first_nextBranch (f : Frame) (c : Condition) :
    (f.nextBranch c).first = f.first := by
  rw [first, first]
  show ((List.getLast? (_ :: f.branches)).map Branch.condition).getD c = _
  rw [List.getLast?_cons]
  cases f.branches.getLast? <;> rfl

end Frame

/-- A block being read that was opened with a condition, in which all
finished blocks were. -/
structure Frame.Headed (f : Frame) : Prop where
  first : f.first.isOtherwise = false
  nodes : ∀ block ∈ Node.allBlocks f.nodes, block.Headed
  branches : ∀ block ∈ Node.branchBlocks f.branches, block.Headed

/-- A body being read in which all blocks were opened with a
condition. -/
structure Builder.Headed (b : Builder) : Prop where
  nodes : ∀ block ∈ Node.allBlocks b.nodes, block.Headed
  frames : ∀ f ∈ b.frames, f.Headed

namespace Frame.Headed

variable {f : Frame}

/-- The blocks in the branches of a block that is being read. -/
theorem allBranches (hf : f.Headed) :
    ∀ block ∈ Node.branchBlocks f.allBranches, block.Headed := by
  intro block hblock
  obtain ⟨b, hb, hmem⟩ := Node.mem_branchBlocks.1 hblock
  rw [Frame.allBranches, List.mem_reverse, List.mem_cons] at hb
  rcases hb with rfl | hb
  · obtain ⟨n, hn, hmem⟩ := Node.mem_allBlocks.1 hmem
    exact hf.nodes block
      (Node.mem_allBlocks.2 ⟨n, List.mem_reverse.1 hn, hmem⟩)
  · exact hf.branches block (Node.mem_branchBlocks.2 ⟨b, hb, hmem⟩)

theorem nextBranch (hf : f.Headed) (c : Condition) :
    (f.nextBranch c).Headed := by
  refine ⟨(congrArg _ (first_nextBranch f c)).trans hf.first, nofun,
    fun block hblock => ?_⟩
  refine hf.allBranches block ?_
  obtain ⟨b, hb, hmem⟩ := Node.mem_branchBlocks.1 hblock
  exact Node.mem_branchBlocks.2 ⟨b, List.mem_reverse.2 hb, hmem⟩

/-- A finished block starts with the condition it was opened with. -/
theorem close (hf : f.Headed) : ∀ block ∈ f.close.blocks, block.Headed := by
  have hclose : f.close = .conditional f.negated f.name f.markup
      (Node.tidied f.allBranches) := rfl
  intro block hblock
  rw [hclose, Node.blocks, List.mem_cons, Node.branchBlocks_tidied] at hblock
  rcases hblock with rfl | hblock
  · intro b hb
    have hhead := (Node.head?_tidied f.allBranches).trans
      (head?_allBranches f)
    rw [show (Node.tidied f.allBranches).head? = some b from hb] at hhead
    have hfirst : b.condition = f.first := by simpa using hhead
    exact (congrArg _ hfirst).trans hf.first
  · exact hf.allBranches block hblock

end Frame.Headed

/-- A node in which all blocks are headed may be added. -/
theorem Builder.Headed.push {b : Builder} (hb : b.Headed) {n : Node}
    (hn : ∀ block ∈ n.blocks, block.Headed) : (b.push n).Headed := by
  have cons {ns : List Node}
      (hns : ∀ block ∈ Node.allBlocks ns, block.Headed) :
      ∀ block ∈ Node.allBlocks (n :: ns), block.Headed := by
    intro block hblock
    rcases List.mem_append.1 hblock with h | h
    · exact hn block h
    · exact hns block h
  obtain ⟨nodes, frames⟩ := b
  cases frames with
  | nil => exact ⟨cons hb.nodes, hb.frames⟩
  | cons f outer =>
    obtain ⟨hf, houter⟩ := List.forall_mem_cons.1 hb.frames
    exact ⟨hb.nodes, List.forall_mem_cons.2
      ⟨⟨hf.first, cons hf.nodes, hf.branches⟩, houter⟩⟩

section

variable {tags : Registry} {b b' : Builder} {r r' : Reading}

/-- A chunk opens no block with `else`. -/
theorem Proceeds.headed {c : Chunk} (h : Proceeds tags b r c b' r')
    (hb : b.Headed) : b'.Headed := by
  cases h with
  | text s => exact hb.push nofun
  | output he => exact hb.push nofun
  | leaf htag => exact hb.push nofun
  | opening _ hc =>
    refine ⟨hb.nodes, List.forall_mem_cons.2 ⟨?_, hb.frames⟩⟩
    exact ⟨Parsing.condition_isOtherwise hc, nofun, nofun⟩
  | @closing _ f outer _ hframes =>
    obtain ⟨hf, houter⟩ := List.forall_mem_cons.1 (hframes ▸ hb.frames)
    have hrest : Builder.Headed ⟨b.nodes, outer⟩ := ⟨hb.nodes, houter⟩
    exact hrest.push hf.close
  | elsif _ hframes hc =>
    obtain ⟨hf, houter⟩ := List.forall_mem_cons.1 (hframes ▸ hb.frames)
    exact ⟨hb.nodes, List.forall_mem_cons.2 ⟨hf.nextBranch _, houter⟩⟩
  | otherwise _ hframes =>
    obtain ⟨hf, houter⟩ := List.forall_mem_cons.1 (hframes ▸ hb.frames)
    exact ⟨hb.nodes, List.forall_mem_cons.2 ⟨hf.nextBranch _, houter⟩⟩

/-- Nor do many chunks, however their reading ends. -/
theorem readFrom_headed {sources : List String} (hb : b.Headed) :
    ∀ block ∈ Node.allBlocks (Body.readFrom tags sources b r).1.nodes,
      block.Headed := by
  have built {b : Builder} (hb : b.Headed) :
      ∀ block ∈ Node.allBlocks b.nodes.reverse, block.Headed := by
    intro block hblock
    obtain ⟨n, hn, hmem⟩ := Node.mem_allBlocks.1 hblock
    exact hb.nodes block
      (Node.mem_allBlocks.2 ⟨n, List.mem_reverse.1 hn, hmem⟩)
  induction sources generalizing b r with
  | nil => exact built hb
  | cons s rest ih =>
    rw [readFrom_cons]
    rcases hp : Body.chunk tags b (.ofString s) r with ⟨_ | b' | _, r'⟩
    · exact built hb
    · exact ih ((proceeds_of_chunk hp).headed hb)
    · exact built hb

end

namespace Template

/-- The blocks of a template were opened with a condition. -/
theorem parse_headed {tags : Registry} {mode : Mode} {source : String}
    {journal : Journal} {template : Template}
    (h : (parse tags mode source journal).1 = .ok template) :
    ∀ block ∈ Node.allBlocks template.nodes, block.Headed := by
  obtain ⟨outcome, r', hread, -, rfl⟩ := read_eq_ok h
  have hstart : Builder.Headed (.ofNodes []) := ⟨nofun, nofun⟩
  have hblocks : ∀ block ∈ Node.allBlocks (Body.readFrom tags
      (Chunk.split source) (.ofNodes [])
      (Parsing.start mode journal)).1.nodes, block.Headed :=
    readFrom_headed hstart
  rw [hread] at hblocks
  exact hblocks

/-- Only the first branch that is taken matters. Every block at any depth
of a template that was read, in every context and on every page, asks the
conditions of its branches up to that branch, writes its body on top of
what was written, and looks at nothing else: with other bodies in the
other branches, and other branches behind, the run is the same. If no
branch is taken or a condition fails, nothing is written. An `else` branch
is always taken when the search comes to it, also in a negated block. -/
theorem parse_first_branch_decides (tags : Registry) (mode : Mode)
    (source : String) (journal : Journal) {template : Template}
    (h : (parse tags mode source journal).1 = .ok template)
    {negated : Bool} {name markup : String} {branches : List Branch}
    (hblock : Node.conditional negated name markup branches ∈
      Node.allBlocks template.nodes) (ctx : ContextId) (page : Page) :
    Rendering.Decides ctx negated name markup branches page ∧
    ∀ i c body, branches[i]? = some (.mk c body) →
      c.isOtherwise = true →
      Rendering.isTaken negated i true = true ∧
        ∀ w, Eval.condition ctx c w = (.ok true, w) := by
  refine ⟨Rendering.decides .., fun i c body hi hc => ?_⟩
  refine ⟨?_, Eval.condition_otherwise hc ctx⟩
  cases i with
  | zero =>
    have hhead := parse_headed h _ hblock (.mk c body)
      (List.head?_eq_getElem?.trans hi)
    exact absurd hc (by simpa [Branch.condition] using hhead)
  | succ i => exact Rendering.isTaken_succ negated i

/-- The inner block is decided on a page that has something on it, and its
`else` branch is one that stops the search. -/
theorem parse_first_branch_decides_inner :
    ∃ template negated name markup branches,
      (parse .standard .lax
        "{% if a %}x{% unless b %}y{% else %}z{% endunless %}{% endif %}"
        (.fresh false)).1 = .ok template ∧
      Node.conditional negated name markup branches ∈
        Node.allBlocks template.nodes ∧
      (Node.conditional negated name markup branches).display =
        "Unless(b)" ∧
      (branches.map fun b => b.condition.isOtherwise) = [false, true] ∧
      Rendering.Decides 0 negated name markup branches
        ⟨.fresh false, ["x"]⟩ ∧
      ∀ i c body, branches[i]? = some (.mk c body) →
        c.isOtherwise = true →
        Rendering.isTaken negated i true = true ∧
          ∀ w, Eval.condition 0 c w = (.ok true, w) := by
  have hread : (parse .standard .lax
      "{% if a %}x{% unless b %}y{% else %}z{% endunless %}{% endif %}"
      (.fresh false)).1.toOption.map (fun t =>
        (Node.allBlocks t.nodes).map fun n =>
          (n.display, n.branches.map fun b => b.condition.isOtherwise)) =
      some [("ConditionalBlock(a)", [false]),
        ("Unless(b)", [false, true])] := by
    decide +kernel
  cases h : (parse .standard .lax
      "{% if a %}x{% unless b %}y{% else %}z{% endunless %}{% endif %}"
      (.fresh false)).1 with
  | error f =>
    rw [h] at hread
    cases hread
  | ok template =>
    rw [h] at hread
    have hmem : ("Unless(b)", [false, true]) ∈
        (Node.allBlocks template.nodes).map fun n =>
          (n.display, n.branches.map fun b => b.condition.isOtherwise) := by
      have hblocks := Option.some.inj hread
      dsimp only at hblocks
      rw [hblocks]
      exact List.mem_cons_of_mem _ (List.mem_singleton_self _)
    obtain ⟨block, hblock, heq⟩ := List.mem_map.1 hmem
    obtain ⟨hdisplay, hothers⟩ := Prod.mk.inj heq
    cases block with
    | conditional negated name markup branches =>
      obtain ⟨hdecides, helse⟩ := parse_first_branch_decides .standard .lax
        _ (.fresh false) h hblock 0 ⟨.fresh false, ["x"]⟩
      exact ⟨template, negated, name, markup, branches, rfl, hblock,
        hdisplay, hothers, hdecides, helse⟩
    | _ => cases hothers

end Template

end Stencil
