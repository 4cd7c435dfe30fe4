/-
Where a step of a path leads.

A value has a part under a key if it holds the key, or if the key is a
position and the value takes any position. A step leads to the part, forced
and received. Only where there is none the command of the step is asked
for, and its answer is received as it is. Where there is neither, the step
is undefined: whether that is a failure is a matter of the context.
-/
import Stencil.Proofs.Evaluation.Remembering

namespace Stencil

-- =============================================================== parts

namespace Store

/-- Whether a value has a part under a key. -/
def offers (store : Store) (v key : Value) : Bool :=
  (store.access v).isKeyed &&
    (store.hasKey v key || ((store.access v).isPositional && key.isIndex))

variable {store : Store} {v key : Value}

/-- A sequence holds no keys. -/
theorem hasKey_sequence (hv : store.access v = .sequence) (key : Value) :
    store.hasKey v key = false := by
  simp [hasKey, hv]

/-- A drop is accessed as such. -/
theorem access_of_drop? {d : Drop} (hd : store.drop? v = some d) :
    store.access v = .drop := by
  obtain ⟨i, rfl, ho⟩ := object?_eq_some.1 (drop?_eq_some.1 hd)
  simp [access, object?, ho]

/-- What has positions is no drop. -/
theorem drop?_sequence (hv : store.access v = .sequence) :
    store.drop? v = none := by
  cases hd : store.drop? v with
  | none => rfl
  | some d => cases (access_of_drop? hd).symm.trans hv

/-- The part under a position is the item there. -/
theorem fetch_sequence (hv : store.access v = .sequence) (index : Int) :
    store.fetch v (.int index) = .ok (store.item v index) := by
  simp [fetch, hv, index?]

/-- A sequence has a part at any position. -/
theorem offers_index (hv : store.access v = .sequence) (index : Int) :
    store.offers v (.int index) = true := by
  simp [offers, hv, Access.isKeyed, Access.isPositional, Value.isIndex]

/-- A sequence has no part under anything else. -/
theorem offers_text (hv : store.access v = .sequence) (name : String) :
    store.offers v (.text name) = false := by
  simp [offers, hv, hasKey_sequence hv, Value.isIndex]

/-- A drop has a part under any key. -/
theorem offers_drop {d : Drop} (hd : store.drop? v = some d) (key : Value) :
    store.offers v key = true := by
  simp [offers, hasKey, access_of_drop? hd, Access.isKeyed]

/-- A part of anything but a drop is fetched. -/
theorem fetch_of_offers (hoffers : store.offers v key = true)
    (hdrop : store.drop? v = none) : ∃ x, store.fetch v key = .ok x := by
  unfold offers at hoffers
  cases haccess : store.access v with
  | drop =>
    obtain ⟨d, hd⟩ := exists_drop?_of_access haccess
    cases hdrop.symm.trans hd
  | table =>
    have hhas : store.hasKey v key = true := by
      simpa [haccess, Access.isKeyed, Access.isPositional] using hoffers
    have hhash : store.isHashable key = true := by
      rw [hasKey, haccess] at hhas
      exact (Bool.and_eq_true_iff.1 hhas).1
    exact ⟨(store.entry? (store.entries v) key).getD .nil, by
      simp only [fetch, haccess, hhash, if_true]⟩
  | sequence =>
    cases key with
    | int n => exact ⟨_, fetch_sequence haccess n⟩
    | _ => simp [haccess, hasKey, Value.isIndex] at hoffers
  | text => simp [haccess, Access.isKeyed] at hoffers
  | scalar => simp [haccess, Access.isKeyed] at hoffers

end Store

-- =============================================================== steps

namespace Eval

variable {reenter : Reenter} {ctx : ContextId} {u : World} {v key : Value}
  {command : Option Command}

/-- A step to a part that is there leads to the part, forced and
received. -/
theorem stepFrom_of_offers (whole : Path)
    (hoffers : u.store.offers v key = true) (command : Option Command) :
    stepFrom reenter ctx whole v key command u =
      (do return some (← receive reenter ctx
          (← forcedPart reenter ctx v key)) : Eval (Option Value)) u := by
  rw [stepFrom, store_bind_apply]
  exact congrFun (if_pos hoffers) u

/-- A step by a command leads to its answer, received. -/
theorem stepFrom_of_answers (whole : Path)
    (hoffers : u.store.offers v key = false)
    {answer : Except Failure Value} {store : Store}
    (hcommand : command.bind (u.store.command? v) = some (answer, store)) :
    stepFrom reenter ctx whole v key command u =
      (do return some (← receive reenter ctx (← ofExcept answer)) :
        Eval (Option Value)) { u with store := store } := by
  rw [stepFrom, store_bind_apply]
  have hnot : ¬u.store.offers v key = true := by simp [hoffers]
  refine (congrFun (if_neg hnot) u).trans ?_
  rw [hcommand]
  rfl

/-- A step for which there is neither is undefined, which is told. -/
theorem stepFrom_of_misses (whole : Path)
    (hoffers : u.store.offers v key = false)
    (hcommand : command.bind (u.store.command? v) = none) :
    ∃ journal, stepFrom reenter ctx whole v key command u =
      (do
        if ((← get).context ctx).strict then
          throw (.undefinedVariable (← ofExcept (u.store.print key)))
        else return none : Eval (Option Value))
          { u with journal := journal } := by
  rw [stepFrom, store_bind_apply]
  have hnot : ¬u.store.offers v key = true := by simp [hoffers]
  let message : Except Failure String := do
    return "Lookup missed: " ++ (← u.store.exprText (.path whole)) ++
      " at " ++ (← u.store.display key)
  refine ⟨u.journal.noteWritten fun _ => message.toOption, ?_⟩
  refine (congrFun (if_neg hnot) u).trans ?_
  rw [hcommand]
  rfl

end Eval

end Stencil
