import Mathlib.Logic.Function.Iterate
import Mathlib.Logic.Relation

/-!
# Running a deterministic machine to a goal

`Leads next Ok Q a`: started at `a` the machine comes to a state with `Q`, and every
state it leaves on the way is `Ok`. It is a total-correctness judgement, with one
rule for the end of a run and one for a step. What never ends is a property from
which the machine always gets on to the same property.
-/

/-- From `a` the machine comes to a state with `Q` through states that are `Ok`. -/
inductive Leads {A : Type*} (next : A → A) (Ok Q : A → Prop) : A → Prop
  | here {a : A} (hq : Q a) : Leads next Ok Q a
  | step {a : A} (hok : Ok a) (h : Leads next Ok Q (next a)) : Leads next Ok Q a

namespace Leads

variable {A : Type*} {next : A → A} {Ok Q : A → Prop} {a : A}

/-- One step to a state from which the goal is reached. -/
theorem step_to {b : A} (hok : Ok a) (hb : next a = b) (h : Leads next Ok Q b) :
    Leads next Ok Q a := by
  subst hb
  exact step hok h

/-- **A run to the goal is a number of steps.** -/
theorem exists_iterate (h : Leads next Ok Q a) :
    ∃ k, Q (next^[k] a) ∧ ∀ j, j < k → Ok (next^[j] a) := by
  induction h with
  | here hq => exact ⟨0, hq, fun j hj => absurd hj (Nat.not_lt_zero j)⟩
  | @step a hok _ ih =>
      obtain ⟨k, hq, hall⟩ := ih
      refine ⟨k + 1, hq, ?_⟩
      intro j hj
      cases j with
      | zero => exact hok
      | succ j => exact hall j (Nat.lt_of_succ_lt_succ hj)

end Leads

/-- From `a` the machine gets to `b` in one step or more, through states that are `Ok`. -/
abbrev Advances {A : Type*} (next : A → A) (Ok : A → Prop) : A → A → Prop :=
  Relation.TransGen fun a b => Ok a ∧ next a = b

namespace Advances

variable {A : Type*} {next : A → A} {Ok Q P : A → Prop} {a b : A}

theorem leads (h : Advances next Ok a b) (hb : Leads next Ok Q b) : Leads next Ok Q a := by
  induction h using Relation.TransGen.head_induction_on with
  | single h => exact .step_to h.1 h.2 hb
  | head h _ ih => exact .step_to h.1 h.2 ih

theorem exists_iterate (h : Advances next Ok a b) :
    ∃ k, next^[k + 1] a = b ∧ ∀ j, j ≤ k → Ok (next^[j] a) := by
  induction h using Relation.TransGen.head_induction_on with
  | single h =>
      refine ⟨0, h.2, fun j hj => ?_⟩
      obtain rfl := Nat.le_zero.mp hj
      exact h.1
  | head h _ ih =>
      obtain ⟨k, hk, hall⟩ := ih
      obtain ⟨hok, rfl⟩ := h
      refine ⟨k + 1, hk, ?_⟩
      intro j hj
      cases j with
      | zero => exact hok
      | succ j => exact hall j (Nat.le_of_succ_le_succ hj)

end Advances
