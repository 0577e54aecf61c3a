import Mathlib.Data.Rat.Cast.Order
import Mathlib.Algebra.BigOperators.Group.List.Basic
import Mathlib.Algebra.Order.Ring.Rat
import Mathlib.Tactic.Ring

/-!
# Compensated sums

The running sum and its compensation, in exact arithmetic: the compensation stays zero and the
result is the sum.
-/

namespace Agentless.Metrics

/-- One value added to the running sum, and what the addition lost added to the compensation. -/
def compensate (state : ℚ × ℚ) (x : ℚ) : ℚ × ℚ :=
  let t := state.1 + x
  if |x| ≤ |state.1| then (t, state.2 + ((state.1 - t) + x))
  else (t, state.2 + ((x - t) + state.1))

def compensatedSum (values : List ℚ) : ℚ :=
  let (result, c) := values.foldl compensate (0, 0)
  if c ≠ 0 then result + c else result

/-- No exact addition loses anything. -/
theorem compensate_eq (state : ℚ × ℚ) (x : ℚ) : compensate state x = (state.1 + x, state.2) := by
  unfold compensate
  dsimp only
  split_ifs
  · congr 1
    ring
  · congr 1
    ring

theorem foldl_compensate (values : List ℚ) (state : ℚ × ℚ) :
    values.foldl compensate state = (state.1 + values.sum, state.2) := by
  induction values generalizing state with
  | nil => simp
  | cons x values ih => rw [List.foldl_cons, ih, compensate_eq, List.sum_cons, add_assoc]

@[simp] theorem compensatedSum_eq (values : List ℚ) : compensatedSum values = values.sum := by
  unfold compensatedSum
  rw [foldl_compensate]
  simp

end Agentless.Metrics
