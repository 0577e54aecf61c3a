import Agentless.Library.Text

/-!
# Machines that take labelled steps

A step is allowed in a state or not. A run is a list of labels whose steps are all allowed, one
after the other, and what every step keeps holds after every run.
-/

namespace Agentless.Machine

variable {State Label : Type} (step : State → Label → Option State)

/-- The state after the labels, when all of their steps are allowed. -/
def run (state : State) (labels : List Label) : Option State := labels.foldlM step state

variable {step} {state state' : State} {labels more : List Label} {label : Label}

theorem run_append_eq_some_iff :
    run step state (labels ++ more) = some state' ↔
      ∃ between, run step state labels = some between ∧ run step between more = some state' := by
  rw [run, List.foldlM_append]
  exact Option.bind_eq_some_iff

theorem run_singleton : run step state [label] = step state label := by
  simp [run]

/-- What holds at first and is kept by every step holds after every run. -/
theorem run_induction (holds : List Label → State → Prop) (start : holds [] state)
    (next : ∀ labels between label after, run step state labels = some between →
      holds labels between → step between label = some after → holds (labels ++ [label]) after)
    (h : run step state labels = some state') : holds labels state' := by
  induction labels using List.reverseRecOn generalizing state' with
  | nil =>
    obtain rfl : state = state' := by simpa [run] using h
    exact start
  | append_singleton labels label ih =>
    obtain ⟨between, hbetween, hstep⟩ := run_append_eq_some_iff.mp h
    rw [run_singleton] at hstep
    exact next labels between label state' hbetween (ih hbetween) hstep

end Agentless.Machine
