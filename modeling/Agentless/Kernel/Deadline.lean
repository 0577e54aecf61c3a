import Agentless.Library.Machine
import Mathlib.Algebra.Order.BigOperators.Group.List

/-!
# The credited time of a deadline

Parse time is credited to a call's allowance, up to the grace. Every credit reads the total, caps
the sum and swaps it in if the total is still the one that it read, so the steps of many credits
come in any order. The total is always the sum of the credits that are over, capped once.
-/

namespace Agentless.Kernel

open Machine

variable {α : Type} [AddCommMonoid α] [LinearOrder α]

/-- The grace stays unless the sum is strictly less. -/
def creditedAfter (credited seconds grace : α) : α :=
  if credited + seconds < grace then credited + seconds else grace

/-- What a credit is at: about to read the total, about to swap the one that it read, or over. -/
inductive Phase (α : Type) where
  | loading
  | swapping (current : α)
  | finished
deriving DecidableEq, Repr

structure Credit (α : Type) where
  seconds : α
  phase : Phase α
deriving DecidableEq, Repr

structure Deadline (α : Type) where
  grace : α
  credited : α
  credits : List (Credit α)
deriving DecidableEq, Repr

/-- A new credit, or a step of one. A weak swap may fail although the total is the one that was
read. -/
inductive Step (α : Type) [AddCommMonoid α] [LinearOrder α] where
  | credit (seconds : α) (nonneg : 0 ≤ seconds)
  | load (credit : Nat)
  | swap (credit : Nat) (spurious : Bool)

namespace Deadline

def new (grace : α) : Deadline α := ⟨grace, 0, []⟩

variable (deadline : Deadline α)

def enter (credit : Nat) (phase : Phase α) : Deadline α :=
  { deadline with credits := deadline.credits.modify credit fun now => { now with phase := phase } }

def load (credit : Nat) : Option (Deadline α) := do
  match (← deadline.credits[credit]?).phase with
  | .loading => some (deadline.enter credit (.swapping deadline.credited))
  | _ => none

/-- A swap that fails reads the total again. -/
def swap (credit : Nat) (spurious : Bool) : Option (Deadline α) := do
  let now ← deadline.credits[credit]?
  match now.phase with
  | .swapping current =>
    if deadline.credited = current ∧ spurious = false then
      let entered := deadline.enter credit .finished
      some { entered with credited := creditedAfter current now.seconds deadline.grace }
    else some (deadline.enter credit (.swapping deadline.credited))
  | _ => none

def step : Step α → Option (Deadline α)
  | .credit seconds _ =>
    some { deadline with credits := deadline.credits ++ [⟨seconds, .loading⟩] }
  | .load credit => deadline.load credit
  | .swap credit spurious => deadline.swap credit spurious

/-- The seconds of the credits that are over. -/
def done : List α :=
  (deadline.credits.filter (·.phase = .finished)).map Credit.seconds

end Deadline

/-! ## What is credited -/

section Credited

variable {deadline deadline' : Deadline α}

variable [IsOrderedAddMonoid α] in
/-- A sum that was capped before takes the next credit as the sum itself does. -/
theorem creditedAfter_min {grace sum seconds : α} (hseconds : 0 ≤ seconds) :
    creditedAfter (min grace sum) seconds grace = min grace (sum + seconds) := by
  unfold creditedAfter
  rcases le_total grace sum with hle | hle
  · have hgrace : grace ≤ grace + seconds := le_add_of_nonneg_right hseconds
    rw [min_eq_left hle, if_neg (not_lt.mpr hgrace),
      min_eq_left (hle.trans (le_add_of_nonneg_right hseconds))]
  · rw [min_eq_right hle]
    split_ifs with hsum
    · exact (min_eq_right hsum.le).symm
    · exact (min_eq_left (not_lt.mp hsum)).symm

/-- Every credit is of a time that is not negative, and the total is the capped sum of those
over. -/
structure Capped (deadline : Deadline α) : Prop where
  nonneg : ∀ credit ∈ deadline.credits, 0 ≤ credit.seconds
  credited : deadline.credited = min deadline.grace deadline.done.sum

omit [AddCommMonoid α] [LinearOrder α] in
theorem mem_credits_enter {credit : Nat} {phase : Phase α} {new : Credit α}
    (h : new ∈ (deadline.enter credit phase).credits) :
    ∃ old ∈ deadline.credits, new.seconds = old.seconds := by
  obtain ⟨index, hindex⟩ := List.mem_iff_getElem?.mp h
  simp only [Deadline.enter, List.getElem?_modify] at hindex
  obtain ⟨old, hold, rfl⟩ := Option.map_eq_some_iff.mp hindex
  refine ⟨old, List.mem_of_getElem? hold, ?_⟩
  split_ifs <;> rfl

/-- A credit that was not over and is then adds its seconds, and else nothing changes. -/
theorem sum_done_enter {credit : Nat} {phase : Phase α} {now : Credit α}
    (hnow : deadline.credits[credit]? = some now) (hphase : now.phase ≠ .finished) :
    (deadline.enter credit phase).done.sum =
      deadline.done.sum + if phase = .finished then now.seconds else 0 := by
  obtain ⟨hcredit, rfl⟩ := List.getElem?_eq_some_iff.mp hnow
  have hsplit : deadline.credits = deadline.credits.take credit ++
      deadline.credits[credit] :: deadline.credits.drop (credit + 1) := by simp
  have hdone : deadline.done.sum =
      (((deadline.credits.take credit).filter (·.phase = .finished)).map Credit.seconds).sum +
        (((deadline.credits.drop (credit + 1)).filter (·.phase = .finished)).map
          Credit.seconds).sum := by
    rw [Deadline.done, hsplit, List.filter_append, List.filter_cons_of_neg (by simpa using hphase),
      List.map_append, List.sum_append, ← hsplit]
  rw [hdone, Deadline.done, Deadline.enter, List.modify_eq_take_cons_drop hcredit,
    List.filter_append, List.map_append, List.sum_append]
  split_ifs with hfinished
  · rw [List.filter_cons_of_pos (by simpa using hfinished), List.map_cons, List.sum_cons]
    exact (add_left_comm _ _ _).trans (add_comm _ _)
  · rw [List.filter_cons_of_neg (by simpa using hfinished), add_zero]

namespace Capped

theorem enter {credit : Nat} {phase : Phase α} {now : Credit α} (h : Capped deadline)
    (hnow : deadline.credits[credit]? = some now) (hnot : now.phase ≠ .finished)
    (hphase : phase ≠ .finished) : Capped (deadline.enter credit phase) := by
  refine ⟨fun new hnew => ?_, ?_⟩
  · obtain ⟨old, hold, hseconds⟩ := mem_credits_enter hnew
    exact hseconds ▸ h.nonneg old hold
  · rw [sum_done_enter hnow hnot, if_neg hphase, add_zero]
    exact h.credited

variable [IsOrderedAddMonoid α]

theorem step {label : Step α} (h : Capped deadline) (hstep : deadline.step label = some deadline') :
    Capped deadline' ∧ deadline'.grace = deadline.grace ∧
      deadline.credited ≤ deadline'.credited := by
  cases label with
  | credit seconds hseconds =>
    obtain rfl := Option.some.inj hstep
    refine ⟨⟨fun credit hcredit => ?_, ?_⟩, rfl, le_refl _⟩
    · rcases List.mem_append.mp hcredit with hold | hnew
      · exact h.nonneg credit hold
      · obtain rfl := List.mem_singleton.mp hnew
        exact hseconds
    · rw [h.credited, Deadline.done, Deadline.done, List.filter_append]
      simp
  | load credit =>
    obtain ⟨now, hnow, hstep⟩ := Option.bind_eq_some_iff.mp hstep
    cases hphase : now.phase with
    | loading =>
      obtain rfl := Option.some.inj (by simpa [hphase] using hstep)
      exact ⟨h.enter hnow (by simp [hphase]) (by simp), rfl, le_refl _⟩
    | swapping current => simp [hphase] at hstep
    | finished => simp [hphase] at hstep
  | swap credit spurious =>
    obtain ⟨now, hnow, hstep⟩ := Option.bind_eq_some_iff.mp hstep
    cases hphase : now.phase with
    | loading => simp [hphase] at hstep
    | finished => simp [hphase] at hstep
    | swapping current =>
      have hnot : now.phase ≠ .finished := by simp [hphase]
      by_cases hswap : deadline.credited = current ∧ spurious = false
      · obtain ⟨rfl, rfl⟩ := hswap
        obtain rfl := Option.some.inj (by simpa [hphase] using hstep)
        have hseconds := h.nonneg now (List.mem_of_getElem? hnow)
        have htotal : creditedAfter deadline.credited now.seconds deadline.grace =
            min deadline.grace (deadline.done.sum + now.seconds) := by
          rw [h.credited, creditedAfter_min hseconds]
        refine ⟨⟨fun new hnew => ?_, ?_⟩, rfl, ?_⟩
        · obtain ⟨old, hold, hsame⟩ := mem_credits_enter hnew
          exact hsame ▸ h.nonneg old hold
        · have hdone : (deadline.enter credit .finished).done.sum =
              deadline.done.sum + now.seconds := by rw [sum_done_enter hnow hnot, if_pos rfl]
          exact htotal.trans (congrArg (min deadline.grace) hdone.symm)
        · dsimp only
          rw [htotal, h.credited]
          exact min_le_min_left _ (le_add_of_nonneg_right hseconds)
      · obtain rfl := Option.some.inj (by simpa [hphase, hswap] using hstep)
        exact ⟨h.enter hnow hnot (by simp), rfl, le_refl _⟩

theorem run {steps : List (Step α)} (h : Capped deadline)
    (hrun : Machine.run Deadline.step deadline steps = some deadline') :
    Capped deadline' ∧ deadline'.grace = deadline.grace ∧
      deadline.credited ≤ deadline'.credited := by
  refine run_induction (fun _ now => Capped now ∧ now.grace = deadline.grace ∧
    deadline.credited ≤ now.credited) ⟨h, rfl, le_refl _⟩ ?_ hrun
  rintro _ between label after _ ⟨hcapped, hgrace, hle⟩ hstep
  obtain ⟨hafter, hsame, hmore⟩ := hcapped.step hstep
  exact ⟨hafter, hsame.trans hgrace, hle.trans hmore⟩

end Capped

variable [IsOrderedAddMonoid α]

/-- In every order of the steps the total only grows and stays within the grace, and after them it
is the sum of all credits, capped at the grace. -/
theorem credits_not_lost {grace : α} (hgrace : 0 ≤ grace) {steps more : List (Step α)}
    (hrun : run Deadline.step (.new grace) steps = some deadline)
    (hmore : run Deadline.step deadline more = some deadline') :
    deadline.credited ≤ deadline'.credited ∧ deadline'.credited ≤ grace ∧
      deadline'.credited = min grace deadline'.done.sum ∧
      ((∀ credit ∈ deadline'.credits, credit.phase = .finished) →
        deadline'.credited = min grace (deadline'.credits.map Credit.seconds).sum) := by
  have hnew : Capped (.new grace) :=
    ⟨by simp [Deadline.new], by simpa [Deadline.new, Deadline.done]⟩
  obtain ⟨hcapped, hsame, -⟩ := hnew.run hrun
  obtain ⟨hlast, hlater, hle⟩ := hcapped.run hmore
  have htotal : deadline'.credited = min grace deadline'.done.sum := by
    rw [hlast.credited, hlater, hsame]
    rfl
  refine ⟨hle, htotal.trans_le (min_le_left _ _), htotal, fun hfinished => ?_⟩
  rw [htotal, Deadline.done, List.filter_eq_self.mpr (by simpa using hfinished)]

end Credited

/-! ## Two credits at once -/

namespace Raced

/-- Both credits read the total before one of them swaps. -/
def first : List (Step Nat) :=
  [.credit 3 (Nat.zero_le 3), .credit 4 (Nat.zero_le 4), .load 0, .load 1, .swap 0 false]

/-- The other fails once and is then capped. -/
def second : List (Step Nat) := [.swap 1 false, .swap 1 false]

def between : Deadline Nat := ⟨5, 3, [⟨3, .finished⟩, ⟨4, .swapping 0⟩]⟩

def last : Deadline Nat := ⟨5, 5, [⟨3, .finished⟩, ⟨4, .finished⟩]⟩

theorem credits_not_lost_raced :
    between.credited ≤ last.credited ∧ last.credited ≤ 5 ∧ last.credited = min 5 last.done.sum ∧
      ((∀ credit ∈ last.credits, credit.phase = .finished) →
        last.credited = min 5 (last.credits.map Credit.seconds).sum) := by
  have hfirst : run Deadline.step (.new 5) first = some between := by decide
  have hsecond : run Deadline.step between second = some last := by decide
  exact credits_not_lost (Nat.zero_le 5) hfirst hsecond

end Raced

end Agentless.Kernel
