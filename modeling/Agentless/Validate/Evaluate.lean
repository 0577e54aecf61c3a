import Agentless.Library.Machine
import Agentless.Library.Sequence
import Agentless.Validate.Plan

/-!
# Evaluating the candidates

One representative of each group is applied and tested in a worktree of its own, several at once.
The first that fails sets a flag, and no further one starts. The answers are read in representative
order when all are there, so the report and the error do not depend on which was ready first.
-/

namespace Agentless.Validate

open Text Patch

/-- A value, and the diagnostics that come with either outcome. -/
structure Noted (α : Type) where
  value : α
  diagnostics : List Text

/-- One representative's verdict, and whether the budget abandoned work it would have had. -/
structure Evaluation where
  verdict : CandidateVerdict
  abandoned : Bool
deriving DecidableEq

/-- Why a representative has no evaluation: another one failed first, or this one failed. -/
inductive Halt where
  | skipped
  | failed (error : Error)
deriving DecidableEq

/-! ## One representative -/

/-- What the worktree, the patch, the clock and the commands answer for one representative. A bound
says whether the budget decided it, and there is none when too little of the budget is left. -/
structure Answers where
  worktree : Except Error Unit
  applied : Except Error ApplyResult
  bound : Option Bool
  regression : Except Error RunResult
  reproductionBound : Option Bool
  reproduction : Except Error RunResult
  elapsed : Nat
  diagnostics : List Text

/-- What the reproduction rung gave one candidate. -/
structure Reproduced where
  verdict : Option Verdict
  run : Option RunResult
  truncated : Bool
  abandoned : Bool

def Reproduced.notGiven : Reproduced := ⟨none, none, false, false⟩

def Reproduced.notEvaluated (abandoned : Bool) : Reproduced :=
  ⟨some .notEvaluated, none, false, abandoned⟩

/-- The budget, not the caller's own timeout, ended the command. -/
def truncated (fromBudget : Bool) (run : RunResult) : Bool := fromBudget && run.status = .timeout

section Judge

variable (budget : Text) (reproCmd : Option Text) (reproValid : Bool) (plan : Plan)
  (answers : Answers)

/-- The reproduction command runs only on a usable rung and after a passing regression run. -/
def reproduction (regression : RunResult) : Except Error Reproduced :=
  if reproCmd.isNone || !reproValid then .ok .notGiven
  else if !regression.passed then .ok (.notEvaluated false)
  else
    match answers.reproductionBound with
    | none => .ok (.notEvaluated true)
    | some fromBudget => do
      let run ← answers.reproduction
      return ⟨some (.of run.status), some run, truncated fromBudget run, false⟩

def measuredVerdict (regression : RunResult) (reproduced : Reproduced) (cut : Bool)
    (duration : Nat) : Evaluation where
  verdict :=
    { id := plan.candidate.id
      index := plan.candidate.index
      applyStatus := .ok
      applyReasons := []
      equivalenceKey := plan.equivalenceKey
      regression := .of regression.status
      reproduction := reproduced.verdict
      duration := duration
      regressionRun := some regression
      reproductionRun := reproduced.run
      budgetTruncated := cut || reproduced.truncated
      executionGroup := none
      executedAs := none }
  abandoned := reproduced.abandoned

def measured : Except Error Evaluation :=
  match answers.bound with
  | none =>
    .ok ⟨appliedButUnmeasured plan.candidate plan.equivalenceKey budget answers.elapsed, true⟩
  | some fromBudget => do
    let regression ← answers.regression
    let reproduced ← reproduction reproCmd reproValid answers regression
    return measuredVerdict plan regression reproduced (truncated fromBudget regression) answers.elapsed

def judged : Except Error Evaluation := do
  let _ ← answers.worktree
  let result ← answers.applied
  if result.outcomes.all (·.status = .applied) then measured budget reproCmd reproValid plan answers
  else return ⟨applyFailed plan.candidate (reasons result) answers.elapsed, false⟩

end Judge

/-! ## All answers -/

/-- A SIGINT wins over any failure; otherwise the first failure in representative order stays. -/
def kept (first : Option Error) (found : Error) : Error :=
  match first with
  | some first => if isStopped first || !isStopped found then first else found
  | none => found

structure Gathering where
  evaluations : List Evaluation := []
  failure : Option Error := none
  skipped : Bool := false
  diagnostics : List Text := []

def Gathering.add (gathering : Gathering) (noted : Noted (Except Halt Evaluation)) : Gathering :=
  let gathering :=
    { gathering with diagnostics := gathering.diagnostics ++ noted.diagnostics }
  match noted.value with
  | .ok evaluation => { gathering with evaluations := gathering.evaluations ++ [evaluation] }
  | .error .skipped => { gathering with skipped := true }
  | .error (.failed error) => { gathering with failure := some (kept gathering.failure error) }

def gathered (evaluated : List (Noted (Except Halt Evaluation))) :
    Noted (Except Error (List Evaluation)) :=
  let gathering := evaluated.foldl Gathering.add {}
  let value := match gathering.failure with
    | some error => .error error
    | none => if gathering.skipped then .error stopped else .ok gathering.evaluations
  ⟨value, gathering.diagnostics⟩

/-- The plan of the first member of a group, which is executed for all of it. -/
def representative (plans : List Plan) (group : List Nat) : Option Plan :=
  group.head?.bind (plans[·]?)

def representatives (plans : List Plan) : List Plan :=
  (executionGroups plans).filterMap (representative plans)

def byIndex (verdicts : List CandidateVerdict) : List CandidateVerdict :=
  verdicts.insertionSort fun x y => x.index ≤ y.index

/-- One group's members as records of its representative's execution. -/
def sharedGroup (plans : List Plan) (group : List Nat) (evaluation : Evaluation) :
    List CandidateVerdict :=
  match representative plans group with
  | none => []
  | some first =>
    (group.filterMap (plans[·]?)).map (shareExecution evaluation.verdict · first.candidate.id)

/-- Each representative's execution projected onto every member of its group, with the candidates
that never planned, in index order. -/
def shared (plans : List Plan) (evaluations : List Evaluation) (immediate : List CandidateVerdict) :
    List CandidateVerdict × Bool :=
  (byIndex (immediate ++ ((executionGroups plans).zip evaluations).flatMap fun (group, evaluation) =>
    sharedGroup plans group evaluation), evaluations.any Evaluation.abandoned)

/-! ## A run -/

inductive BaselineStatus where
  | ok
  | unverified
deriving DecidableEq

inductive ReproVerdict where
  | notGiven
  | reproduces
  | doesNotReproduce
  | unrunnable
  | notEvaluated
deriving DecidableEq

structure RunHeader where
  baseline : BaselineStatus
  reproVerdict : ReproVerdict
deriving DecidableEq

def RunHeader.reproValid (header : RunHeader) : Bool := header.reproVerdict = .reproduces

structure ValidateReport where
  header : RunHeader
  verdicts : List CandidateVerdict
  deadlineExpired : Bool
deriving DecidableEq

/-- One validate call. -/
structure Run where
  repo : Repo
  candidates : List Candidate
  allowTestConfigEdits : Bool
  reproCmd : Option Text
  budget : Text

/-- Where the evaluation of one representative is. -/
inductive Phase where
  | waiting
  | claimed
  | admitted
  | done (answer : Noted (Except Halt Evaluation))

/-- The next representative that no worker took, the flag that the workers share, and the
representatives. -/
structure Pool where
  next : Nat
  stop : Bool
  phases : List Phase

inductive Stage where
  | baseline
  | planning (header : RunHeader)
  | evaluating (header : RunHeader) (plans : List Plan) (immediate : List CandidateVerdict)
  | returned (result : Except Error ValidateReport)

/-- The pool is there from the first representative on. -/
structure State where
  stage : Stage
  pool : Option Pool

def State.start : State := ⟨.baseline, none⟩

inductive Label where
  | baseline (answer : Except Error (RunHeader × Bool))
  | plan (worktree : Except Error Unit) (elapsed : Candidate → Nat)
  | claim
  | load (position : Nat)
  | interrupted (position : Nat)
  | reached (position : Nat)
  | judged (position : Nat) (answers : Answers)
  | gather

def Pool.finish (pool : Pool) (position : Nat) (answer : Noted (Except Halt Evaluation)) : Pool :=
  { pool with phases := pool.phases.set position (.done answer) }

def Pool.halt (pool : Pool) (position : Nat) (error : Error) (diagnostics : List Text) : Pool :=
  { pool.finish position ⟨.error (.failed error), diagnostics⟩ with stop := true }

def Phase.answer : Phase → Option (Noted (Except Halt Evaluation))
  | .done answer => some answer
  | _ => none

/-- The answers in representative order, when all are there. -/
def Pool.answers (pool : Pool) : Option (List (Noted (Except Halt Evaluation))) :=
  if pool.phases.all (·.answer.isSome) then some (pool.phases.filterMap Phase.answer) else none

section Run

variable (run : Run)

/-- The report of a baseline that leaves nothing to evaluate, or the way on. -/
def afterBaseline : Except Error (RunHeader × Bool) → Stage
  | .error error => .returned (.error error)
  | .ok (header, expired) =>
    if expired then
      .returned (.ok ⟨header, run.candidates.map (deadlineExpired · run.budget), true⟩)
    else if header.baseline = .unverified then
      .returned (.ok ⟨header, run.candidates.map notEvaluated, false⟩)
    else .planning header

def afterPlan (header : RunHeader) (worktree : Except Error Unit) (elapsed : Candidate → Nat) : State :=
  match worktree.bind fun _ =>
    planned run.repo run.allowTestConfigEdits elapsed run.candidates with
  | .error error => ⟨.returned (.error error), none⟩
  | .ok (plans, immediate) =>
    ⟨.evaluating header plans immediate,
      some ⟨0, false, List.replicate (representatives plans).length .waiting⟩⟩

def reported (header : RunHeader) (plans : List Plan) (immediate : List CandidateVerdict)
    (answers : List (Noted (Except Halt Evaluation))) : Except Error ValidateReport :=
  (gathered answers).value.map fun evaluations =>
    let (verdicts, expired) := shared plans evaluations immediate
    ⟨header, verdicts, expired⟩

/-- What a worker does next with a representative. -/
def workerStep (header : RunHeader) (plans : List Plan) (pool : Pool) : Label → Option Pool
  | .claim =>
    match pool.phases[pool.next]? with
    | some .waiting =>
      some { pool with next := pool.next + 1, phases := pool.phases.set pool.next .claimed }
    | _ => none
  | .load position =>
    match pool.phases[position]? with
    | some .claimed =>
      if pool.stop then some (pool.finish position ⟨.error .skipped, []⟩)
      else some { pool with phases := pool.phases.set position .admitted }
    | _ => none
  | .interrupted position =>
    match pool.phases[position]? with
    | some .admitted => some (pool.halt position stopped [])
    | _ => none
  | .reached position =>
    match pool.phases[position]?, (representatives plans)[position]? with
    | some .admitted, some plan =>
      some (pool.finish position ⟨.ok ⟨deadlineExpired plan.candidate run.budget, true⟩, []⟩)
    | _, _ => none
  | .judged position answers =>
    match pool.phases[position]?, (representatives plans)[position]? with
    | some .admitted, some plan =>
      match judged run.budget run.reproCmd header.reproValid plan answers with
      | .ok evaluation => some (pool.finish position ⟨.ok evaluation, answers.diagnostics⟩)
      | .error error => some (pool.halt position error answers.diagnostics)
    | _, _ => none
  | _ => none

def step (state : State) (label : Label) : Option State :=
  match state.stage, state.pool, label with
  | .baseline, _, .baseline answer => some { state with stage := afterBaseline run answer }
  | .planning header, _, .plan worktree elapsed => some (afterPlan run header worktree elapsed)
  | .evaluating header plans immediate, some pool, .gather =>
    pool.answers.map fun answers =>
      { state with stage := .returned (reported header plans immediate answers) }
  | .evaluating header plans _, some pool, label =>
    (workerStep run header plans pool label).map fun pool => { state with pool := some pool }
  | _, _, _ => none

/-! ## What a step can do -/

section Steps

variable {run} {header : RunHeader} {plans : List Plan} {pool pool' : Pool} {label : Label}

/-- What each step of a worker sets the phase of its representative to. -/
inductive Sets (run : Run) (header : RunHeader) (plans : List Plan) : Label → Nat → Phase → Prop where
  | claimed {position : Nat} : Sets run header plans .claim position .claimed
  | admitted {position : Nat} : Sets run header plans (.load position) position .admitted
  | skipped {position : Nat} :
      Sets run header plans (.load position) position (.done ⟨.error .skipped, []⟩)
  | interrupted {position : Nat} :
      Sets run header plans (.interrupted position) position (.done ⟨.error (.failed stopped), []⟩)
  | reached {position : Nat} {plan : Plan} (hplan : (representatives plans)[position]? = some plan) :
      Sets run header plans (.reached position) position
        (.done ⟨.ok ⟨deadlineExpired plan.candidate run.budget, true⟩, []⟩)
  | evaluated {position : Nat} {plan : Plan} {answers : Answers} {evaluation : Evaluation}
      (hplan : (representatives plans)[position]? = some plan)
      (h : judged run.budget run.reproCmd header.reproValid plan answers = .ok evaluation) :
      Sets run header plans (.judged position answers) position
        (.done ⟨.ok evaluation, answers.diagnostics⟩)
  | failed {position : Nat} {plan : Plan} {answers : Answers} {error : Error}
      (hplan : (representatives plans)[position]? = some plan)
      (h : judged run.budget run.reproCmd header.reproValid plan answers = .error error) :
      Sets run header plans (.judged position answers) position
        (.done ⟨.error (.failed error), answers.diagnostics⟩)

theorem workerStep_cases (h : workerStep run header plans pool label = some pool') :
    ∃ position held phase, pool.phases[position]? = some held ∧ held.answer = none ∧
      pool'.phases = pool.phases.set position phase ∧ Sets run header plans label position phase ∧
      ((pool'.stop = pool.stop ∧
          ∀ halt diagnostics, phase ≠ .done ⟨.error halt, diagnostics⟩) ∨
        (pool'.stop = pool.stop ∧ pool.stop = true ∧ phase = .done ⟨.error .skipped, []⟩) ∨
        (pool'.stop = true ∧
          ∃ error diagnostics, phase = .done ⟨.error (.failed error), diagnostics⟩)) := by
  cases label with
  | claim =>
    simp only [workerStep] at h
    split at h
    · rename_i hheld
      obtain rfl := Option.some.inj h
      exact ⟨pool.next, .waiting, .claimed, hheld, rfl, rfl, .claimed, .inl ⟨rfl, by simp⟩⟩
    · cases h
  | load position =>
    simp only [workerStep] at h
    split at h
    · rename_i hheld
      split_ifs at h with hstop
      · obtain rfl := Option.some.inj h
        exact ⟨position, .claimed, _, hheld, rfl, rfl, .skipped, .inr (.inl ⟨rfl, hstop, rfl⟩)⟩
      · obtain rfl := Option.some.inj h
        exact ⟨position, .claimed, .admitted, hheld, rfl, rfl, .admitted, .inl ⟨rfl, by simp⟩⟩
    · cases h
  | interrupted position =>
    simp only [workerStep] at h
    split at h
    · rename_i hheld
      obtain rfl := Option.some.inj h
      exact ⟨position, .admitted, _, hheld, rfl, rfl, .interrupted, .inr (.inr ⟨rfl, _, _, rfl⟩)⟩
    · cases h
  | reached position =>
    simp only [workerStep] at h
    split at h
    · rename_i hheld hplan
      obtain rfl := Option.some.inj h
      exact ⟨position, .admitted, _, hheld, rfl, rfl, .reached hplan, .inl ⟨rfl, by simp⟩⟩
    · cases h
  | judged position answers =>
    simp only [workerStep] at h
    split at h
    · rename_i hheld hplan
      split at h
      · rename_i hjudged
        obtain rfl := Option.some.inj h
        exact ⟨position, .admitted, _, hheld, rfl, rfl, .evaluated hplan hjudged,
          .inl ⟨rfl, by simp⟩⟩
      · rename_i hjudged
        obtain rfl := Option.some.inj h
        exact ⟨position, .admitted, _, hheld, rfl, rfl, .failed hplan hjudged,
          .inr (.inr ⟨rfl, _, _, rfl⟩)⟩
    · cases h
  | baseline answer => cases h
  | plan worktree elapsed => cases h
  | gather => cases h

theorem step_cases {state after : State} (h : step run state label = some after) :
    (∃ answer, label = .baseline answer ∧ state.stage = .baseline ∧
      after = { state with stage := afterBaseline run answer }) ∨
    (∃ header worktree elapsed, label = .plan worktree elapsed ∧ state.stage = .planning header ∧
      after = afterPlan run header worktree elapsed) ∨
    (∃ header plans immediate pool answers, label = .gather ∧
      state.stage = .evaluating header plans immediate ∧ state.pool = some pool ∧
      pool.answers = some answers ∧
      after = { state with stage := .returned (reported header plans immediate answers) }) ∨
    (∃ header plans immediate pool pool', (∀ answer, label ≠ .baseline answer) ∧
      state.stage = .evaluating header plans immediate ∧ state.pool = some pool ∧
      workerStep run header plans pool label = some pool' ∧
      after = { state with pool := some pool' }) := by
  unfold step at h
  split at h
  · rename_i hstage
    exact .inl ⟨_, rfl, hstage, (Option.some.inj h).symm⟩
  · rename_i hstage
    exact .inr (.inl ⟨_, _, _, rfl, hstage, (Option.some.inj h).symm⟩)
  · rename_i hstage hpool
    obtain ⟨answers, hanswers, rfl⟩ := Option.map_eq_some_iff.mp h
    exact .inr (.inr (.inl ⟨_, _, _, _, answers, rfl, hstage, hpool, hanswers, rfl⟩))
  · rename_i hstage hpool _
    obtain ⟨pool', hworker, rfl⟩ := Option.map_eq_some_iff.mp h
    refine .inr (.inr (.inr ⟨_, _, _, _, pool', ?_, hstage, hpool, hworker, rfl⟩))
    rintro answer rfl
    cases hworker
  · cases h

end Steps

end Run

end Agentless.Validate
