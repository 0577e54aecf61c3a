import Agentless.Library.Machine
import Agentless.Library.Sequence

/-!
# A parallel map

A bounded pool of workers maps a list and keeps the input order. The caller starts its helpers one
after the other and then works too; a helper that cannot start leaves its share to the caller.
Each worker takes the next unclaimed index from one shared counter, and the steps of the workers
come in any order.
-/

namespace Agentless.App.Parallel

open Machine

/-- What one call of the work loop is at: not begun, about to claim an index, in the function on
the index it claimed, or returned. It has its results so far, each with its index. -/
inductive Work (R : Type) where
  | waiting
  | claiming (done : List (Nat × R))
  | calling (done : List (Nat × R)) (index : Nat)
  | returned (done : List (Nat × R))

/-- What the caller is at: it starts a helper, does the share of one that could not start, or works
after all are started. -/
inductive Stage where
  | starting (helper : Nat)
  | covering (helper : Nat)
  | working
deriving DecidableEq, Repr

/-- The shared counter, the caller's stage, the work loops with the caller's own first, and the
indices that the function was called for so far. -/
structure Pool (R : Type) where
  next : Nat
  stage : Stage
  works : List (Work R)
  calls : List Nat

/-- A step of the caller, which starts the next work, or one of a work loop. -/
inductive Step where
  | start (refused : Bool)
  | claim (worker : Nat)
  | complete (worker : Nat)
deriving DecidableEq, Repr

section Model
variable {T R : Type} (items : List T) (f : T → R)

/-- The pool before the first helper is started. -/
def initial (workers : Nat) : Pool R :=
  { next := 0, stage := .starting 1, works := List.replicate workers .waiting, calls := [] }

/-- A helper starts on its own thread, or the caller does its work before it goes on. When there
is no helper left, the caller begins its own. -/
def start (pool : Pool R) (refused : Bool) : Option (Pool R) :=
  match pool.stage with
  | .starting helper =>
    if helper < pool.works.length then
      some { pool with
        stage := if refused then .covering helper else .starting (helper + 1)
        works := pool.works.set helper (.claiming []) }
    else some { pool with stage := .working, works := pool.works.set 0 (.claiming []) }
  | _ => none

/-- The stage after the work of `worker` returned. -/
def afterReturn (stage : Stage) (worker : Nat) : Stage :=
  if stage = .covering worker then .starting (worker + 1) else stage

/-- A worker adds one to the counter, and takes the item at the index it held. -/
def claim (pool : Pool R) (worker : Nat) : Option (Pool R) :=
  match pool.works[worker]? with
  | some (.claiming done) =>
    match items[pool.next]? with
    | some _ =>
      some { pool with
        next := pool.next + 1
        works := pool.works.set worker (.calling done pool.next)
        calls := pool.calls ++ [pool.next] }
    | none =>
      some { pool with
        next := pool.next + 1
        stage := afterReturn pool.stage worker
        works := pool.works.set worker (.returned done) }
  | _ => none

/-- The function returns to the worker that called it. -/
def complete (pool : Pool R) (worker : Nat) : Option (Pool R) :=
  match pool.works[worker]? with
  | some (.calling done index) =>
    (items[index]?).map fun item =>
      { pool with works := pool.works.set worker (.claiming (done ++ [(index, f item)])) }
  | _ => none

def step (pool : Pool R) : Step → Option (Pool R)
  | .start refused => start pool refused
  | .claim worker => claim items pool worker
  | .complete worker => complete items f pool worker

def Work.hasReturned : Work R → Bool
  | .returned _ => true
  | _ => false

def Work.done : Work R → List (Nat × R)
  | .waiting => []
  | .claiming done => done
  | .calling done _ => done
  | .returned done => done

/-- Every work loop returned, so that the caller has joined its helpers. -/
def Pool.finished (pool : Pool R) : Bool := pool.works.all Work.hasReturned

/-- The results of all work loops, put in the order of their indices. -/
def Pool.collected (pool : Pool R) : List R :=
  ((pool.works.flatMap Work.done).insertionSort fun a b => a.1 ≤ b.1).map Prod.snd

def workerCount (threads : Nat) : Nat := max 1 (min threads (max items.length 1))

/-- What one call of the map can do: the indices it calls the function for, in the order of the
calls, and the results it returns. -/
def MapsTo (threads : Nat) (calls : List Nat) (results : List R) : Prop :=
  if workerCount items threads = 1 then calls = List.range items.length ∧ results = items.map f
  else ∃ steps pool, run (step items f) (initial (workerCount items threads)) steps = some pool ∧
    pool.finished = true ∧ calls = pool.calls ∧ results = pool.collected

end Model

end Agentless.App.Parallel

/-!
## The parallel map is the serial map

Whatever the order of the steps, the indices done or in work are those below the counter, each
once, and each result stands with the index of its item.
-/

namespace Agentless.App.Parallel

open Machine

variable {T R : Type} {items : List T} {f : T → R} {pool after : Pool R} {works : List (Work R)}
  {stage : Stage} {worker helper : Nat} {label : Step}

/-- What a step can do. -/
inductive Moved (items : List T) (f : T → R) (pool : Pool R) : Pool R → Prop where
  | started {helper : Nat} {refused : Bool} (hstage : pool.stage = .starting helper)
      (hhelper : helper < pool.works.length) :
      Moved items f pool { pool with
        stage := if refused then .covering helper else .starting (helper + 1)
        works := pool.works.set helper (.claiming []) }
  | began {helper : Nat} (hstage : pool.stage = .starting helper)
      (hhelper : pool.works.length ≤ helper) :
      Moved items f pool
        { pool with stage := .working, works := pool.works.set 0 (.claiming []) }
  | claimed {worker : Nat} {done : List (Nat × R)} (hwork : pool.works[worker]? = some (.claiming done))
      (hnext : pool.next < items.length) :
      Moved items f pool { pool with
        next := pool.next + 1
        works := pool.works.set worker (.calling done pool.next)
        calls := pool.calls ++ [pool.next] }
  | returned {worker : Nat} {done : List (Nat × R)} (hwork : pool.works[worker]? = some (.claiming done))
      (hnext : items.length ≤ pool.next) :
      Moved items f pool { pool with
        next := pool.next + 1
        stage := afterReturn pool.stage worker
        works := pool.works.set worker (.returned done) }
  | completed {worker index : Nat} {done : List (Nat × R)} {item : T}
      (hwork : pool.works[worker]? = some (.calling done index)) (hitem : items[index]? = some item) :
      Moved items f pool
        { pool with works := pool.works.set worker (.claiming (done ++ [(index, f item)])) }

theorem moved (h : step items f pool label = some after) : Moved items f pool after := by
  cases label with
  | start refused =>
    simp only [step, start] at h
    split at h
    · next helper hstage =>
      split at h
      · next hhelper =>
        cases h
        exact .started hstage hhelper
      · next hhelper =>
        cases h
        exact .began hstage (Nat.le_of_not_lt hhelper)
    · cases h
  | claim worker =>
    simp only [step, claim] at h
    split at h
    · next done hwork =>
      split at h
      · next item hitem =>
        cases h
        exact .claimed hwork (List.getElem?_eq_some_iff.mp hitem).1
      · next hnone =>
        cases h
        exact .returned hwork (List.getElem?_eq_none_iff.mp hnone)
    · cases h
  | complete worker =>
    simp only [step, complete] at h
    split at h
    · next done index hwork =>
      obtain ⟨item, hitem, rfl⟩ := Option.map_eq_some_iff.mp h
      exact .completed hwork hitem
    · cases h

/-! ## Which works have begun -/

/-- The works still waiting are the caller's own and those of the helpers not yet started, and the
share that the caller does in a helper's place has not returned. -/
def Staged (works : List (Work R)) : Stage → Prop
  | .starting helper => 1 ≤ helper ∧ helper ≤ works.length ∧ works[0]? = some .waiting ∧
    ∀ j < works.length, j ≠ 0 → (works[j]? = some .waiting ↔ helper ≤ j)
  | .covering helper => 1 ≤ helper ∧ helper < works.length ∧ works[0]? = some .waiting ∧
    (∀ j < works.length, j ≠ 0 → (works[j]? = some .waiting ↔ helper < j)) ∧
    ∀ done, works[helper]? ≠ some (.returned done)
  | .working => ∀ j : Nat, works[j]? ≠ some Work.waiting

theorem staged_initial {workers : Nat} (h : 1 ≤ workers) :
    Staged (initial workers : Pool R).works (initial workers : Pool R).stage := by
  refine ⟨le_refl _, by simpa [initial] using h, by simp [initial, List.getElem?_replicate]; omega, fun j hj hne => ?_⟩
  simp only [initial, List.length_replicate] at hj
  simp [initial, hj]
  omega

/-- A work that has begun stays so. -/
theorem waiting_set_iff {old new : Work R} (h : works[worker]? = some old) (hold : old ≠ .waiting)
    (hnew : new ≠ .waiting) (j : Nat) :
    (works.set worker new)[j]? = some .waiting ↔ works[j]? = some .waiting := by
  obtain ⟨hlength, rfl⟩ := List.getElem?_eq_some_iff.mp h
  grind

theorem Staged.progress {old new : Work R} (hstaged : Staged works stage)
    (h : works[worker]? = some old) (hold : old ≠ .waiting) (hnew : new ≠ .waiting)
    (hgoes : ∀ done, new ≠ .returned done) : Staged (works.set worker new) stage := by
  cases stage with
  | starting helper =>
    obtain ⟨hone, hle, hown, hwaits⟩ := hstaged
    refine ⟨hone, by simpa using hle, (waiting_set_iff h hold hnew 0).mpr hown, fun j hj hne => ?_⟩
    rw [waiting_set_iff h hold hnew, hwaits j (by simpa using hj) hne]
  | covering helper =>
    obtain ⟨hone, hlt, hown, hwaits, hcover⟩ := hstaged
    refine ⟨hone, by simpa using hlt, (waiting_set_iff h hold hnew 0).mpr hown, fun j hj hne => ?_,
      fun done => ?_⟩
    · rw [waiting_set_iff h hold hnew, hwaits j (by simpa using hj) hne]
    · have := hgoes done
      have := hcover done
      grind
  | working =>
    intro j
    rw [ne_eq, waiting_set_iff h hold hnew]
    exact hstaged j

theorem Staged.return {done : List (Nat × R)} (hstaged : Staged works stage)
    (h : works[worker]? = some (.claiming done)) :
    Staged (works.set worker (.returned done)) (afterReturn stage worker) := by
  have hsame : ∀ j : Nat, (works.set worker (.returned done))[j]? = some .waiting ↔
      works[j]? = some .waiting := waiting_set_iff h (by simp) (by simp)
  cases stage with
  | starting helper =>
    obtain ⟨hone, hle, hown, hwaits⟩ := hstaged
    refine ⟨hone, by simpa using hle, (hsame 0).mpr hown, fun j hj hne => ?_⟩
    rw [hsame, hwaits j (by simpa using hj) hne]
  | covering helper =>
    obtain ⟨hone, hlt, hown, hwaits, hcover⟩ := hstaged
    by_cases heq : helper = worker
    · subst heq
      rw [afterReturn, if_pos rfl]
      refine ⟨by omega, by simpa using hlt, (hsame 0).mpr hown, fun j hj hne => ?_⟩
      rw [hsame, hwaits j (by simpa using hj) hne]
      omega
    · rw [afterReturn, if_neg (by simpa using heq)]
      refine ⟨hone, by simpa using hlt, (hsame 0).mpr hown, fun j hj hne => ?_, fun done => ?_⟩
      · rw [hsame, hwaits j (by simpa using hj) hne]
      · rw [List.getElem?_set_ne (Ne.symm heq)]
        exact hcover done
  | working =>
    intro j
    rw [ne_eq, hsame]
    exact hstaged j

theorem Staged.waiting_of_starting (hstaged : Staged works (.starting helper))
    (hhelper : helper < works.length) : works[helper]? = some .waiting :=
  (hstaged.2.2.2 helper hhelper (by have := hstaged.1; omega)).mpr (le_refl _)

theorem Staged.started (refused : Bool) (hstaged : Staged works (.starting helper))
    (hhelper : helper < works.length) : Staged (works.set helper (.claiming []))
      (if refused then .covering helper else .starting (helper + 1)) := by
  obtain ⟨hone, hle, hown, hwaits⟩ := hstaged
  have hlater : ∀ j < (works.set helper (.claiming [])).length, j ≠ 0 →
      ((works.set helper (.claiming []))[j]? = some .waiting ↔ helper < j) := by
    intro j hj hne
    have := hwaits j (by simpa using hj) hne
    rcases eq_or_ne helper j with rfl | hother
    · simp [hhelper]
    · rw [List.getElem?_set_ne hother, this]
      omega
  have hfirst : (works.set helper (.claiming []))[0]? = some .waiting := by
    rwa [List.getElem?_set_ne (by omega)]
  cases refused with
  | true => exact ⟨hone, by simpa using hhelper, hfirst, hlater, by simp [hhelper]⟩
  | false => exact ⟨by omega, by simpa using hhelper, hfirst, hlater⟩

theorem Staged.began (hstaged : Staged works (.starting helper)) (hhelper : works.length ≤ helper) :
    Staged (works.set 0 (.claiming [])) .working := by
  obtain ⟨hone, hle, hown, hwaits⟩ := hstaged
  intro j hj
  have hlength : j < works.length := by
    simpa using (List.getElem?_eq_some_iff.mp hj).1
  rcases eq_or_ne 0 j with rfl | hne
  · rw [List.getElem?_set_self hlength] at hj
    cases hj
  · rw [List.getElem?_set_ne hne, hwaits j hlength (Ne.symm hne)] at hj
    omega

/-! ## The indices taken -/

/-- The indices whose items a work has mapped or is in the function on. -/
def Work.taken : Work R → List Nat
  | .calling done index => done.map Prod.fst ++ [index]
  | work => work.done.map Prod.fst

/-- The invariant of every run. -/
structure Valid (items : List T) (f : T → R) (pool : Pool R) : Prop where
  calls : pool.calls = List.range (min pool.next items.length)
  taken : (pool.works.flatMap Work.taken).Perm pool.calls
  results : ∀ work ∈ pool.works, ∀ entry ∈ work.done, (items[entry.1]?).map f = some entry.2
  exhausted : ∀ work ∈ pool.works, work.hasReturned = true → items.length ≤ pool.next
  nonempty : pool.works ≠ []
  staged : Staged pool.works pool.stage

theorem valid_initial {workers : Nat} (h : 1 ≤ workers) :
    Valid items f (initial workers : Pool R) where
  calls := by simp [initial]
  taken := by simp [initial, Work.taken, Work.done, List.flatMap_eq_nil_iff]
  results := by
    intro work hwork entry hentry
    rw [List.eq_of_mem_replicate hwork] at hentry
    exact absurd hentry List.not_mem_nil
  exhausted := by
    intro work hwork hreturned
    rw [List.eq_of_mem_replicate hwork] at hreturned
    cases hreturned
  nonempty := by
    simp only [initial, ne_eq, List.replicate_eq_nil_iff]
    omega
  staged := staged_initial h

/-- The indices taken when one work takes some more. -/
theorem flatMap_set_perm {g : Work R → List Nat} {old new : Work R} {more : List Nat}
    (h : works[worker]? = some old) (hnew : (g new).Perm (g old ++ more)) :
    ((works.set worker new).flatMap g).Perm (works.flatMap g ++ more) := by
  obtain ⟨others, hold, hset⟩ := Sequence.exists_set_perm h new
  have hmove : (g old ++ more ++ others.flatMap g).Perm (g old ++ others.flatMap g ++ more) := by
    rw [List.append_assoc, List.append_assoc]
    exact List.perm_append_comm.append_left _
  have hlists : ((works.set worker new).flatMap g).Perm (g old ++ more ++ others.flatMap g) :=
    (hset.flatMap_right g).trans (hnew.append_right _)
  exact (hlists.trans hmove).trans ((hold.flatMap_right g).symm.append_right _)

theorem taken_set_perm {old new : Work R} {calls : List Nat} (h : works[worker]? = some old)
    (hnew : new.taken.Perm old.taken) (htaken : (works.flatMap Work.taken).Perm calls) :
    ((works.set worker new).flatMap Work.taken).Perm calls := by
  have hset : ((works.set worker new).flatMap Work.taken).Perm (works.flatMap Work.taken ++ []) :=
    flatMap_set_perm h (by simpa using hnew)
  rw [List.append_nil] at hset
  exact hset.trans htaken

theorem Valid.moved (hvalid : Valid items f pool) (h : Moved items f pool after) :
    Valid items f after := by
  have hmem : ∀ {j : Nat} {work new : Work R}, work ∈ pool.works.set j new →
      work ∈ pool.works ∨ work = new := List.mem_or_eq_of_mem_set
  have hne : ∀ {j : Nat} {new : Work R}, pool.works.set j new ≠ [] := by
    simpa using hvalid.nonempty
  have hstaged := hvalid.staged
  cases h with
  | @started helper refused hstage hhelper =>
    rw [hstage] at hstaged
    have hwaiting := hstaged.waiting_of_starting hhelper
    refine ⟨hvalid.calls, taken_set_perm hwaiting (List.Perm.refl _) hvalid.taken, ?_, ?_,
      hne, hstaged.started refused hhelper⟩
    · intro work hwork entry hentry
      rcases hmem hwork with hwork | rfl
      · exact hvalid.results work hwork entry hentry
      · exact absurd hentry List.not_mem_nil
    · intro work hwork hreturned
      rcases hmem hwork with hwork | rfl
      · exact hvalid.exhausted work hwork hreturned
      · cases hreturned
  | @began helper hstage hhelper =>
    rw [hstage] at hstaged
    refine ⟨hvalid.calls, taken_set_perm hstaged.2.2.1 (List.Perm.refl _) hvalid.taken, ?_, ?_,
      hne, hstaged.began hhelper⟩
    · intro work hwork entry hentry
      rcases hmem hwork with hwork | rfl
      · exact hvalid.results work hwork entry hentry
      · exact absurd hentry List.not_mem_nil
    · intro work hwork hreturned
      rcases hmem hwork with hwork | rfl
      · exact hvalid.exhausted work hwork hreturned
      · cases hreturned
  | @claimed worker done hwork hnext =>
    refine ⟨?_, ?_, ?_, ?_, hne, hstaged.progress hwork (by simp) (by simp) (by simp)⟩
    · rw [hvalid.calls, Nat.min_eq_left hnext.le, Nat.min_eq_left hnext, List.range_succ]
    · exact (flatMap_set_perm hwork (List.Perm.refl _)).trans (hvalid.taken.append_right _)
    · intro work hwork' entry hentry
      rcases hmem hwork' with hold | rfl
      · exact hvalid.results work hold entry hentry
      · exact hvalid.results _ (List.mem_of_getElem? hwork) entry hentry
    · intro work hwork' hreturned
      rcases hmem hwork' with hold | rfl
      · exact (hvalid.exhausted work hold hreturned).trans (Nat.le_succ _)
      · cases hreturned
  | @returned worker done hwork hnext =>
    refine ⟨?_, ?_, ?_, ?_, hne, hstaged.return hwork⟩
    · rw [hvalid.calls, Nat.min_eq_right hnext, Nat.min_eq_right (hnext.trans (Nat.le_succ _))]
    · exact taken_set_perm hwork (List.Perm.refl _) hvalid.taken
    · intro work hwork' entry hentry
      rcases hmem hwork' with hold | rfl
      · exact hvalid.results work hold entry hentry
      · exact hvalid.results _ (List.mem_of_getElem? hwork) entry hentry
    · intro work hwork' hreturned
      exact hnext.trans (Nat.le_succ _)
  | @completed worker index done item hwork hitem =>
    refine ⟨hvalid.calls, taken_set_perm hwork ?_ hvalid.taken, ?_, ?_, hne,
      hstaged.progress hwork (by simp) (by simp) (by simp)⟩
    · simp [Work.taken, Work.done]
    · intro work hwork' entry hentry
      rcases hmem hwork' with hold | rfl
      · exact hvalid.results work hold entry hentry
      · rcases List.mem_append.mp hentry with hdone | hnew
        · exact hvalid.results _ (List.mem_of_getElem? hwork) entry hdone
        · rw [List.mem_singleton.mp hnew, hitem, Option.map_some]
    · intro work hwork' hreturned
      rcases hmem hwork' with hold | rfl
      · exact hvalid.exhausted work hold hreturned
      · cases hreturned

theorem valid_of_run {workers : Nat} {steps : List Step} (hworkers : 1 ≤ workers)
    (h : run (step items f) (initial workers) steps = some pool) : Valid items f pool :=
  run_induction (fun _ => Valid items f) (valid_initial hworkers)
    (fun _ _ _ _ _ hvalid hstep => hvalid.moved (moved hstep)) h

/-! ## How long a run goes on -/

/-- The steps that a work takes on its own before it claims the next index in vain. -/
def Work.weight : Work R → Nat
  | .waiting => 2
  | .claiming _ => 1
  | .calling _ _ => 2
  | .returned _ => 0

/-- The steps left to a pool. -/
def remaining (items : List T) (pool : Pool R) : Nat :=
  2 * (items.length - pool.next) + (pool.works.map Work.weight).sum

theorem weight_set {old : Work R} (new : Work R) (h : works[worker]? = some old) :
    ((works.set worker new).map Work.weight).sum + old.weight =
      (works.map Work.weight).sum + new.weight := by
  obtain ⟨others, hold, hset⟩ := Sequence.exists_set_perm h new
  rw [(hold.map _).sum_eq, (hset.map _).sum_eq, List.map_cons, List.map_cons, List.sum_cons,
    List.sum_cons]
  omega

/-- Every step is one of those left. -/
theorem remaining_moved (hvalid : Valid items f pool) (h : Moved items f pool after) :
    remaining items after + 1 = remaining items pool := by
  have hstaged := hvalid.staged
  unfold remaining
  cases h with
  | @started helper refused hstage hhelper =>
    rw [hstage] at hstaged
    have := weight_set (.claiming []) (hstaged.waiting_of_starting hhelper)
    simp only [Work.weight] at this ⊢
    omega
  | @began helper hstage hhelper =>
    rw [hstage] at hstaged
    have := weight_set (.claiming []) hstaged.2.2.1
    simp only [Work.weight] at this ⊢
    omega
  | @claimed worker done hwork hnext =>
    have := weight_set (.calling done pool.next) hwork
    simp only [Work.weight] at this ⊢
    omega
  | @returned worker done hwork hnext =>
    have := weight_set (.returned done) hwork
    simp only [Work.weight] at this ⊢
    omega
  | @completed worker index done item hwork hitem =>
    have := weight_set (.claiming (done ++ [(index, f item)])) hwork
    simp only [Work.weight] at this ⊢
    omega

theorem length_add_remaining {workers : Nat} {steps : List Step} (hworkers : 1 ≤ workers)
    (h : run (step items f) (initial workers) steps = some pool) :
    steps.length + remaining items pool = 2 * (items.length + workers) := by
  refine run_induction (fun steps pool => steps.length + remaining items pool =
    2 * (items.length + workers)) ?_ ?_ h
  · simp [remaining, initial, Work.weight]
    omega
  · intro steps between label after hrun hlength hstep
    have := remaining_moved (valid_of_run hworkers hrun) (moved hstep)
    rw [List.length_append, List.length_singleton]
    omega

theorem exists_step_of_work {work : Work R} (hvalid : Valid items f pool)
    (h : pool.works[worker]? = some work) (hwaiting : work ≠ .waiting)
    (hreturned : ∀ done, work ≠ .returned done) :
    ∃ label after, step items f pool label = some after := by
  cases work with
  | waiting => exact absurd rfl hwaiting
  | returned done => exact absurd rfl (hreturned done)
  | claiming done =>
    refine ⟨.claim worker, ?_⟩
    simp only [step, claim, h]
    cases items[pool.next]? <;> exact ⟨_, rfl⟩
  | calling done index =>
    have htaken : index ∈ pool.works.flatMap Work.taken :=
      List.mem_flatMap.mpr ⟨_, List.mem_of_getElem? h,
        List.mem_append_right _ (List.mem_singleton_self _)⟩
    have hindex := hvalid.taken.subset htaken
    rw [hvalid.calls, List.mem_range] at hindex
    refine ⟨.complete worker, ?_⟩
    simp only [step, complete, h, List.getElem?_eq_getElem (show index < items.length by omega)]
    exact ⟨_, rfl⟩

theorem exists_step (hvalid : Valid items f pool) (hunfinished : pool.finished = false) :
    ∃ label after, step items f pool label = some after := by
  have hstaged := hvalid.staged
  cases hstage : pool.stage with
  | starting helper =>
    refine ⟨.start false, ?_⟩
    simp only [step, start, hstage]
    split <;> exact ⟨_, rfl⟩
  | covering helper =>
    rw [hstage] at hstaged
    obtain ⟨hone, hlt, -, hwaits, hcover⟩ := hstaged
    have hwork := List.getElem?_eq_getElem hlt
    refine exists_step_of_work hvalid hwork ?_ ?_
    · intro hwaiting
      rw [hwaiting] at hwork
      exact absurd ((hwaits helper hlt (by omega)).mp hwork) (lt_irrefl _)
    · intro done hreturned
      rw [hreturned] at hwork
      exact hcover done hwork
  | working =>
    rw [hstage] at hstaged
    obtain ⟨work, hmem, hwork⟩ := List.all_eq_false.mp hunfinished
    obtain ⟨worker, hget⟩ := List.mem_iff_getElem?.mp hmem
    refine exists_step_of_work hvalid hget ?_ ?_
    · rintro rfl
      exact hstaged worker hget
    · rintro done rfl
      exact hwork rfl

/-- Any run goes on to one in which every work returned. -/
theorem exists_finished (hvalid : Valid items f pool) :
    ∃ more finished, run (step items f) pool more = some finished ∧ finished.finished = true := by
  induction hleft : remaining items pool using Nat.strong_induction_on generalizing pool with
  | _ left ih =>
    cases hdone : pool.finished with
    | true => exact ⟨[], pool, rfl, hdone⟩
    | false =>
      obtain ⟨label, after, hstep⟩ := exists_step hvalid hdone
      have hless := remaining_moved hvalid (moved hstep)
      obtain ⟨more, finished, hrun, hfinished⟩ :=
        ih _ (by omega) (hvalid.moved (moved hstep)) rfl
      refine ⟨label :: more, finished, ?_, hfinished⟩
      rw [run, List.foldlM_cons, hstep]
      exact hrun

/-! ## What a finished pool holds -/

theorem taken_of_hasReturned {work : Work R} (h : work.hasReturned = true) :
    work.taken = work.done.map Prod.fst := by
  cases work <;> first | rfl | cases h

/-- Results that stand with the indices of all items, each once, are the mapped items in another
order. -/
theorem entries_perm {entries : List (Nat × R)}
    (hindices : (entries.map Prod.fst).Perm (List.range items.length))
    (hresults : ∀ entry ∈ entries, (items[entry.1]?).map f = some entry.2) :
    entries.Perm (items.zipIdx.map fun entry => (entry.2, f entry.1)) := by
  have hnodup : entries.Nodup :=
    List.Nodup.of_map Prod.fst (hindices.nodup_iff.mpr List.nodup_range)
  have htarget : ((items.zipIdx.map fun entry => (entry.2, f entry.1)).map Prod.fst).Nodup := by
    rw [List.map_map]
    exact List.nodup_zipIdx_map_snd items
  refine (List.perm_ext_iff_of_nodup hnodup (List.Nodup.of_map Prod.fst htarget)).mpr ?_
  rintro ⟨index, result⟩
  have hmem : (index, result) ∈ items.zipIdx.map (fun entry => (entry.2, f entry.1)) ↔
      (items[index]?).map f = some result := by
    simp only [List.mem_map, Prod.exists, List.mem_zipIdx_iff_getElem?, Prod.mk.injEq,
      Option.map_eq_some_iff]
    constructor
    · rintro ⟨item, _, hitem, rfl, rfl⟩
      exact ⟨item, hitem, rfl⟩
    · rintro ⟨item, hitem, rfl⟩
      exact ⟨item, index, hitem, rfl, rfl⟩
  rw [hmem]
  constructor
  · exact hresults _
  · intro hresult
    obtain ⟨item, hitem, -⟩ := Option.map_eq_some_iff.mp hresult
    have hrange : index ∈ entries.map Prod.fst :=
      hindices.mem_iff.mpr (List.mem_range.mpr (List.getElem?_eq_some_iff.mp hitem).1)
    obtain ⟨⟨_, held⟩, hentry, rfl⟩ := List.mem_map.mp hrange
    have := hresults _ hentry
    rw [hresult] at this
    rwa [Option.some.inj this]

/-- A finished pool has called the function for every item once, and its results in order are those
of the serial map. -/
theorem Valid.finished (hvalid : Valid items f pool) (hfinished : pool.finished = true) :
    pool.calls = List.range items.length ∧ pool.collected = items.map f := by
  have hreturned : ∀ work ∈ pool.works, work.hasReturned = true := List.all_eq_true.mp hfinished
  obtain ⟨work, hwork⟩ := List.exists_mem_of_ne_nil _ hvalid.nonempty
  have hcalls : pool.calls = List.range items.length := by
    rw [hvalid.calls, Nat.min_eq_right (hvalid.exhausted work hwork (hreturned work hwork))]
  have htaken : (pool.works.flatMap Work.taken) = (pool.works.flatMap Work.done).map Prod.fst := by
    rw [List.map_flatMap]
    exact List.flatMap_congr fun work hwork => taken_of_hasReturned (hreturned work hwork)
  have hindices := hvalid.taken
  rw [hcalls, htaken] at hindices
  have hentries := entries_perm hindices fun entry hentry => by
    obtain ⟨work, hwork, hdone⟩ := List.mem_flatMap.mp hentry
    exact hvalid.results work hwork entry hdone
  have hsorted : (items.zipIdx.map fun entry => (entry.2, f entry.1)).Pairwise
      fun a b => a.1 < b.1 := by
    rw [← List.pairwise_map, List.map_map]
    change (items.zipIdx.map Prod.snd).Pairwise _
    rw [List.zipIdx_map_snd]
    exact List.pairwise_lt_range'
  refine ⟨hcalls, ?_⟩
  rw [Pool.collected, Sequence.insertionSort_eq_of_perm Prod.fst hentries hsorted, List.map_map]
  calc items.zipIdx.map (fun entry => f entry.1)
    _ = (items.zipIdx.map Prod.fst).map f := (List.map_map).symm
    _ = items.map f := by rw [List.zipIdx_map_fst]

theorem one_le_workerCount (items : List T) (threads : Nat) : 1 ≤ workerCount items threads :=
  Nat.le_max_left _ _

/-- Whatever the number of threads and the order of the steps, the map calls the function for each
item once and returns what the serial map returns. No run is longer than two steps for each item
and each work, and each goes on to its end. -/
theorem mapsTo_serial (items : List T) (f : T → R) (threads : Nat) :
    (∀ calls results, MapsTo items f threads calls results →
      calls.Perm (List.range items.length) ∧ results = items.map f) ∧
    ∀ steps pool, run (step items f) (initial (workerCount items threads)) steps = some pool →
      steps.length ≤ 2 * (items.length + workerCount items threads) ∧
      ∃ more finished, run (step items f) pool more = some finished ∧
        finished.finished = true := by
  have hworkers := one_le_workerCount items threads
  constructor
  · intro calls results hmaps
    unfold MapsTo at hmaps
    split at hmaps
    · obtain ⟨rfl, rfl⟩ := hmaps
      exact ⟨List.Perm.refl _, rfl⟩
    · obtain ⟨steps, pool, hrun, hfinished, rfl, rfl⟩ := hmaps
      obtain ⟨hcalls, hcollected⟩ := (valid_of_run hworkers hrun).finished hfinished
      exact ⟨List.Perm.of_eq hcalls, hcollected⟩
  · intro steps pool hrun
    exact ⟨by have := length_add_remaining hworkers hrun; omega,
      exists_finished (valid_of_run hworkers hrun)⟩

end Agentless.App.Parallel
