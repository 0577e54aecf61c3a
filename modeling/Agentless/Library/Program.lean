import Agentless.Library.Text

/-!
# Programs that make calls, and their interleavings

A `Program` is a tree of calls to a shared state, each with the program that follows on its answer.
`Verified` is the rule of pre- and postconditions: every call is allowed by what the program did
before it, and its result fits its whole history. `Runs` interleaves any number of programs call
by call, and `Runs.verified` carries what is verified of each program over to every run.
-/

namespace Agentless

inductive Program (Call : Type) (Answer : Call → Type) (α : Type) where
  | done (value : α)
  | call (request : Call) (next : Answer request → Program Call Answer α)

namespace Program

variable {Call : Type} {Answer : Call → Type} {α β : Type}

def bind : Program Call Answer α → (α → Program Call Answer β) → Program Call Answer β
  | .done value, f => f value
  | .call request next, f => .call request fun answer => (next answer).bind f

instance : Monad (Program Call Answer) where
  pure := .done
  bind := bind

/-- The value of a program that has no call left. -/
def result? : Program Call Answer α → Option α
  | .done value => some value
  | .call _ _ => none

theorem result?_eq_some {program : Program Call Answer α} {value : α}
    (h : program.result? = some value) : program = .done value := by
  cases program with
  | done value' => exact congrArg _ (Option.some.inj h)
  | call => cases h

/-- The program of one call. -/
def perform (request : Call) : Program Call Answer (Answer request) := .call request .done

/-- Calls with their answers, in the order in which a program made them. -/
abbrev History (Answer : Call → Type) := List (Σ request, Answer request)

section Verified

variable (admits : (request : Call) → Answer request → Prop) (allowed : History Answer → Call → Prop)

/-- Every call is allowed after the history before it, and the result fits the whole history,
for all answers that the calls can have. -/
def Verified (post : History Answer → α → Prop) :
    Program Call Answer α → History Answer → Prop
  | .done value, history => post history value
  | .call request next, history => allowed history request ∧
    ∀ answer, admits request answer →
      Verified post (next answer) (history ++ [⟨request, answer⟩])

variable {admits allowed}

theorem Verified.bind {middle : History Answer → α → Prop} {post : History Answer → β → Prop}
    {program : Program Call Answer α} {f : α → Program Call Answer β} {history : History Answer}
    (h : Verified admits allowed middle program history)
    (hf : ∀ history value, middle history value → Verified admits allowed post (f value) history) :
    Verified admits allowed post (program >>= f) history := by
  induction program generalizing history with
  | done value => exact hf history value h
  | call request next ih => exact ⟨h.1, fun answer hanswer => ih answer (h.2 answer hanswer)⟩

theorem Verified.mono {post post' : History Answer → α → Prop} {program : Program Call Answer α}
    {history : History Answer} (h : Verified admits allowed post program history)
    (hpost : ∀ history value, post history value → post' history value) :
    Verified admits allowed post' program history := by
  induction program generalizing history with
  | done value => exact hpost history value h
  | call request next ih => exact ⟨h.1, fun answer hanswer => ih answer (h.2 answer hanswer)⟩

end Verified

/-! ## One program at a time -/

section Run

variable {State Choice : Type}
  (handle : Choice → State → (request : Call) → Answer request × State)

/-- The result of a program that runs alone, with the environment's choice for each call. -/
def run : Program Call Answer α → (Nat → Choice) → State → α
  | .done value, _, _ => value
  | .call request next, choices, state =>
    (next (handle (choices 0) state request).1).run (fun i => choices (i + 1))
      (handle (choices 0) state request).2

/-- Two states that no allowed call tells apart give the same result. -/
theorem run_congr {admits : (request : Call) → Answer request → Prop} {allowed : Call → Prop}
    {same : State → State → Prop}
    (hadmits : ∀ choice state request, admits request (handle choice state request).1)
    (hsame : ∀ choice {state state'} request, same state state' → allowed request →
      (handle choice state request).1 = (handle choice state' request).1 ∧
        same (handle choice state request).2 (handle choice state' request).2)
    {post : History Answer → α → Prop} {program : Program Call Answer α}
    {history : History Answer} (h : Verified admits (fun _ => allowed) post program history)
    (choices : Nat → Choice) {state state' : State} (hstates : same state state') :
    program.run handle choices state = program.run handle choices state' := by
  induction program generalizing history choices state state' with
  | done value => rfl
  | call request next ih =>
    obtain ⟨hanswer, hnext⟩ := hsame (choices 0) request hstates h.1
    rw [run, run, ← hanswer]
    exact ih _ (h.2 _ (hadmits (choices 0) state request)) _ hnext

end Run

/-! ## Programs that run together -/

/-- What happens in a run: a job is started, or one of those started makes a call. -/
inductive Event (Job : Type) (Answer : Call → Type) where
  | started (id : Nat) (job : Job)
  | performed (id : Nat) (entry : Σ request, Answer request)

structure System (State Job : Type) (Call : Type) (Answer : Call → Type) (α : Type) where
  state : State
  processes : List (Job × Program Call Answer α)

section Runs

variable {State Choice Job : Type}
  (handle : Choice → State → (request : Call) → Answer request × State)
  (program : Job → Program Call Answer α) (initial : State)

/-- The events of a run from the initial state, and the system after them. A process that is never
continued stands for one that was stopped. -/
inductive Runs : List (Event Job Answer) → System State Job Call Answer α → Prop where
  | empty : Runs [] ⟨initial, []⟩
  | start {events : List (Event Job Answer)} {system : System State Job Call Answer α}
      (h : Runs events system) (job : Job) :
      Runs (events ++ [.started system.processes.length job])
        ⟨system.state, system.processes ++ [(job, program job)]⟩
  | perform {events : List (Event Job Answer)} {system : System State Job Call Answer α}
      (h : Runs events system) {id : Nat} {job : Job} {request : Call}
      {next : Answer request → Program Call Answer α}
      (hprocess : system.processes[id]? = some (job, .call request next)) (choice : Choice) :
      Runs (events ++ [.performed id ⟨request, (handle choice system.state request).1⟩])
        ⟨(handle choice system.state request).2,
          system.processes.set id (job, next (handle choice system.state request).1)⟩

/-- The calls of one process. -/
def historyOf (id : Nat) (events : List (Event Job Answer)) : History Answer :=
  events.filterMap fun
    | .started _ _ => none
    | .performed other entry => if other = id then some entry else none

@[simp] theorem historyOf_append (id : Nat) (events more : List (Event Job Answer)) :
    historyOf id (events ++ more) = historyOf id events ++ historyOf id more :=
  List.filterMap_append

@[simp] theorem historyOf_started (id other : Nat) (job : Job) :
    historyOf id [(.started other job : Event Job Answer)] = [] := rfl

@[simp] theorem historyOf_performed_self (id : Nat) (entry : Σ request, Answer request) :
    historyOf id [(.performed id entry : Event Job Answer)] = [entry] := by
  simp [historyOf]

theorem historyOf_performed_of_ne {id other : Nat} (h : other ≠ id) (entry : Σ request, Answer request) :
    historyOf id [(.performed other entry : Event Job Answer)] = [] := by
  simp [historyOf, h]

theorem mem_historyOf {id : Nat} {entry : Σ request, Answer request} {events : List (Event Job Answer)} :
    entry ∈ historyOf id events ↔ Event.performed id entry ∈ events := by
  simp only [historyOf, List.mem_filterMap]
  constructor
  · rintro ⟨event, hevent, heq⟩
    cases event with
    | started other job => cases heq
    | performed other entry' =>
      dsimp only at heq
      split_ifs at heq with hid
      cases heq
      rwa [← hid]
  · exact fun h => ⟨_, h, if_pos rfl⟩

variable {handle program initial}
variable {admits : (request : Call) → Answer request → Prop}
  {allowed : Job → History Answer → Call → Prop} {post : Job → History Answer → α → Prop}
  {events : List (Event Job Answer)} {system : System State Job Call Answer α}

/-- A process that is not started made no call. -/
theorem Runs.historyOf_eq_nil (h : Runs handle program initial events system) {id : Nat}
    (hid : system.processes.length ≤ id) : historyOf id events = [] := by
  induction h with
  | empty => rfl
  | start _ job ih =>
    simp only [List.length_append, List.length_singleton] at hid
    simp [ih (by omega)]
  | @perform events system _ other job request next hprocess choice ih =>
    simp only [List.length_set] at hid
    have hother := (List.getElem?_eq_some_iff.mp hprocess).1
    rw [historyOf_append, ih hid, historyOf_performed_of_ne (by omega)]
    rfl

/-- What is verified of each program holds of each process of a run. -/
theorem Runs.verified (hadmits : ∀ choice state request, admits request (handle choice state request).1)
    (hprogram : ∀ job, Verified admits (allowed job) (post job) (program job) [])
    (h : Runs handle program initial events system) {id : Nat} {job : Job}
    {current : Program Call Answer α} (hcurrent : system.processes[id]? = some (job, current)) :
    Verified admits (allowed job) (post job) current (historyOf id events) := by
  induction h generalizing id job current with
  | empty => simp at hcurrent
  | @start events system hruns job' ih =>
    rw [historyOf_append, historyOf_started, List.append_nil]
    by_cases hid : id < system.processes.length
    · rw [List.getElem?_append_left hid] at hcurrent
      exact ih hcurrent
    · rw [hruns.historyOf_eq_nil (by omega)]
      rw [List.getElem?_append_right (by omega)] at hcurrent
      obtain ⟨rfl, rfl⟩ : job' = job ∧ program job' = current := by
        simpa using (List.mem_singleton.mp (List.mem_of_getElem? hcurrent)).symm
      exact hprogram job'
  | @perform events system _ other job' request next hprocess choice ih =>
    have hlength := (List.getElem?_eq_some_iff.mp hprocess).1
    by_cases hid : other = id
    · subst hid
      rw [List.getElem?_set_self hlength] at hcurrent
      cases hcurrent
      rw [historyOf_append, historyOf_performed_self]
      exact (ih hprocess).2 _ (hadmits choice system.state request)
    · rw [List.getElem?_set_ne hid] at hcurrent
      rw [historyOf_append, historyOf_performed_of_ne hid, List.append_nil]
      exact ih hcurrent

/-- The processes are those of the jobs that were started, in their order. -/
theorem Runs.started_iff (h : Runs handle program initial events system) {id : Nat} {job : Job} :
    Event.started id job ∈ events ↔ ∃ current, system.processes[id]? = some (job, current) := by
  induction h with
  | empty => simp
  | @start events system hruns job' ih =>
    rw [List.mem_append, List.mem_singleton, ih]
    by_cases hid : id < system.processes.length
    · have hne : ¬id = system.processes.length := by omega
      simp [List.getElem?_append_left hid, hne]
    · have hnone : system.processes[id]? = none := List.getElem?_eq_none (by omega)
      rw [List.getElem?_append_right (by omega)]
      by_cases heq : id = system.processes.length
      · simp [heq, eq_comm]
      · have hout : ¬id - system.processes.length = 0 := by omega
        simp [hnone, heq, hout]
  | @perform events system _ other job' request next hprocess choice ih =>
    rw [List.mem_append, ih]
    by_cases hid : other = id
    · subst hid
      have hlength := (List.getElem?_eq_some_iff.mp hprocess).1
      rw [List.getElem?_set_self hlength, hprocess]
      simp
    · simp [List.getElem?_set_ne hid]

/-- A property that every allowed call keeps holds of the events and the state of every run. -/
theorem Runs.invariant (hadmits : ∀ choice state request, admits request (handle choice state request).1)
    (hprogram : ∀ job, Verified admits (allowed job) (post job) (program job) [])
    (holds : List (Event Job Answer) → State → Prop) (hempty : holds [] initial)
    (hstart : ∀ events state id job, holds events state → holds (events ++ [.started id job]) state)
    (hperform : ∀ events state id job request choice, holds events state →
      Event.started id job ∈ events → allowed job (historyOf id events) request →
      holds (events ++ [.performed id ⟨request, (handle choice state request).1⟩])
        (handle choice state request).2)
    (h : Runs handle program initial events system) : holds events system.state := by
  induction h with
  | empty => exact hempty
  | start _ job ih => exact hstart _ _ _ job ih
  | @perform events system hruns id job request next hprocess choice ih =>
    have hstarted := hruns.started_iff.mpr ⟨_, hprocess⟩
    exact hperform _ _ _ job _ choice ih hstarted (hruns.verified hadmits hprogram hprocess).1

/-- A turn of a schedule: a job is started, or a process makes its next call. -/
inductive Turn (Job Choice : Type) where
  | start (job : Job)
  | perform (id : Nat) (choice : Choice)

section Schedules

variable (handle program)

/-- The event of a turn, and the system after it. A process that has no call left takes no turn. -/
def Turn.play (system : System State Job Call Answer α) :
    Turn Job Choice → List (Event Job Answer) × System State Job Call Answer α
  | .start job =>
    ([.started system.processes.length job],
      ⟨system.state, system.processes ++ [(job, program job)]⟩)
  | .perform id choice =>
    match system.processes[id]? with
    | some (job, .call request next) =>
      let (answer, state) := handle choice system.state request
      ([.performed id ⟨request, answer⟩], ⟨state, system.processes.set id (job, next answer)⟩)
    | _ => ([], system)

def play : List (Turn Job Choice) → System State Job Call Answer α →
    List (Event Job Answer) × System State Job Call Answer α
  | [], system => ([], system)
  | turn :: turns, system =>
    let (events, next) := turn.play handle program system
    let (more, last) := play turns next
    (events ++ more, last)

end Schedules

theorem Runs.turn (h : Runs handle program initial events system) (turn : Turn Job Choice) :
    Runs handle program initial (events ++ (turn.play handle program system).1)
      (turn.play handle program system).2 := by
  cases turn with
  | start job => exact h.start job
  | perform id choice =>
    unfold Turn.play
    dsimp only
    split
    · rename_i job request next hprocess
      exact h.perform hprocess choice
    · rwa [List.append_nil]

/-- What a schedule plays is a run. -/
theorem Runs.play (h : Runs handle program initial events system) (turns : List (Turn Job Choice)) :
    Runs handle program initial (events ++ (Program.play handle program turns system).1)
      (Program.play handle program turns system).2 := by
  induction turns generalizing events system with
  | nil => simpa [Program.play] using h
  | cons turn turns ih =>
    rw [Program.play, ← List.append_assoc]
    exact ih (h.turn turn)

/-- Every call was made by a job that was started and may make it. -/
theorem Runs.caller {allowed : Job → Call → Prop}
    (hadmits : ∀ choice state request, admits request (handle choice state request).1)
    (hprogram : ∀ job, Verified admits (fun _ => allowed job) (post job) (program job) [])
    (h : Runs handle program initial events system) {id : Nat} {entry : Σ request, Answer request}
    (hentry : Event.performed id entry ∈ events) :
    ∃ job, Event.started id job ∈ events ∧ allowed job entry.1 := by
  induction h with
  | empty => cases hentry
  | start _ job ih =>
    rw [List.mem_append, List.mem_singleton] at hentry
    obtain ⟨job, hstarted, hallowed⟩ := ih (hentry.resolve_right (by simp))
    exact ⟨job, List.mem_append_left _ hstarted, hallowed⟩
  | @perform events system hruns other job request next hprocess choice ih =>
    rw [List.mem_append, List.mem_singleton] at hentry
    rcases hentry with hentry | hentry
    · obtain ⟨job, hstarted, hallowed⟩ := ih hentry
      exact ⟨job, List.mem_append_left _ hstarted, hallowed⟩
    · obtain ⟨rfl, rfl⟩ := Event.performed.inj hentry
      have hstarted := hruns.started_iff.mpr ⟨_, hprocess⟩
      exact ⟨job, List.mem_append_left _ hstarted, (hruns.verified hadmits hprogram hprocess).1⟩

/-- Every call was made in a state that the run had reached, and that state gave its answer. -/
theorem Runs.exists_before (h : Runs handle program initial events system) {id : Nat}
    {entry : Σ request, Answer request} (hentry : Event.performed id entry ∈ events) :
    ∃ before after reached choice, events = before ++ Event.performed id entry :: after ∧
      Runs handle program initial before reached ∧
      (∃ job current, reached.processes[id]? = some (job, current)) ∧
      entry.2 = (handle choice reached.state entry.1).1 := by
  induction h with
  | empty => simp at hentry
  | start _ job ih =>
    rw [List.mem_append, List.mem_singleton] at hentry
    obtain ⟨before, after, reached, choice, rfl, hreached⟩ := ih (hentry.resolve_right (by simp))
    exact ⟨before, after ++ [_], reached, choice, List.append_assoc .., hreached⟩
  | @perform events system hruns other job request next hprocess choice ih =>
    rw [List.mem_append, List.mem_singleton] at hentry
    rcases hentry with hentry | hentry
    · obtain ⟨before, after, reached, choice, rfl, hreached⟩ := ih hentry
      exact ⟨before, after ++ [_], reached, choice, List.append_assoc .., hreached⟩
    · obtain ⟨rfl, rfl⟩ := Event.performed.inj hentry
      exact ⟨events, [], system, choice, rfl, hruns, ⟨_, _, hprocess⟩, rfl⟩

end Runs

end Program

end Agentless
