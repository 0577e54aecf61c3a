import Agentless.Library.Machine

/-!
# One gate call

The gate's thread fills a record step by step and settles the call at the end. A SIGTERM makes the
watcher's thread settle it instead. Both take the record under a lock; the gate appends it and
replies after the lock is free again, and the watcher appends it and ends the process with the lock
still held. `step` interleaves the two threads at every point where one of them can wait for the
other, with any number of signals in between.
-/

namespace Agentless.Hook

inductive Outcome where
  | clean
  | advisory
  | blocked
  | degraded
  | skipped
  deriving DecidableEq

/-- The fields of a record that a call reads or sets itself, and the others. -/
structure Record (φ ρ : Type) where
  latencyMs : Option φ
  toolUseId : Option Text
  path : Option Text
  outcome : Option Outcome
  reason : Option Text
  others : ρ
  deriving DecidableEq

structure Decision where
  code : Nat
  stdout : Text
  stderr : Text
  deriving DecidableEq

def Decision.default : Decision := ⟨0, [], []⟩

structure Output where
  code : Nat
  stdout : Text
  stderr : Text
  deriving DecidableEq

def Output.default : Output := ⟨0, [], []⟩

structure Halt where
  outcome : Outcome
  reason : Text
  internal : Option Text
  deriving DecidableEq

def Halt.internalError (detail : Text) : Halt :=
  ⟨.degraded, "internal error: ".toList ++ detail, some detail⟩

inductive Phase (φ ρ : Type) where
  | running (record : Record φ ρ)
  | settled

/-- How one append to the log ends. -/
inductive Append where
  | ok
  | unserializable (error : Text)
  | io (repr : Text)
  | short (written expected : Nat)
  deriving DecidableEq

section Operations

variable {φ ρ : Type}

def note (write : Record φ ρ → Record φ ρ) : Phase φ ρ → Phase φ ρ
  | .running record => .running (write record)
  | .settled => .settled

/-- The two fields that the internal-error line names. -/
def whose : Phase φ ρ → Text × Text
  | .running record => (record.toolUseId.getD "None".toList, record.path.getD "None".toList)
  | .settled => ("None".toList, "None".toList)

def take : Phase φ ρ → Option (Record φ ρ) × Phase φ ρ
  | .running record => (some record, .settled)
  | .settled => (none, .settled)

def terminated : Text := "terminated".toList

def terminate (record : Record φ ρ) : Record φ ρ :=
  { record with outcome := some .degraded, reason := some terminated }

/-- The stderr lines of an append that failed. -/
def append (log : Option Text) (record : Record φ ρ) (result : Append) : Text :=
  match log.filter (· ≠ []) with
  | none => []
  | some target =>
    let id := record.toolUseId.getD "None".toList
    let failed := "erosion gate cannot append to ".toList ++ target ++ ": tool_use_id=".toList ++ id
    match result with
    | .ok => []
    | .unserializable error => failed ++ '\n' :: error ++ ['\n']
    | .io repr => failed ++ '\n' :: repr ++ ['\n']
    | .short written expected =>
      "erosion gate wrote ".toList ++ (toString written).toList ++ " of ".toList ++
        (toString expected).toList ++ " bytes to ".toList ++ target ++ ": tool_use_id=".toList ++
        id ++ ['\n']

/-- The record that is appended, with how long the call took. -/
def finished (latency : φ) (record : Record φ ρ) : Record φ ρ :=
  { record with latencyMs := some latency }

def finish (log : Option Text) (record : Record φ ρ) (result : Append) (decision : Decision) :
    Output :=
  ⟨decision.code, decision.stdout, append log record result ++ decision.stderr⟩

/-- What an internal error says on stderr, before the halt is noted. -/
def haltDecision (halt : Halt) (phase : Phase φ ρ) : Decision :=
  match halt.internal with
  | none => .default
  | some detail =>
    let (id, path) := whose phase
    { Decision.default with
      stderr := "erosion gate internal error: tool_use_id=".toList ++ id ++ " path=".toList ++
        path ++ '\n' :: detail ++ ['\n'] }

def noteHalt (halt : Halt) (record : Record φ ρ) : Record φ ρ :=
  { record with outcome := some halt.outcome, reason := some halt.reason }

end Operations

/-! ## The two threads -/

/-- Where the gate's thread is. -/
inductive Gate (φ ρ : Type) where
  | working
  | stopped (halt : Halt)
  | noting (halt : Halt) (decision : Decision)
  | settling (decision : Decision)
  | finishing (record : Record φ ρ) (decision : Decision)
  | replied (output : Output)

/-- Where the watcher's thread is. It holds the lock in every place but the first. -/
inductive Watcher (φ ρ : Type) where
  | waiting
  | finishing (record : Record φ ρ)
  | exiting (stderr : Text)

inductive Author where
  | gate
  | watcher
  deriving DecidableEq

/-- The process, with the signals that no thread has taken, and what was given to the log. -/
structure Process (φ ρ : Type) where
  phase : Phase φ ρ
  gate : Gate φ ρ
  watcher : Watcher φ ρ
  signals : Nat
  appended : List (Author × Record φ ρ × Append)
  exited : Bool

inductive Label (φ ρ : Type) where
  | signal
  | note (write : Record φ ρ → Record φ ρ)
  | decide (decision : Decision)
  | stop (halt : Halt)
  | panic (message : Text)
  | explain
  | noteHalt (halt : Halt)
  | settle
  | append (latency : φ) (result : Append)
  | terminate
  | appendTerminated (latency : φ) (result : Append)
  | exit

section Threads

variable {φ ρ : Type}

def Process.start (blank : Record φ ρ) : Process φ ρ :=
  ⟨.running blank, .working, .waiting, 0, [], false⟩

def Process.locked (process : Process φ ρ) : Bool :=
  match process.watcher with
  | .waiting => false
  | _ => true

/-- A step of the gate's thread. The gate makes its notes before it settles; a note is allowed at
any time here, as the call itself allows it. -/
def gateStep (log : Option Text) (process : Process φ ρ) : Label φ ρ → Option (Process φ ρ)
  | .note write =>
    if process.locked then none else some { process with phase := note write process.phase }
  | .decide decision =>
    match process.gate with
    | .working => some { process with gate := .settling decision }
    | _ => none
  | .stop halt =>
    match process.gate with
    | .working => some { process with gate := .stopped halt }
    | _ => none
  | .panic message =>
    match process.gate with
    | .working =>
      some { process with gate := .stopped (.internalError ("panic: ".toList ++ message)) }
    | _ => none
  | .explain =>
    match process.gate with
    | .stopped halt =>
      if process.locked && halt.internal.isSome then none
      else some { process with gate := .noting halt (haltDecision halt process.phase) }
    | _ => none
  | .noteHalt halt =>
    match process.gate with
    | .noting noted decision =>
      if process.locked || noted ≠ halt then none
      else some { process with phase := note (noteHalt halt) process.phase, gate := .settling decision }
    | _ => none
  | .settle =>
    match process.gate with
    | .settling decision =>
      if process.locked then none
      else match take process.phase with
        | (some record, phase) =>
          some { process with phase := phase, gate := .finishing record decision }
        | (none, phase) => some { process with phase := phase, gate := .replied .default }
    | _ => none
  | .append latency result =>
    match process.gate with
    | .finishing record decision =>
      let record := finished latency record
      some { process with
        gate := .replied (finish log record result decision)
        appended := process.appended ++ [(.gate, record, result)] }
    | _ => none
  | _ => none

/-- A step of the watcher's thread. -/
def watcherStep (log : Option Text) (process : Process φ ρ) : Label φ ρ → Option (Process φ ρ)
  | .terminate =>
    match process.watcher, process.signals with
    | .waiting, signals + 1 =>
      match take process.phase with
      | (some record, phase) =>
        some { process with phase := phase, watcher := .finishing (terminate record), signals }
      | (none, phase) => some { process with phase := phase, signals }
    | _, _ => none
  | .appendTerminated latency result =>
    match process.watcher with
    | .finishing record =>
      let record := finished latency record
      some { process with
        watcher := .exiting (finish log record result .default).stderr
        appended := process.appended ++ [(.watcher, record, result)] }
    | _ => none
  | .exit =>
    match process.watcher with
    | .exiting _ => some { process with exited := true }
    | _ => none
  | _ => none

/-- A step of either thread, or one more signal. Nothing happens once the process has exited. -/
def step (log : Option Text) (process : Process φ ρ) (label : Label φ ρ) : Option (Process φ ρ) :=
  if process.exited then none
  else match label with
    | .signal => some { process with signals := process.signals + 1 }
    | .terminate | .appendTerminated _ _ | .exit => watcherStep log process label
    | _ => gateStep log process label

/-! ## What every run keeps -/

def writes (labels : List (Label φ ρ)) : List (Record φ ρ → Record φ ρ) :=
  labels.filterMap fun
    | .note write => some write
    | .noteHalt halt => some (noteHalt halt)
    | _ => none

/-- The record after the notes of the labels. -/
def noted (blank : Record φ ρ) (labels : List (Label φ ρ)) : Record φ ρ :=
  (writes labels).foldl (fun record write => write record) blank

/-- The gate's thread has not taken the record. -/
def Gate.Before : Gate φ ρ → Prop
  | .finishing _ _ | .replied _ => False
  | _ => True

/-- The gate stopped: at a halt, or at a panic, which is an internal error. -/
def StoppedAt (labels : List (Label φ ρ)) (halt : Halt) : Prop :=
  .stop halt ∈ labels ∨ ∃ message, .panic message ∈ labels ∧
    halt = ⟨.degraded, "internal error: panic: ".toList ++ message, some ("panic: ".toList ++ message)⟩

/-- A halt decides nothing. An internal error is told on stderr, with the two fields that name the
call as they were noted when it was told. -/
structure Explains (blank : Record φ ρ) (labels : List (Label φ ρ)) (halt : Halt)
    (decision : Decision) : Prop where
  code : decision.code = 0
  stdout : decision.stdout = []
  silent : halt.internal = none → decision.stderr = []
  internal : ∀ detail, halt.internal = some detail →
    ∃ before after, labels = before ++ .explain :: after ∧
      decision.stderr = "erosion gate internal error: tool_use_id=".toList ++
        (noted blank before).toolUseId.getD "None".toList ++ " path=".toList ++
        (noted blank before).path.getD "None".toList ++ '\n' :: detail ++ ['\n']

/-- The decision that the gate reached: its own, or the one of a halt that it noted. -/
inductive Decided (blank : Record φ ρ) (labels : List (Label φ ρ)) (decision : Decision) : Prop where
  | own (h : .decide decision ∈ labels)
  | halted (halt : Halt) (hstop : StoppedAt labels halt) (hnoted : .noteHalt halt ∈ labels)
      (h : Explains blank labels halt decision)

/-- The gate settled the call after `before`, with the decision that it had reached. -/
structure SettledAfter (log : Option Text) (blank : Record φ ρ) (labels before : List (Label φ ρ))
    (decision : Decision) : Prop where
  split : ∃ after, labels = before ++ .settle :: after
  decided : ∃ process, Machine.run (step log) (.start blank) before = some process ∧
    process.gate = .settling decision
  reached : Decided blank before decision

/-- What stderr says of an append: nothing when no log is set or the append went well, and
otherwise which log it failed on, for which call and why. -/
inductive Failure (log : Option Text) (id : Text) : Append → Text → Prop where
  | unset (result : Append) (h : log = none ∨ log = some []) : Failure log id result []
  | ok : Failure log id .ok []
  | unserializable {target : Text} (hlog : log = some target) (h : target ≠ []) (error : Text) :
      Failure log id (.unserializable error)
        ("erosion gate cannot append to ".toList ++ target ++ ": tool_use_id=".toList ++ id ++
          '\n' :: error ++ ['\n'])
  | io {target : Text} (hlog : log = some target) (h : target ≠ []) (repr : Text) :
      Failure log id (.io repr)
        ("erosion gate cannot append to ".toList ++ target ++ ": tool_use_id=".toList ++ id ++
          '\n' :: repr ++ ['\n'])
  | short {target : Text} (hlog : log = some target) (h : target ≠ []) (written expected : Nat) :
      Failure log id (.short written expected)
        ("erosion gate wrote ".toList ++ (toString written).toList ++ " of ".toList ++
          (toString expected).toList ++ " bytes to ".toList ++ target ++ ": tool_use_id=".toList ++
          id ++ ['\n'])

/-- The reply is the decision, with what an append says before the decision's own stderr. -/
structure Output.Replies (output : Output) (log : Option Text) (record : Record φ ρ)
    (result : Append) (decision : Decision) : Prop where
  code : output.code = decision.code
  stdout : output.stdout = decision.stdout
  stderr : ∃ lines, Failure log (record.toolUseId.getD "None".toList) result lines ∧
    output.stderr = lines ++ decision.stderr

/-- A signal settled the call after `before`. -/
def TerminatedAfter (labels before : List (Label φ ρ)) : Prop :=
  ∃ after, labels = before ++ .terminate :: after

variable {log : Option Text} {blank : Record φ ρ} {labels before : List (Label φ ρ)}
  {decision : Decision}

theorem SettledAfter.concat (h : SettledAfter log blank labels before decision) (label : Label φ ρ) :
    SettledAfter log blank (labels ++ [label]) before decision := by
  obtain ⟨after, rfl⟩ := h.split
  exact ⟨⟨after ++ [label], by simp⟩, h.decided, h.reached⟩

theorem TerminatedAfter.concat (h : TerminatedAfter labels before) (label : Label φ ρ) :
    TerminatedAfter (labels ++ [label]) before := by
  obtain ⟨after, rfl⟩ := h
  exact ⟨after ++ [label], by simp⟩

theorem StoppedAt.concat {halt : Halt} (h : StoppedAt labels halt) (label : Label φ ρ) :
    StoppedAt (labels ++ [label]) halt := by
  obtain h | ⟨message, h, rfl⟩ := h
  · exact .inl (List.mem_append_left _ h)
  · exact .inr ⟨message, List.mem_append_left _ h, rfl⟩

theorem Explains.concat {halt : Halt} (h : Explains blank labels halt decision) (label : Label φ ρ) :
    Explains blank (labels ++ [label]) halt decision where
  code := h.code
  stdout := h.stdout
  silent := h.silent
  internal := by
    intro detail hdetail
    obtain ⟨before, after, rfl, hstderr⟩ := h.internal detail hdetail
    exact ⟨before, after ++ [label], by simp, hstderr⟩

theorem Decided.concat (h : Decided blank labels decision) (label : Label φ ρ) :
    Decided blank (labels ++ [label]) decision := by
  cases h with
  | own h => exact .own (List.mem_append_left _ h)
  | halted halt hstop hnoted h =>
    exact .halted halt (hstop.concat label) (List.mem_append_left _ hnoted) (h.concat label)

/-- What the gate's thread has come to while nobody has taken the record. -/
def Gate.Knows (blank : Record φ ρ) (labels : List (Label φ ρ)) : Gate φ ρ → Prop
  | .working => True
  | .stopped halt => StoppedAt labels halt
  | .noting halt decision => StoppedAt labels halt ∧ Explains blank labels halt decision
  | .settling decision => Decided blank labels decision
  | .finishing _ _ | .replied _ => False

theorem Gate.Knows.not_taken {gate : Gate φ ρ} (h : gate.Knows blank labels) : gate.Before := by
  cases gate with
  | finishing record decision => exact h
  | replied output => exact h
  | _ => trivial

theorem Gate.Knows.concat {gate : Gate φ ρ} (h : gate.Knows blank labels) (label : Label φ ρ) :
    gate.Knows blank (labels ++ [label]) := by
  cases gate with
  | working => trivial
  | stopped halt => exact StoppedAt.concat h label
  | noting halt decision => exact ⟨h.1.concat label, h.2.concat label⟩
  | settling decision => exact Decided.concat h label
  | finishing record decision => exact h
  | replied output => exact h

theorem explains_haltDecision (halt : Halt) :
    Explains blank (labels ++ [.explain]) halt (haltDecision halt (.running (noted blank labels))) := by
  unfold haltDecision
  cases hinternal : halt.internal with
  | none => exact ⟨rfl, rfl, fun _ => rfl, by simp [hinternal]⟩
  | some detail =>
    refine ⟨rfl, rfl, by simp [hinternal], ?_⟩
    intro detail' hdetail
    obtain rfl : detail = detail' := by simpa [hinternal] using hdetail
    exact ⟨labels, [], rfl, rfl⟩

theorem failure_append (log : Option Text) (record : Record φ ρ) (result : Append) :
    Failure log (record.toolUseId.getD "None".toList) result (append log record result) := by
  unfold append
  cases hlog : log.filter (· ≠ []) with
  | none =>
    refine .unset result ?_
    cases log with
    | none => exact .inl rfl
    | some target => exact .inr (by simpa [Option.filter] using hlog)
  | some target =>
    obtain ⟨rfl, htarget⟩ : log = some target ∧ target ≠ [] := by
      simpa [Option.filter_eq_some_iff] using hlog
    cases result with
    | ok => exact .ok
    | unserializable error => exact .unserializable rfl htarget error
    | io repr => exact .io rfl htarget repr
    | short written expected => exact .short rfl htarget written expected

theorem replies_finish (log : Option Text) (record : Record φ ρ) (result : Append)
    (decision : Decision) : (finish log record result decision).Replies log record result decision :=
  ⟨rfl, rfl, _, failure_append log record result, rfl⟩

/-- The process after some labels: nobody took the record, or the gate did, or the watcher did. -/
inductive Reached (log : Option Text) (blank : Record φ ρ) (labels : List (Label φ ρ)) :
    Process φ ρ → Prop where
  | running {gate : Gate φ ρ} {signals : Nat} (hgate : gate.Knows blank labels) :
      Reached log blank labels ⟨.running (noted blank labels), gate, .waiting, signals, [], false⟩
  | settled {before : List (Label φ ρ)} {decision : Decision} {signals : Nat}
      (h : SettledAfter log blank labels before decision) :
      Reached log blank labels
        ⟨.settled, .finishing (noted blank before) decision, .waiting, signals, [], false⟩
  | replied {before : List (Label φ ρ)} {decision : Decision} {signals : Nat} {latency : φ}
      {result : Append} (h : SettledAfter log blank labels before decision) :
      Reached log blank labels
        ⟨.settled, .replied (finish log (finished latency (noted blank before)) result decision),
          .waiting, signals, [(.gate, finished latency (noted blank before), result)], false⟩
  | terminating {before : List (Label φ ρ)} {gate : Gate φ ρ} {signals : Nat}
      (hgate : gate.Before) (h : TerminatedAfter labels before) :
      Reached log blank labels
        ⟨.settled, gate, .finishing (terminate (noted blank before)), signals, [], false⟩
  | terminated {before : List (Label φ ρ)} {gate : Gate φ ρ} {signals : Nat} {latency : φ}
      {result : Append} {stderr : Text} {exited : Bool}
      (hgate : gate.Before) (h : TerminatedAfter labels before) :
      Reached log blank labels
        ⟨.settled, gate, .exiting stderr, signals,
          [(.watcher, finished latency (terminate (noted blank before)), result)], exited⟩

theorem noted_concat_of_writes (label : Label φ ρ) (h : writes [label] = []) :
    noted blank (labels ++ [label]) = noted blank labels := by
  have hwrites : writes (labels ++ [label]) = writes labels ++ writes [label] := List.filterMap_append
  rw [noted, hwrites, h, List.append_nil, noted]

theorem noted_concat_of_write (label : Label φ ρ) {write : Record φ ρ → Record φ ρ}
    (h : writes [label] = [write]) : noted blank (labels ++ [label]) = write (noted blank labels) := by
  have hwrites : writes (labels ++ [label]) = writes labels ++ writes [label] := List.filterMap_append
  rw [noted, hwrites, h, List.foldl_concat, noted]

section Step

variable {gate : Gate φ ρ} {signals : Nat} {latency : φ} {result : Append} {label : Label φ ρ}
  {process' : Process φ ρ}

theorem step_running (hgate : gate.Knows blank labels)
    (hrun : Machine.run (step log) (.start blank) labels =
      some ⟨.running (noted blank labels), gate, .waiting, signals, [], false⟩)
    (hstep : step log ⟨.running (noted blank labels), gate, .waiting, signals, [], false⟩ label =
      some process') :
    Reached log blank (labels ++ [label]) process' := by
  cases label with
  | signal =>
    cases hstep
    rw [← noted_concat_of_writes .signal rfl]
    exact .running (hgate.concat _)
  | note write =>
    cases hstep
    rw [note, ← noted_concat_of_write (.note write) rfl]
    exact .running (hgate.concat _)
  | terminate =>
    cases signals with
    | zero => cases hstep
    | succ signals =>
      cases hstep
      exact .terminating hgate.not_taken ⟨[], rfl⟩
  | appendTerminated latency result => cases hstep
  | exit => cases hstep
  | decide decision =>
    cases gate <;> cases hstep
    rw [← noted_concat_of_writes (.decide decision) rfl]
    exact .running (Decided.own (by simp))
  | stop halt =>
    cases gate <;> cases hstep
    rw [← noted_concat_of_writes (.stop halt) rfl]
    exact .running (show StoppedAt _ halt from .inl (by simp))
  | panic message =>
    cases gate <;> cases hstep
    rw [← noted_concat_of_writes (.panic message) rfl]
    exact .running (show StoppedAt _ _ from .inr ⟨message, by simp, rfl⟩)
  | explain =>
    cases gate with
    | stopped halt =>
      cases hstep
      have hstop : StoppedAt labels halt := hgate
      have hexplains : Explains blank (labels ++ [.explain]) halt
          (haltDecision halt (.running (noted blank labels))) := explains_haltDecision halt
      rw [← noted_concat_of_writes .explain rfl] at hexplains ⊢
      exact .running ⟨hstop.concat _, hexplains⟩
    | _ => cases hstep
  | noteHalt halt =>
    cases gate with
    | noting halt' decision =>
      by_cases heq : halt' = halt
      · simp only [step, gateStep, Process.locked, heq, ne_eq, not_true_eq_false, decide_false,
          Bool.or_false, Bool.false_eq_true, if_false, Option.some.injEq] at hstep
        subst hstep heq
        rw [note, ← noted_concat_of_write (.noteHalt halt') rfl]
        exact .running (Decided.halted halt' (hgate.1.concat _) (by simp) (hgate.2.concat _))
      · simp [step, gateStep, Process.locked, heq] at hstep
    | _ => cases hstep
  | settle =>
    cases gate with
    | settling decision =>
      cases hstep
      exact .settled ⟨⟨[], rfl⟩, ⟨_, hrun, rfl⟩, hgate⟩
    | _ => cases hstep
  | append latency result =>
    cases gate with
    | finishing record decision => exact hgate.elim
    | _ => cases hstep

theorem step_settled (h : SettledAfter log blank labels before decision)
    (hstep : step log ⟨.settled, .finishing (noted blank before) decision, .waiting, signals, [], false⟩
      label = some process') :
    Reached log blank (labels ++ [label]) process' := by
  cases label with
  | signal | note write =>
    cases hstep
    exact .settled (h.concat _)
  | append latency result =>
    cases hstep
    exact .replied (h.concat _)
  | terminate =>
    cases signals with
    | zero => cases hstep
    | succ signals =>
      cases hstep
      exact .settled (h.concat _)
  | _ => cases hstep

theorem step_replied (h : SettledAfter log blank labels before decision)
    (hstep : step log
      ⟨.settled, .replied (finish log (finished latency (noted blank before)) result decision),
        .waiting, signals, [(.gate, finished latency (noted blank before), result)], false⟩ label =
        some process') :
    Reached log blank (labels ++ [label]) process' := by
  cases label with
  | signal | note write =>
    cases hstep
    exact .replied (h.concat _)
  | terminate =>
    cases signals with
    | zero => cases hstep
    | succ signals =>
      cases hstep
      exact .replied (h.concat _)
  | _ => cases hstep

/-- While the watcher holds the lock, the gate's thread goes on to where it needs the lock. -/
theorem gateStep_locked (process : Process φ ρ) (hlocked : process.locked)
    (hgate : process.gate.Before) (hstep : gateStep log process label = some process') :
    ∃ gate, process' = { process with gate := gate } ∧ gate.Before := by
  cases label with
  | decide decision | stop halt | panic message =>
    cases hplace : process.gate <;> simp only [gateStep, hplace, reduceCtorEq] at hstep
    cases hstep
    exact ⟨_, rfl, trivial⟩
  | explain =>
    cases hplace : process.gate <;> simp only [gateStep, hplace, reduceCtorEq] at hstep
    split_ifs at hstep
    cases hstep
    exact ⟨_, rfl, trivial⟩
  | append latency result =>
    cases hplace : process.gate <;> simp only [gateStep, hplace, reduceCtorEq] at hstep
    rw [hplace] at hgate
    exact hgate.elim
  | note write => simp [gateStep, hlocked] at hstep
  | noteHalt halt | settle =>
    cases hplace : process.gate <;> simp [gateStep, hplace, hlocked] at hstep
  | _ => cases hstep

theorem step_locked (process : Process φ ρ) (hlocked : process.locked)
    (hgate : process.gate.Before) (hstep : step log process label = some process') :
    process' = { process with signals := process.signals + 1 } ∨
      watcherStep log process label = some process' ∨
      ∃ gate, process' = { process with gate := gate } ∧ gate.Before := by
  unfold step at hstep
  split_ifs at hstep
  split at hstep
  · exact .inl (Option.some.inj hstep).symm
  · exact .inr (.inl hstep)
  · exact .inr (.inl hstep)
  · exact .inr (.inl hstep)
  · exact .inr (.inr (gateStep_locked process hlocked hgate hstep))

theorem step_terminating (hgate : gate.Before) (h : TerminatedAfter labels before)
    (hstep : step log
      ⟨.settled, gate, .finishing (terminate (noted blank before)), signals, [], false⟩ label =
        some process') :
    Reached log blank (labels ++ [label]) process' := by
  rcases step_locked _ rfl hgate hstep with rfl | hwatcher | ⟨gate', rfl, hgate'⟩
  · exact .terminating hgate (h.concat _)
  · cases label with
    | appendTerminated latency result =>
      cases hwatcher
      exact .terminated hgate (h.concat _)
    | _ => cases hwatcher
  · exact .terminating hgate' (h.concat _)

theorem step_terminated {stderr : Text} {exited : Bool} (hgate : gate.Before)
    (h : TerminatedAfter labels before)
    (hstep : step log
      ⟨.settled, gate, .exiting stderr, signals,
        [(.watcher, finished latency (terminate (noted blank before)), result)], exited⟩ label =
        some process') :
    Reached log blank (labels ++ [label]) process' := by
  rcases step_locked _ rfl hgate hstep with rfl | hwatcher | ⟨gate', rfl, hgate'⟩
  · exact .terminated hgate (h.concat _)
  · cases label with
    | exit =>
      cases hwatcher
      exact .terminated hgate (h.concat _)
    | _ => cases hwatcher
  · exact .terminated hgate' (h.concat _)

end Step

theorem reached_of_run {process : Process φ ρ}
    (h : Machine.run (step log) (.start blank) labels = some process) :
    Reached log blank labels process := by
  have hstart : Reached log blank [] (.start blank) :=
    .running (show Gate.Knows blank [] .working from trivial)
  refine Machine.run_induction (Reached log blank) hstart ?_ h
  intro labels between label after hrun hbetween hstep
  cases hbetween with
  | running hgate => exact step_running hgate hrun hstep
  | settled h => exact step_settled h hstep
  | replied h => exact step_replied h hstep
  | terminating hgate h => exact step_terminating hgate h hstep
  | terminated hgate h => exact step_terminated hgate h hstep

/-! ## One settle -/

/-- The process has replied or exited. -/
def Process.Over (process : Process φ ρ) : Prop :=
  process.exited ∨ ∃ output, process.gate = .replied output

/-- The records in the log, when one is set. -/
def Process.logged (log : Option Text) (process : Process φ ρ) : List (Record φ ρ) :=
  match log.filter (· ≠ []) with
  | none => []
  | some _ => process.appended.filterMap fun (_, record, result) =>
    if result = .ok then some record else none

/-- Some thread can go on until the process is over. -/
theorem Reached.progress [Inhabited φ] {process : Process φ ρ} (h : Reached log blank labels process)
    (hover : ¬process.Over) :
    ∃ label after, label ≠ .signal ∧ step log process label = some after := by
  cases h with
  | running hgate =>
    rename_i gate signals
    cases gate with
    | working => exact ⟨.decide .default, _, by simp, rfl⟩
    | stopped halt => exact ⟨.explain, _, by simp, rfl⟩
    | noting halt decision =>
      refine ⟨.noteHalt halt, ⟨.running (noteHalt halt (noted blank labels)), .settling decision,
        .waiting, signals, [], false⟩, by simp, ?_⟩
      simp [step, gateStep, Process.locked, note]
    | settling decision => exact ⟨.settle, _, by simp, rfl⟩
    | finishing record decision => exact hgate.elim
    | replied output => exact hgate.elim
  | settled h => exact ⟨.append default .ok, _, by simp, rfl⟩
  | replied h => exact absurd (.inr ⟨_, rfl⟩) hover
  | terminating hgate h => exact ⟨.appendTerminated default .ok, _, by simp, rfl⟩
  | terminated hgate h =>
    rename_i exited
    cases exited with
    | true => exact absurd (.inl rfl) hover
    | false => exact ⟨.exit, _, by simp, rfl⟩

theorem Reached.appended_of_over {process : Process φ ρ} (h : Reached log blank labels process)
    (hover : process.Over) : ∃ author record result, process.appended = [(author, record, result)] := by
  cases h with
  | running hgate =>
    obtain hexited | ⟨output, rfl⟩ := hover
    · cases hexited
    · exact hgate.elim
  | settled h => obtain hexited | ⟨output, houtput⟩ := hover <;> contradiction
  | replied h => exact ⟨_, _, _, rfl⟩
  | terminating hgate h =>
    obtain hexited | ⟨output, rfl⟩ := hover
    · cases hexited
    · exact hgate.elim
  | terminated hgate h => exact ⟨_, _, _, rfl⟩

theorem Reached.gate_record {process : Process φ ρ} (h : Reached log blank labels process)
    {record : Record φ ρ} {result : Append} (hmem : (.gate, record, result) ∈ process.appended) :
    ∃ before decision latency output, SettledAfter log blank labels before decision ∧
      record = { noted blank before with latencyMs := some latency } ∧
      process.gate = .replied output ∧ output.Replies log record result decision ∧
      process.exited = false := by
  cases h with
  | replied h =>
    obtain ⟨rfl, rfl⟩ : _ ∧ _ := by simpa using hmem
    exact ⟨_, _, _, _, h, rfl, rfl, replies_finish _ _ _ _, rfl⟩
  | _ => simp at hmem

theorem Reached.terminated_record {process : Process φ ρ} (h : Reached log blank labels process)
    {record : Record φ ρ} {result : Append} (hmem : (.watcher, record, result) ∈ process.appended) :
    ∃ before latency, TerminatedAfter labels before ∧
      record = { noted blank before with
        latencyMs := some latency
        outcome := some .degraded
        reason := some "terminated".toList } ∧
      ∀ output, process.gate ≠ .replied output := by
  cases h with
  | terminated hgate h =>
    obtain ⟨rfl, rfl⟩ : _ ∧ _ := by simpa using hmem
    refine ⟨_, _, h, rfl, fun output houtput => ?_⟩
    dsimp only at houtput
    rw [houtput] at hgate
    exact hgate
  | _ => simp at hmem

/-- However the gate's steps, the signals and the watcher's steps are interleaved, one record is
given to the log. It is the gate's with every note up to its settle, and then the reply is the
decision that the gate had reached, behind what a failed append says on stderr; or it is the
terminated one with every note up to the signal that ended the call, and then there is no reply. A
note after the settle changes nothing, and no thread waits for ever. -/
theorem call_settles_once [Inhabited φ] (log : Option Text) (blank : Record φ ρ) (labels : List (Label φ ρ))
    (process : Process φ ρ) (h : Machine.run (step log) (.start blank) labels = some process) :
    process.appended.length ≤ 1 ∧
    (process.Over → ∃ author record result, process.appended = [(author, record, result)] ∧
      (log.filter (· ≠ []) ≠ none → result = .ok → process.logged log = [record])) ∧
    (∀ record result, (Author.gate, record, result) ∈ process.appended →
      ∃ before decision latency output, SettledAfter log blank labels before decision ∧
        record = { noted blank before with latencyMs := some latency } ∧
        process.gate = .replied output ∧ output.Replies log record result decision ∧
        process.exited = false) ∧
    (∀ record result, (Author.watcher, record, result) ∈ process.appended →
      ∃ before latency, TerminatedAfter labels before ∧
        record = { noted blank before with
          latencyMs := some latency
          outcome := some .degraded
          reason := some "terminated".toList } ∧
        ∀ output, process.gate ≠ .replied output) ∧
    (∀ write after, process.phase = .settled → step log process (.note write) = some after →
      after = process) ∧
    (¬process.Over → ∃ label after, label ≠ .signal ∧ step log process label = some after) := by
  have hreached := reached_of_run h
  refine ⟨?_, ?_, fun _ _ => hreached.gate_record, fun _ _ => hreached.terminated_record, ?_,
    hreached.progress⟩
  · cases hreached <;> simp
  · intro hover
    obtain ⟨author, record, result, happended⟩ := hreached.appended_of_over hover
    refine ⟨author, record, result, happended, fun hlog hresult => ?_⟩
    obtain ⟨target, htarget⟩ := Option.ne_none_iff_exists'.mp hlog
    rw [Process.logged, htarget, happended]
    simp [hresult]
  · intro write after hphase hstep
    unfold step at hstep
    split_ifs at hstep
    simp only [gateStep, hphase, note] at hstep
    split_ifs at hstep
    rw [← hphase] at hstep
    exact (Option.some.inj hstep).symm

/-- A signal ends a call with one note: the decision that comes after it is not replied. Without a
signal the call replies its decision, behind the line of the append that fell short. -/
theorem call_settles_once_terminated :
    let log : Option Text := some "log".toList
    let blank : Record Unit Unit := ⟨none, none, none, none, none, ()⟩
    let named : Record Unit Unit → Record Unit Unit := fun record =>
      { record with toolUseId := some "t1".toList }
    let decision : Decision := ⟨2, "{}".toList, "blocked".toList⟩
    let ended : List (Label Unit Unit) := [.note named, .decide decision, .signal, .signal, .terminate,
      .appendTerminated () .ok, .exit]
    let replied : List (Label Unit Unit) := [.note named, .decide decision, .settle,
      .append () (.short 1 9), .note named]
    (∃ process, Machine.run (step log) (.start blank) ended = some process ∧
      process.logged log =
        [⟨some (), some "t1".toList, none, some .degraded, some "terminated".toList, ()⟩] ∧
      process.appended.length ≤ 1 ∧ ∀ output, process.gate ≠ .replied output) ∧
    ∃ process record output, Machine.run (step log) (.start blank) replied = some process ∧
      process.appended = [(.gate, record, .short 1 9)] ∧ process.gate = .replied output ∧
      output.stderr = ("erosion gate wrote 1 of 9 bytes to log: tool_use_id=t1\n".toList ++
        "blocked".toList) ∧
      ∃ before decision, SettledAfter log blank replied before decision ∧
        output.Replies log record (.short 1 9) decision := by
  intro log blank named decision ended replied
  refine ⟨?_, ?_⟩
  · have hrun : ∃ process record, Machine.run (step log) (.start blank) ended = some process ∧
        process.logged log =
          [⟨some (), some "t1".toList, none, some .degraded, some "terminated".toList, ()⟩] ∧
        (Author.watcher, record, Append.ok) ∈ process.appended :=
      ⟨_, _, rfl, rfl, List.mem_singleton_self _⟩
    obtain ⟨process, record, hprocess, hlogged, hmem⟩ := hrun
    obtain ⟨hlength, -, -, hwatcher, -⟩ := call_settles_once log blank ended process hprocess
    obtain ⟨-, -, -, -, hreply⟩ := hwatcher record .ok hmem
    exact ⟨process, hprocess, hlogged, hlength, hreply⟩
  · have hrun : ∃ process record output,
        Machine.run (step log) (.start blank) replied = some process ∧
        process.appended = [(Author.gate, record, .short 1 9)] ∧ process.gate = .replied output ∧
        output.stderr = ("erosion gate wrote 1 of 9 bytes to log: tool_use_id=t1\n".toList ++
          "blocked".toList) :=
      ⟨_, _, _, rfl, rfl, rfl, by decide⟩
    obtain ⟨process, record, output, hprocess, happended, hgate, hstderr⟩ := hrun
    have hmem : (Author.gate, record, Append.short 1 9) ∈ process.appended := by simp [happended]
    obtain ⟨-, -, hsettled, -⟩ := call_settles_once log blank replied process hprocess
    obtain ⟨before, decision, latency, output', hbefore, -, hgate', hreplies, -⟩ :=
      hsettled record _ hmem
    obtain rfl : output = output' := by
      rw [hgate] at hgate'
      exact Gate.replied.inj hgate'
    exact ⟨process, record, output, hprocess, happended, hgate, hstderr, before, decision, hbefore,
      hreplies⟩

end Threads

end Agentless.Hook
