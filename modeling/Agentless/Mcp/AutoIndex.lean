import Agentless.Library.Assoc
import Agentless.Library.Machine

/-!
# The background index

A call that reads a repository arms the index: it reads the registry, reads the generation of the
repository, decides, and then starts a refresh thread or records that none can start. The registry
is locked for each of the first and the last of these, and not in between. The locked start looks
for a racer of the same generation only, so a racer of another generation can be replaced while its
thread is live. Where every start finds neither a live run nor a refused one, a database has one
live thread at most and the registry knows it.
-/

namespace Agentless.Mcp

/-- The generation that an attempt records when it could not read one. -/
def unavailable : Text := "unavailable".toList

inductive CacheState where
  | bypassed
  | absent
  | indexed (generation repoGeneration : Text)
  deriving DecidableEq

structure Session where
  database : Text
  root : Text
  state : CacheState
  deriving DecidableEq

/-- The last attempt of a database, with its thread when one started. -/
structure Run where
  live : Option Nat
  generation : Text
  deriving DecidableEq

inductive Attempt where
  | nothing
  | record (generation warning : Text)
  | start (generation : Text)
  deriving DecidableEq

inductive Last where
  | blocking
  | attempted (generation : Option Text)
  deriving DecidableEq

abbrev Runs := List (Text × Run)

/-- The threads that run, with their databases. -/
abbrev Threads := List (Nat × Text)

section Operations

variable (threads : Threads)

def Run.running (run : Run) : Bool := run.live.any fun thread => (threads.map Prod.fst).contains thread

def refreshing (runs : Runs) (database : Text) : Bool := (runs.lookup database).any (Run.running threads)

def last (runs : Runs) (database : Text) : Last :=
  match runs.lookup database with
  | some run =>
    if run.running threads || run.generation = unavailable then .blocking
    else .attempted (some run.generation)
  | none => .attempted none

def record (runs : Runs) (database generation : Text) : Runs :=
  if refreshing threads runs database then runs else (database, ⟨none, generation⟩) :: runs

end Operations

/-- A usable database read the generation of the repository when its session opened. -/
def generation (session : Session) (now : Except Text Text) : Except Text Text :=
  match session.state with
  | .indexed _ repoGeneration => .ok repoGeneration
  | _ => now

def attempt (previous : Option Text) (state : CacheState) (generation : Except Text Text)
    (root : Text) : Attempt :=
  match generation with
  | .error error =>
    .record unavailable
      ("background index refresh for ".toList ++ root ++ " skipped: ".toList ++ error)
  | .ok generation =>
    let current := match state with
      | .indexed built _ => built = generation
      | _ => false
    if current || previous = some generation then .nothing else .start generation

/-! ## Calls and threads that run together -/

/-- Where an arming is. -/
inductive Arming where
  | reading (session : Session)
  | generating (session : Session) (previous : Option Text)
  | attempting (session : Session) (attempt : Attempt)
  | done
  deriving DecidableEq

/-- The registry and the threads, with the armings that were called and the generations that were
started. -/
structure AutoIndex where
  runs : Runs
  threads : Threads
  next : Nat
  armings : List Arming
  started : List (Text × Text)
  deriving DecidableEq

def AutoIndex.new : AutoIndex := ⟨[], [], 0, [], []⟩

inductive Label where
  | arm (session : Session)
  | last (id : Nat)
  | generation (id : Nat) (now : Except Text Text)
  | record (id : Nat)
  | start (id : Nat) (starts : Bool)
  | finish (thread : Nat)

/-- Under the lock: a racer that registered this generation already started its run. -/
def start (index : AutoIndex) (database generation : Text) (starts : Bool) : AutoIndex :=
  if (index.runs.lookup database).any (·.generation = generation) then index
  else
    { index with
      runs := (database, ⟨if starts then some index.next else none, generation⟩) :: index.runs
      threads := if starts then (index.next, database) :: index.threads else index.threads
      next := index.next + 1
      started := index.started ++ [(database, generation)] }

def AutoIndex.arming (index : AutoIndex) (id : Nat) (arming : Arming) : AutoIndex :=
  { index with armings := index.armings.set id arming }

def step (index : AutoIndex) : Label → Option AutoIndex
  | .arm session => some { index with armings := index.armings ++ [.reading session] }
  | .last id =>
    match index.armings[id]? with
    | some (.reading session) =>
      match last index.threads index.runs session.database with
      | .blocking => some (index.arming id .done)
      | .attempted previous => some (index.arming id (.generating session previous))
    | _ => none
  | .generation id now =>
    match index.armings[id]? with
    | some (.generating session previous) =>
      some (index.arming id (.attempting session
        (attempt previous session.state (generation session now) session.root)))
    | _ => none
  | .record id =>
    match index.armings[id]? with
    | some (.attempting session (.record generation _)) =>
      some ({ index with
        runs := record index.threads index.runs session.database generation }.arming id .done)
    | _ => none
  | .start id starts =>
    match index.armings[id]? with
    | some (.attempting session (.start generation)) =>
      some ((start index session.database generation starts).arming id .done)
    | _ => none
  | .finish thread =>
    if (index.threads.map Prod.fst).contains thread then
      some { index with threads := index.threads.filter (·.1 ≠ thread) }
    else none

/-! ## What every run keeps -/

/-- A start finds the registry without a live run and without a refused one, or with a racer of its
own generation. -/
def Clear (index : AutoIndex) (label : Label) : Prop :=
  ∀ id starts session generation, label = .start id starts →
    index.armings[id]? = some (.attempting session (.start generation)) →
    ∀ run, index.runs.lookup session.database = some run →
      run.generation = generation ∨ (run.running index.threads = false ∧ run.generation ≠ unavailable)

/-- The generations that were started for a database, in order. -/
def AutoIndex.startedOf (index : AutoIndex) (database : Text) : List Text :=
  (index.started.filter (·.1 = database)).map Prod.snd

structure Invariant (index : AutoIndex) : Prop where
  lt_next : ∀ thread ∈ index.threads, thread.1 < index.next
  nodup : (index.threads.map Prod.fst).Nodup
  known : ∀ thread ∈ index.threads, ∃ run, index.runs.lookup thread.2 = some run ∧
    run.live = some thread.1
  owned : ∀ database run thread, index.runs.lookup database = some run → run.live = some thread →
    thread < index.next ∧ ∀ other, (thread, other) ∈ index.threads → other = database
  recorded : ∀ session generation warning,
    .attempting session (.record generation warning) ∈ index.armings → generation = unavailable
  distinct : ∀ database, (index.startedOf database).IsChain (· ≠ ·)
  latest : ∀ database, ∀ generation ∈ (index.startedOf database).getLast?,
    ∃ run, index.runs.lookup database = some run ∧
      (run.generation = generation ∨ run.generation = unavailable)

section Step

variable {index : AutoIndex} {runs : Runs} {threads : Threads} {database : Text}

theorem running_iff {run : Run} :
    run.running threads ↔ ∃ thread, run.live = some thread ∧ ∃ other, (thread, other) ∈ threads := by
  simp [Run.running, Option.any_eq_true]

theorem invariant_new : Invariant .new where
  lt_next := by simp [AutoIndex.new]
  nodup := by simp [AutoIndex.new]
  known := by simp [AutoIndex.new]
  owned := by simp [AutoIndex.new]
  recorded := by simp [AutoIndex.new]
  distinct := by simp [AutoIndex.new, AutoIndex.startedOf]
  latest := by simp [AutoIndex.new, AutoIndex.startedOf]

/-- The registry knows exactly the live threads of a database. -/
theorem Invariant.refreshing_iff (h : Invariant index) (database : Text) :
    refreshing index.threads index.runs database ↔ ∃ thread, (thread, database) ∈ index.threads := by
  rw [refreshing, Option.any_eq_true]
  constructor
  · rintro ⟨run, hrun, hrunning⟩
    obtain ⟨thread, hlive, other, hthread⟩ := running_iff.mp hrunning
    rw [(h.owned database run thread hrun hlive).2 other hthread] at hthread
    exact ⟨thread, hthread⟩
  · rintro ⟨thread, hthread⟩
    obtain ⟨run, hrun, hlive⟩ := h.known _ hthread
    exact ⟨run, hrun, running_iff.mpr ⟨thread, hlive, database, hthread⟩⟩

theorem Invariant.live_unique (h : Invariant index) {thread other : Nat}
    (hthread : (thread, database) ∈ index.threads) (hother : (other, database) ∈ index.threads) :
    thread = other := by
  obtain ⟨run, hrun, hlive⟩ := h.known _ hthread
  obtain ⟨run', hrun', hlive'⟩ := h.known _ hother
  rw [hrun] at hrun'
  cases hrun'
  rw [hlive] at hlive'
  exact Option.some.inj hlive'

theorem Invariant.length_le_one (h : Invariant index) (database : Text) :
    (index.threads.filter (·.2 = database)).length ≤ 1 := by
  have hnodup := (h.nodup.of_map).filter (·.2 = database)
  have hsame : ∀ thread ∈ index.threads.filter (·.2 = database),
      ∀ other ∈ index.threads.filter (·.2 = database), thread = other := by
    rintro ⟨thread, owner⟩ hthread ⟨other, owner'⟩ hother
    obtain ⟨hmem, howner⟩ := List.mem_filter.mp hthread
    obtain ⟨hmem', howner'⟩ := List.mem_filter.mp hother
    obtain rfl : owner = database := of_decide_eq_true howner
    obtain rfl : owner' = owner := of_decide_eq_true howner'
    rw [h.live_unique hmem hmem']
  generalize index.threads.filter (·.2 = database) = live at hnodup hsame
  match live with
  | [] => simp
  | [_] => simp
  | thread :: other :: rest =>
    have heq := hsame thread (by simp) other (by simp)
    simp [heq] at hnodup

theorem Invariant.armings (h : Invariant index) {armings : List Arming}
    (hrecorded : ∀ session generation warning,
      .attempting session (.record generation warning) ∈ armings → generation = unavailable) :
    Invariant { index with armings := armings } :=
  { h with recorded := hrecorded }

theorem Invariant.arming (h : Invariant index) (id : Nat) {arming : Arming}
    (harming : ∀ session generation warning,
      arming = .attempting session (.record generation warning) → generation = unavailable) :
    Invariant (index.arming id arming) := by
  refine h.armings fun session generation warning hmem => ?_
  rcases List.mem_or_eq_of_mem_set hmem with hmem | hmem
  · exact h.recorded session generation warning hmem
  · exact harming session generation warning hmem.symm

theorem Invariant.finish (h : Invariant index) (thread : Nat) :
    Invariant { index with threads := index.threads.filter (·.1 ≠ thread) } where
  lt_next other hother := h.lt_next other (List.mem_of_mem_filter hother)
  nodup := h.nodup.sublist (List.filter_sublist.map Prod.fst)
  known other hother := h.known other (List.mem_of_mem_filter hother)
  owned database run other hrun hlive :=
    ⟨(h.owned database run other hrun hlive).1, fun database' hmem =>
      (h.owned database run other hrun hlive).2 database' (List.mem_of_mem_filter hmem)⟩
  recorded := h.recorded
  distinct := h.distinct
  latest := h.latest

theorem Invariant.record (h : Invariant index) (database : Text) :
    Invariant { index with runs := record index.threads index.runs database unavailable } := by
  rw [Mcp.record]
  split_ifs with hrefreshing
  · exact h
  · refine { h with known := ?_, owned := ?_, latest := ?_ }
    · intro thread hthread
      obtain ⟨run, hrun, hlive⟩ := h.known thread hthread
      have hne : thread.2 ≠ database := by
        rintro rfl
        exact hrefreshing ((h.refreshing_iff _).mpr ⟨thread.1, hthread⟩)
      exact ⟨run, by rw [Assoc.lookup_cons_eq, if_neg hne, hrun], hlive⟩
    · intro other run thread hrun hlive
      rw [Assoc.lookup_cons_eq] at hrun
      split_ifs at hrun
      · cases hrun
        cases hlive
      · exact h.owned other run thread hrun hlive
    · intro other generation hgeneration
      dsimp only
      rw [Assoc.lookup_cons_eq]
      split_ifs
      · exact ⟨_, rfl, .inr rfl⟩
      · exact h.latest other generation hgeneration

theorem startedOf_concat (started : List (Text × Text)) (database generation other : Text) :
    ((started ++ [(database, generation)]).filter (·.1 = other)).map Prod.snd =
      (started.filter (·.1 = other)).map Prod.snd ++ if database = other then [generation] else [] := by
  rw [List.filter_append, List.map_append]
  by_cases heq : database = other <;> simp [heq]

theorem mem_threads_iff {starts : Bool} {thread added : Nat × Text} :
    thread ∈ (if starts then added :: threads else threads) ↔
      starts ∧ thread = added ∨ thread ∈ threads := by
  cases starts <;> simp

theorem Invariant.started {generation : Text} (h : Invariant index)
    (hquiet : ∀ thread, (thread, database) ∉ index.threads)
    (hother : ∀ run, index.runs.lookup database = some run →
      run.generation ≠ generation ∧ run.generation ≠ unavailable) (starts : Bool) :
    Invariant { index with
      runs := (database, ⟨if starts then some index.next else none, generation⟩) :: index.runs
      threads := if starts then (index.next, database) :: index.threads else index.threads
      next := index.next + 1
      started := index.started ++ [(database, generation)] } where
  lt_next thread hthread := by
    rcases mem_threads_iff.mp hthread with ⟨-, rfl⟩ | hthread
    · exact Nat.lt_succ_self _
    · exact Nat.lt_succ_of_lt (h.lt_next thread hthread)
  nodup := by
    cases starts with
    | false => exact h.nodup
    | true =>
      refine List.nodup_cons.mpr ⟨fun hmem => ?_, h.nodup⟩
      obtain ⟨thread, hthread, heq⟩ := List.mem_map.mp hmem
      exact absurd (h.lt_next thread hthread) (by rw [heq]; exact lt_irrefl _)
  known thread hthread := by
    rcases mem_threads_iff.mp hthread with ⟨hstarts, rfl⟩ | hold
    · exact ⟨⟨some index.next, generation⟩, by rw [Assoc.lookup_cons_eq, if_pos rfl, if_pos hstarts], rfl⟩
    · have hne : thread.2 ≠ database := by
        rintro rfl
        exact hquiet thread.1 hold
      rw [Assoc.lookup_cons_eq, if_neg hne]
      exact h.known thread hold
  owned other run thread hrun hlive := by
    rw [Assoc.lookup_cons_eq] at hrun
    by_cases heq : other = database
    · rw [if_pos heq] at hrun
      cases hrun
      obtain ⟨-, rfl⟩ : starts ∧ index.next = thread := by simpa using hlive
      refine ⟨Nat.lt_succ_self _, fun other' hmem => ?_⟩
      rcases mem_threads_iff.mp hmem with ⟨-, hmem⟩ | hmem
      · rw [(Prod.mk.inj hmem).2, heq]
      · exact absurd (h.lt_next _ hmem) (lt_irrefl _)
    · rw [if_neg heq] at hrun
      obtain ⟨hlt, howned⟩ := h.owned other run thread hrun hlive
      refine ⟨Nat.lt_succ_of_lt hlt, fun other' hmem => ?_⟩
      rcases mem_threads_iff.mp hmem with ⟨-, hmem⟩ | hmem
      · exact absurd (Prod.mk.inj hmem).1 hlt.ne
      · exact howned other' hmem
  recorded := h.recorded
  distinct other := by
    rw [AutoIndex.startedOf, startedOf_concat]
    split_ifs with heq
    · subst heq
      refine List.isChain_append.mpr ⟨h.distinct database, List.isChain_singleton _, ?_⟩
      intro before hbefore after hafter
      obtain rfl : generation = after := by simpa using hafter
      obtain ⟨run, hrun, hgeneration⟩ := h.latest database before hbefore
      obtain ⟨hne, havailable⟩ := hother run hrun
      exact hgeneration.resolve_right havailable ▸ hne
    · rw [List.append_nil]
      exact h.distinct other
  latest other generation' hgeneration := by
    rw [AutoIndex.startedOf, startedOf_concat] at hgeneration
    rw [Assoc.lookup_cons_eq]
    by_cases heq : database = other
    · rw [if_pos heq, List.getLast?_concat] at hgeneration
      rw [if_pos heq.symm]
      exact ⟨_, rfl, .inl (by simpa using hgeneration)⟩
    · rw [if_neg heq, List.append_nil] at hgeneration
      rw [if_neg (Ne.symm heq)]
      exact h.latest other generation' hgeneration

theorem Invariant.start {generation : Text} (h : Invariant index)
    (hclear : ∀ run, index.runs.lookup database = some run → run.generation = generation ∨
      (run.running index.threads = false ∧ run.generation ≠ unavailable)) (starts : Bool) :
    Invariant (start index database generation starts) := by
  by_cases hracer : (index.runs.lookup database).any (·.generation = generation)
  · rw [Mcp.start, if_pos hracer]
    exact h
  rw [Mcp.start, if_neg hracer]
  have hother : ∀ run, index.runs.lookup database = some run → run.generation ≠ generation := by
    intro run hrun heq
    exact hracer ((Option.any_eq_true _ _).mpr ⟨run, hrun, by simpa using heq⟩)
  refine h.started (fun thread hthread => ?_) (fun run hrun => ?_) starts
  · obtain ⟨run, hrun, hrunning⟩ := (Option.any_eq_true _ _).mp ((h.refreshing_iff database).mpr ⟨thread, hthread⟩)
    obtain ⟨hquiet, -⟩ := (hclear run hrun).resolve_left (hother run hrun)
    rw [hquiet] at hrunning
    cases hrunning
  · exact ⟨hother run hrun, ((hclear run hrun).resolve_left (hother run hrun)).2⟩

theorem attempt_record {previous : Option Text} {state : CacheState} {now : Except Text Text}
    {root generation warning : Text} (h : attempt previous state now root = .record generation warning) :
    generation = unavailable := by
  cases now with
  | error error =>
    cases h
    rfl
  | ok generation =>
    unfold attempt at h
    dsimp only at h
    split_ifs at h

theorem step_cases {index' : AutoIndex} {label : Label} (h : step index label = some index') :
    (∃ armings, index' = { index with armings := armings } ∧
      ∀ session generation warning, .attempting session (.record generation warning) ∈ armings →
        .attempting session (.record generation warning) ∈ index.armings ∨
          generation = unavailable) ∨
    (∃ id session generation warning,
      .attempting session (.record generation warning) ∈ index.armings ∧
      index' = { index with
        runs := record index.threads index.runs session.database generation }.arming id .done) ∨
    (∃ id starts session generation, label = .start id starts ∧
      index.armings[id]? = some (.attempting session (.start generation)) ∧
      index' = (start index session.database generation starts).arming id .done) ∨
    (∃ thread, index' = { index with threads := index.threads.filter (·.1 ≠ thread) }) := by
  have hset : ∀ id arming session generation warning,
      .attempting session (.record generation warning) ∈ index.armings.set id arming →
      .attempting session (.record generation warning) ∈ index.armings ∨
        arming = .attempting session (.record generation warning) :=
    fun id arming session generation warning hmem =>
      (List.mem_or_eq_of_mem_set hmem).imp_right Eq.symm
  cases label with
  | arm session =>
    cases h
    exact .inl ⟨_, rfl, fun session generation warning hmem => .inl (by simpa using hmem)⟩
  | last id =>
    simp only [step] at h
    split at h
    · split at h <;> cases h <;>
        exact .inl ⟨_, rfl, fun session generation warning hmem =>
          .inl ((hset id _ session generation warning hmem).resolve_right (by simp))⟩
    · cases h
  | generation id now =>
    simp only [step] at h
    split at h <;> cases h
    refine .inl ⟨_, rfl, fun session generation warning hmem => ?_⟩
    exact (hset id _ session generation warning hmem).imp_right fun heq =>
      attempt_record (Arming.attempting.inj heq).2
  | record id =>
    simp only [step] at h
    split at h <;> cases h
    rename_i session generation warning harming
    exact .inr (.inl ⟨id, session, generation, warning, List.mem_of_getElem? harming, rfl⟩)
  | start id starts =>
    simp only [step] at h
    split at h <;> cases h
    rename_i session generation harming
    exact .inr (.inr (.inl ⟨id, starts, session, generation, rfl, harming, rfl⟩))
  | finish thread =>
    simp only [step] at h
    split_ifs at h
    cases h
    exact .inr (.inr (.inr ⟨thread, rfl⟩))

theorem Invariant.step {index' : AutoIndex} {label : Label} (h : Invariant index)
    (hclear : Clear index label) (hstep : step index label = some index') : Invariant index' := by
  rcases step_cases hstep with ⟨armings, rfl, harmings⟩ | ⟨id, session, generation, warning, hmem, rfl⟩ |
    ⟨id, starts, session, generation, hlabel, harming, rfl⟩ | ⟨thread, rfl⟩
  · refine h.armings fun session generation warning hmem => ?_
    exact (harmings session generation warning hmem).elim (h.recorded session generation warning) id
  · rw [h.recorded session generation warning hmem]
    exact (h.record session.database).arming id (by simp)
  · exact (h.start (hclear id starts session generation hlabel harming) starts).arming id (by simp)
  · exact h.finish thread

/-- The last attempt of the database could not read a generation. -/
def Refused (index : AutoIndex) (database : Text) : Prop :=
  ∃ run, index.runs.lookup database = some run ∧ run.generation = unavailable

theorem Refused.step {index' : AutoIndex} {label : Label} (h : Refused index database)
    (hindex : Invariant index) (hclear : Clear index label) (hstep : step index label = some index') :
    Refused index' database ∧ index'.startedOf database = index.startedOf database := by
  rcases step_cases hstep with ⟨armings, rfl, -⟩ | ⟨id, session, generation, warning, hmem, rfl⟩ |
    ⟨id, starts, session, generation, hlabel, harming, rfl⟩ | ⟨thread, rfl⟩
  · exact ⟨h, rfl⟩
  · refine ⟨?_, rfl⟩
    rw [hindex.recorded session generation warning hmem]
    obtain ⟨run, hrun, hrefused⟩ := h
    simp only [Refused, AutoIndex.arming, record]
    split_ifs
    · exact ⟨run, hrun, hrefused⟩
    · rw [Assoc.lookup_cons_eq]
      split_ifs
      · exact ⟨_, rfl, rfl⟩
      · exact ⟨run, hrun, hrefused⟩
  · obtain ⟨run, hrun, hrefused⟩ := h
    have hclear := hclear id starts session generation hlabel harming
    rw [start]
    split_ifs with hracer
    · exact ⟨⟨run, hrun, hrefused⟩, rfl⟩
    all_goals
      have hne : session.database ≠ database := by
        rintro rfl
        refine hracer ((Option.any_eq_true _ _).mpr ⟨run, hrun, decide_eq_true ?_⟩)
        exact (hclear run hrun).resolve_right fun h => h.2 hrefused
      refine ⟨⟨run, ?_, hrefused⟩, ?_⟩
      · simp only [AutoIndex.arming]
        rw [Assoc.lookup_cons_eq, if_neg (Ne.symm hne), hrun]
      · simp only [AutoIndex.arming, AutoIndex.startedOf]
        rw [startedOf_concat, if_neg hne, List.append_nil]
  · exact ⟨h, rfl⟩

end Step

/-- Every step of the run is clear. -/
def ClearRun (labels : List Label) : Prop :=
  ∀ before label after between, labels = before ++ label :: after →
    Machine.run step .new before = some between → Clear between label

theorem ClearRun.of_append {labels more : List Label} (h : ClearRun (labels ++ more)) :
    ClearRun labels := by
  rintro before label after between rfl hbetween
  exact h before label (after ++ more) between (by simp) hbetween

theorem invariant_of_run {labels : List Label} {index : AutoIndex}
    (h : Machine.run step .new labels = some index) (hclear : ClearRun labels) : Invariant index := by
  refine Machine.run_induction (fun labels index => ClearRun labels → Invariant index)
    (fun _ => invariant_new) ?_ h hclear
  intro labels between label after hrun hbetween hstep hclear
  exact (hbetween hclear.of_append).step (hclear labels label [] between rfl hrun) hstep

theorem refused_of_run {before after : List Label} {between index : AutoIndex} {database : Text}
    (hbefore : Machine.run step .new before = some between)
    (h : Machine.run step between after = some index) (hclear : ClearRun (before ++ after))
    (hrefused : Refused between database) :
    Refused index database ∧ index.startedOf database = between.startedOf database := by
  refine Machine.run_induction (fun after index => ClearRun (before ++ after) →
    Refused index database ∧ index.startedOf database = between.startedOf database)
    (fun _ => ⟨hrefused, rfl⟩) ?_ h hclear
  intro labels middle label next hrun hmiddle hstep hclear
  rw [← List.append_assoc] at hclear
  have hall : Machine.run step .new (before ++ labels) = some middle :=
    Machine.run_append_eq_some_iff.mpr ⟨between, hbefore, hrun⟩
  obtain ⟨hrefused, hstarted⟩ := hmiddle hclear.of_append
  obtain ⟨hnext, hsame⟩ := hrefused.step (invariant_of_run hall hclear.of_append)
    (hclear _ label [] middle rfl hall) hstep
  exact ⟨hnext, hsame.trans hstarted⟩

/-- In every run whose starts find neither a live run nor a refused one in the registry, other than
a racer of their own generation: a database has at most one live thread; the registry says that it
is refreshed exactly while it has one; no generation is started twice in a row; and once a refusal
is recorded nothing is started. -/
theorem autoIndex_refreshes_once (labels : List Label) (index : AutoIndex)
    (h : Machine.run step .new labels = some index) (hclear : ClearRun labels) :
    (∀ database, (index.threads.filter (·.2 = database)).length ≤ 1) ∧
    (∀ database, refreshing index.threads index.runs database ↔
      ∃ thread, (thread, database) ∈ index.threads) ∧
    (∀ database, (index.startedOf database).IsChain (· ≠ ·)) ∧
    (∀ before after between database, labels = before ++ after →
      Machine.run step .new before = some between → Refused between database →
      index.startedOf database = between.startedOf database) := by
  have hindex := invariant_of_run h hclear
  refine ⟨hindex.length_le_one, hindex.refreshing_iff, hindex.distinct, ?_⟩
  · rintro before after between database rfl hbefore hrefused
    obtain ⟨middle, hmiddle, hafter⟩ := Machine.run_append_eq_some_iff.mp h
    obtain rfl : between = middle := Option.some.inj (hbefore.symm.trans hmiddle)
    exact (refused_of_run hbefore hafter hclear hrefused).2

def unindexed : Session := ⟨"/r/agentless.db".toList, "/r".toList, .absent⟩

/-- Two armings that read the registry before either starts: with two generations there are two
live threads, and with one that cannot be read a thread starts after the refusal. -/
theorem autoIndex_race :
    (∃ index, Machine.run step .new [.arm unindexed, .arm unindexed, .last 0, .last 1,
        .generation 0 (.ok "g1".toList), .generation 1 (.ok "g2".toList), .start 0 true,
        .start 1 true] = some index ∧
      (index.threads.filter (·.2 = unindexed.database)).length = 2) ∧
    (∃ between index, Machine.run step .new [.arm unindexed, .arm unindexed, .last 0, .last 1,
        .generation 0 (.error "no HEAD".toList), .generation 1 (.ok "g2".toList), .record 0] =
          some between ∧
      Refused between unindexed.database ∧ step between (.start 1 true) = some index ∧
      index.startedOf unindexed.database ≠ between.startedOf unindexed.database) :=
  ⟨⟨_, rfl, by decide⟩, ⟨_, _, rfl, ⟨_, rfl, rfl⟩, rfl, by decide⟩⟩

/-- Two armings of one generation that race: the second one finds the first. -/
theorem autoIndex_refreshes_once_racers :
    let labels : List Label := [.arm unindexed, .arm unindexed, .last 0, .last 1,
      .generation 0 (.ok "g1".toList), .generation 1 (.ok "g1".toList), .start 0 true, .start 1 true]
    ∃ index, Machine.run step .new labels = some index ∧
      (index.threads.filter (·.2 = unindexed.database)).length ≤ 1 := by
  intro labels
  have hclear : ClearRun labels := by
    rintro before label after between hlabels hbetween id starts session generation rfl harming run hrun
    have htake : before = labels.take before.length := by rw [hlabels, List.take_left]
    have hlabel : labels[before.length]? = some (.start id starts) := by simp [hlabels]
    have hlength : before.length < 8 := (List.getElem?_eq_some_iff.mp hlabel).1
    generalize before.length = length at htake hlabel hlength
    subst htake
    interval_cases length <;> cases hlabel
    · cases hbetween
      cases hrun
    · cases hbetween
      cases harming
      cases hrun
      exact .inl rfl
  have hrun : ∃ index, Machine.run step .new labels = some index := ⟨_, rfl⟩
  obtain ⟨index, hindex⟩ := hrun
  exact ⟨index, hindex, (autoIndex_refreshes_once labels index hindex hclear).1 _⟩

end Agentless.Mcp
