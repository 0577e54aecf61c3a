import Agentless.Library.Fallible
import Agentless.Library.Machine
import Agentless.Text.CodePointString
import Agentless.Text.Word

/-!
# The roots file

A call reads the roots of a file again when its modification time or its size changed. It stats the
file, and where the key is another it stats and reads the file for the new list. The steps of many
calls and the writes of the file come in any order, so the key that is kept can belong to an older
version of the file than the list beside it, and never to a newer one.
-/

namespace Agentless.Mcp.Roots

open Machine

/-- The modification time in nanoseconds and the size. -/
abbrev Key := Int × Nat

structure Version where
  key : Key
  content : Bytes
deriving DecidableEq, Repr

/-- The roots the file held when last read, and the key it was read at. -/
structure Listed (Root : Type) where
  roots : List Root
  key : Key
deriving DecidableEq, Repr

inductive Failure where
  | refused (message : Text)
  | unplanned (message : Text)
deriving DecidableEq, Repr

/-! ## Reading -/

def bom : Bytes := [0xef, 0xbb, 0xbf]

/-- Each `\r\n` and each lone `\r` read as `\n`. -/
def lineFeeds : Text → Text
  | '\r' :: '\n' :: rest => '\n' :: lineFeeds rest
  | c :: rest => (if c = '\r' then '\n' else c) :: lineFeeds rest
  | [] => []

/-- The lines that name a root: each stripped, with blank and `#` comment lines left out. -/
def rootLines (text : Text) : List Text :=
  ((Text.splitlines text false).map Text.strip).filter fun line =>
    line ≠ [] ∧ line.head? ≠ some '#'

section Reading

variable {Root : Type} (shown : Text) (codecText : Bytes → Text)

def refusal (error : Text) : Failure :=
  .refused ("roots file ".toList ++ shown ++ " cannot be read: ".toList ++ error ++
    ". Refusing rather than serving the stale copy; restore the file, ".toList ++
    "or restart the server without --roots-from.".toList)

/-- The roots of a content, where `resolved` makes a root absolute. -/
def rootsOf (resolved : Text → Except Text Root) (content : Bytes) : Except Failure (List Root) :=
  let body := if bom.isPrefixOf content then content.drop bom.length else content
  match (CodePointString.mk body).asStr with
  | none => .error (refusal shown (codecText body))
  | some text => ((rootLines (lineFeeds text)).mapM resolved).mapError .unplanned

end Reading

/-! ## Calls -/

/-- What a call is at: it waits for the lock, is about to compare the key, is about to stat the file
that changed or to read it, or is over with the number of versions that the file had had by then. -/
inductive Phase (Root : Type) where
  | waiting
  | comparing
  | stating
  | reading (key : Key)
  | returned (roots : List Root) (versions : Nat)
  | failed (failure : Failure)
deriving DecidableEq, Repr

/-- A call and the number of versions that the file had had when it began. -/
structure Call (Root : Type) where
  versions : Nat
  phase : Phase Root
deriving DecidableEq, Repr

/-- The versions of the file with the current one last, what is kept of it, the call that holds the
lock, and the calls. -/
structure System (Root : Type) where
  versions : List Version
  listed : Listed Root
  holder : Option Nat
  calls : List (Call Root)
deriving DecidableEq, Repr

/-- A write, or a step of a call. A stat or a read may fail with an error of the operating system. A
read resolves the roots with the links of the file system as they are then. -/
inductive Step (Links : Type) where
  | write (version : Version)
  | begin
  | lock (call : Nat)
  | stat (call : Nat) (error : Option Text)
  | read (call : Nat) (error : Option Text) (links : Links)

section Model

variable {Root Links : Type} (shown : Text) (codecText : Bytes → Text)
  (resolved : Links → Text → Except Text Root)

namespace System

variable (system : System Root)

def enter (call : Nat) (phase : Phase Root) : System Root :=
  { system with calls := system.calls.modify call fun now => { now with phase := phase } }

/-- The call is over and the lock free. -/
def leave (call : Nat) (phase : Phase Root) : System Root :=
  { system.enter call phase with holder := none }

/-- The stat that compares returns the list that is kept while the key holds. The other stat gives
the key of the list to read. -/
def stat (call : Nat) (error : Option Text) : Option (System Root) := do
  let version ← system.versions.getLast?
  match (← system.calls[call]?).phase, error with
  | .comparing, some error => system.leave call (.failed (refusal shown error))
  | .comparing, none =>
    if version.key = system.listed.key then
      system.leave call (.returned system.listed.roots system.versions.length)
    else system.enter call .stating
  | .stating, some error => system.leave call (.failed (refusal shown error))
  | .stating, none => system.enter call (.reading version.key)
  | _, _ => none

def read (call : Nat) (error : Option Text) (links : Links) : Option (System Root) := do
  let version ← system.versions.getLast?
  match (← system.calls[call]?).phase, error with
  | .reading _, some error => system.leave call (.failed (refusal shown error))
  | .reading key, none =>
    match rootsOf shown codecText (resolved links) version.content with
    | .error failure => system.leave call (.failed failure)
    | .ok roots =>
      let left := system.leave call (.returned roots system.versions.length)
      some { left with listed := ⟨roots, key⟩ }
  | _, _ => none

def lock (call : Nat) : Option (System Root) := do
  match (← system.calls[call]?).phase with
  | .waiting =>
    let entered := system.enter call .comparing
    if system.holder = none then some { entered with holder := some call } else none
  | _ => none

def step : Step Links → Option (System Root)
  | .write version =>
    if version.key ∈ system.versions.map Version.key then none
    else some { system with versions := system.versions ++ [version] }
  | .begin => some { system with calls := system.calls ++ [⟨system.versions.length, .waiting⟩] }
  | .lock call => system.lock call
  | .stat call error => system.stat shown call error
  | .read call error links => system.read shown codecText resolved call error links

end System

/-- The read that the server starts with, once the file has had the versions `stated` at its stat and
`written` more at its read. A server whose file cannot be read is not started. -/
def startUp (stated written : List Version) (links : Links) : Option (System Root) := do
  let version ← stated.getLast?
  let current ← (stated ++ written).getLast?
  let roots ← (rootsOf shown codecText (resolved links) current.content).toOption
  some ⟨stated ++ written, ⟨roots, version.key⟩, none, []⟩

end Model

/-! ## Freshness -/

section Fresh

variable {Root Links : Type} {shown : Text} {codecText : Bytes → Text}
  {resolved : Links → Text → Except Text Root} {versions : List Version} {version : Version}
  {system system' : System Root}

section Between

variable (shown codecText resolved versions)

/-- The roots are those of a version that the file had between two moments, which are given by the
number of versions by then. -/
def ListedBetween (first last : Nat) (roots : List Root) : Prop :=
  ∃ index version links, first ≤ index + 1 ∧ index < last ∧ versions[index]? = some version ∧
    rootsOf shown codecText (resolved links) version.content = .ok roots

/-- A key that was read is that of a version, and a list that was returned is no older than the call
and no newer than its end. -/
def Call.Fresh (call : Call Root) : Prop :=
  call.versions ≤ versions.length ∧
    match call.phase with
    | .reading key => ∃ version ∈ versions, version.key = key
    | .returned roots last =>
      last ≤ versions.length ∧
        ListedBetween shown codecText resolved versions call.versions last roots
    | _ => True

/-- The list that is kept is no older than its key. -/
def Kept (listed : Listed Root) : Prop :=
  ∃ index version, versions[index]? = some version ∧ version.key = listed.key ∧
    ListedBetween shown codecText resolved versions (index + 1) versions.length listed.roots

variable (system)

structure Fresh : Prop where
  keys : (system.versions.map Version.key).Nodup
  kept : Kept shown codecText resolved system.versions system.listed
  calls : ∀ call ∈ system.calls, call.Fresh shown codecText resolved system.versions

end Between

theorem ListedBetween.mono {first last later : Nat} {roots : List Root}
    (h : ListedBetween shown codecText resolved versions first last roots) (hlast : last ≤ later) :
    ListedBetween shown codecText resolved versions first later roots := by
  obtain ⟨index, version, links, hfirst, hindex, hversion⟩ := h
  exact ⟨index, version, links, hfirst, hindex.trans_le hlast, hversion⟩

theorem ListedBetween.append {first last : Nat} {roots : List Root}
    (h : ListedBetween shown codecText resolved versions first last roots) :
    ListedBetween shown codecText resolved (versions ++ [version]) first last roots := by
  obtain ⟨index, old, links, hfirst, hindex, hold, hroots⟩ := h
  refine ⟨index, old, links, hfirst, hindex, ?_, hroots⟩
  rw [List.getElem?_append_left (List.getElem?_eq_some_iff.mp hold).1, hold]

/-- A list that is read now. -/
theorem listedBetween_last {first : Nat} {roots : List Root} {links : Links}
    (hlast : versions.getLast? = some version) (hfirst : first ≤ versions.length)
    (hroots : rootsOf shown codecText (resolved links) version.content = .ok roots) :
    ListedBetween shown codecText resolved versions first versions.length roots := by
  rw [List.getLast?_eq_getElem?] at hlast
  have hindex := (List.getElem?_eq_some_iff.mp hlast).1
  exact ⟨versions.length - 1, version, links, by omega, hindex, hlast, hroots⟩

theorem Kept.append {listed : Listed Root} (h : Kept shown codecText resolved versions listed) :
    Kept shown codecText resolved (versions ++ [version]) listed := by
  obtain ⟨index, old, hold, hkey, hlisted⟩ := h
  refine ⟨index, old, ?_, hkey, hlisted.append.mono (by simp)⟩
  rw [List.getElem?_append_left (List.getElem?_eq_some_iff.mp hold).1, hold]

theorem Kept.current {listed : Listed Root} {first : Nat}
    (h : Kept shown codecText resolved versions listed) (hkeys : (versions.map Version.key).Nodup)
    (hlast : versions.getLast? = some version) (hkey : version.key = listed.key)
    (hfirst : first ≤ versions.length) :
    ListedBetween shown codecText resolved versions first versions.length listed.roots := by
  obtain ⟨index, old, hold, holdKey, later, found, links, hlater, hlength, hfound⟩ := h
  obtain ⟨hindex, rfl⟩ := List.getElem?_eq_some_iff.mp hold
  rw [List.getLast?_eq_getElem?] at hlast
  obtain ⟨hend, rfl⟩ := List.getElem?_eq_some_iff.mp hlast
  have hsame : index = versions.length - 1 := by
    refine (@List.Nodup.getElem_inj_iff _ _ hkeys _ ?_ _ ?_).mp ?_
    · simpa using hindex
    · simpa using hend
    · simp [holdKey, hkey]
  exact ⟨later, found, links, by omega, hlength, hfound⟩

/-- The list of the start-up read is no older than its key. -/
theorem Fresh.startUp {stated written : List Version} {links : Links}
    (hkeys : ((stated ++ written).map Version.key).Nodup)
    (h : startUp shown codecText resolved stated written links = some system) :
    Fresh shown codecText resolved system := by
  obtain ⟨version, hversion, h⟩ := Option.bind_eq_some_iff.mp h
  obtain ⟨current, hcurrent, h⟩ := Option.bind_eq_some_iff.mp h
  obtain ⟨roots, hroots, h⟩ := Option.bind_eq_some_iff.mp h
  obtain rfl := Option.some.inj h
  rw [List.getLast?_eq_getElem?] at hversion
  have hstated := (List.getElem?_eq_some_iff.mp hversion).1
  have hold : (stated ++ written)[stated.length - 1]? = some version := by
    rw [List.getElem?_append_left hstated, hversion]
  refine ⟨hkeys, ⟨stated.length - 1, version, hold, rfl, ?_⟩, by simp⟩
  exact listedBetween_last hcurrent (by simp; omega) (Except.toOption_eq_some_iff.mp hroots)

theorem Call.Fresh.append {call : Call Root} (h : call.Fresh shown codecText resolved versions) :
    call.Fresh shown codecText resolved (versions ++ [version]) := by
  obtain ⟨hversions, hphase⟩ := h
  have hlength : versions.length ≤ (versions ++ [version]).length := by simp
  refine ⟨hversions.trans hlength, ?_⟩
  cases hcase : call.phase with
  | reading key =>
    rw [hcase] at hphase
    obtain ⟨old, hold, hkey⟩ := hphase
    exact ⟨old, List.mem_append_left _ hold, hkey⟩
  | returned roots last =>
    rw [hcase] at hphase
    exact ⟨hphase.1.trans hlength, hphase.2.append⟩
  | waiting => trivial
  | comparing => trivial
  | stating => trivial
  | failed failure => trivial

/-- A call that goes on keeps the others as they are. -/
theorem Fresh.enter {call : Nat} {phase : Phase Root} (h : Fresh shown codecText resolved system)
    (hcall : ∀ now, system.calls[call]? = some now →
      Call.Fresh shown codecText resolved system.versions { now with phase := phase }) :
    Fresh shown codecText resolved (system.enter call phase) := by
  refine ⟨h.keys, h.kept, fun now hnow => ?_⟩
  obtain ⟨index, hindex⟩ := List.mem_iff_getElem?.mp hnow
  simp only [System.enter, List.getElem?_modify] at hindex
  obtain ⟨old, hold, rfl⟩ := Option.map_eq_some_iff.mp hindex
  split_ifs with hsame
  · exact hcall old (hsame ▸ hold)
  · exact h.calls old (List.mem_of_getElem? hold)

theorem Fresh.leave {call : Nat} {phase : Phase Root} (h : Fresh shown codecText resolved system)
    (hcall : ∀ now, system.calls[call]? = some now →
      Call.Fresh shown codecText resolved system.versions { now with phase := phase }) :
    Fresh shown codecText resolved (system.leave call phase) := by
  have hentered := h.enter hcall
  exact ⟨hentered.keys, hentered.kept, hentered.calls⟩

theorem Fresh.stat {call : Nat} {error : Option Text} (h : Fresh shown codecText resolved system)
    (hstep : system.stat shown call error = some system') :
    Fresh shown codecText resolved system' := by
  obtain ⟨version, hlast, hstep⟩ := Option.bind_eq_some_iff.mp hstep
  obtain ⟨now, hnow, hstep⟩ := Option.bind_eq_some_iff.mp hstep
  have hversions := (h.calls now (List.mem_of_getElem? hnow)).1
  have hbegan : ∀ found, system.calls[call]? = some found →
      found.versions ≤ system.versions.length := fun found hfound =>
    (h.calls found (List.mem_of_getElem? hfound)).1
  cases hphase : now.phase with
  | comparing =>
    cases error with
    | some error =>
      obtain rfl := Option.some.inj (by simpa [hphase] using hstep)
      exact h.leave fun found hfound => ⟨hbegan found hfound, trivial⟩
    | none =>
      by_cases hkey : version.key = system.listed.key
      · obtain rfl := Option.some.inj (by simpa [hphase, hkey] using hstep)
        exact h.leave fun found hfound =>
          ⟨hbegan found hfound, le_refl _, h.kept.current h.keys hlast hkey (hbegan found hfound)⟩
      · obtain rfl := Option.some.inj (by simpa [hphase, hkey] using hstep)
        exact h.enter fun found hfound => ⟨hbegan found hfound, trivial⟩
  | stating =>
    cases error with
    | some error =>
      obtain rfl := Option.some.inj (by simpa [hphase] using hstep)
      exact h.leave fun found hfound => ⟨hbegan found hfound, trivial⟩
    | none =>
      obtain rfl := Option.some.inj (by simpa [hphase] using hstep)
      exact h.enter fun found hfound =>
        ⟨hbegan found hfound, version, List.mem_of_getLast? hlast, rfl⟩
  | waiting => simp [hphase] at hstep
  | reading key => simp [hphase] at hstep
  | returned roots last => simp [hphase] at hstep
  | failed failure => simp [hphase] at hstep

theorem Fresh.read {call : Nat} {error : Option Text} {links : Links}
    (h : Fresh shown codecText resolved system)
    (hstep : system.read shown codecText resolved call error links = some system') :
    Fresh shown codecText resolved system' := by
  obtain ⟨version, hlast, hstep⟩ := Option.bind_eq_some_iff.mp hstep
  obtain ⟨now, hnow, hstep⟩ := Option.bind_eq_some_iff.mp hstep
  have hbegan : ∀ found, system.calls[call]? = some found →
      found.versions ≤ system.versions.length := fun found hfound =>
    (h.calls found (List.mem_of_getElem? hfound)).1
  cases hphase : now.phase with
  | reading key =>
    cases error with
    | some error =>
      obtain rfl := Option.some.inj (by simpa [hphase] using hstep)
      exact h.leave fun found hfound => ⟨hbegan found hfound, trivial⟩
    | none =>
      cases hroots : rootsOf shown codecText (resolved links) version.content with
      | error failure =>
        obtain rfl := Option.some.inj (by simpa [hphase, hroots] using hstep)
        exact h.leave fun found hfound => ⟨hbegan found hfound, trivial⟩
      | ok roots =>
        obtain rfl := Option.some.inj (by simpa [hphase, hroots] using hstep)
        have hleft : Fresh shown codecText resolved
            (system.leave call (.returned roots system.versions.length)) :=
          h.leave fun found hfound =>
            ⟨hbegan found hfound, le_refl _, listedBetween_last hlast (hbegan found hfound) hroots⟩
        -- the key was read before the list, so it is that of a version no newer than the last
        obtain ⟨-, hread⟩ := h.calls now (List.mem_of_getElem? hnow)
        rw [hphase] at hread
        obtain ⟨old, hold, hkey⟩ := hread
        obtain ⟨index, hindex⟩ := List.mem_iff_getElem?.mp hold
        have hle := (List.getElem?_eq_some_iff.mp hindex).1
        exact ⟨hleft.keys, ⟨index, old, hindex, hkey, listedBetween_last hlast hle hroots⟩,
          hleft.calls⟩
  | waiting => simp [hphase] at hstep
  | comparing => simp [hphase] at hstep
  | stating => simp [hphase] at hstep
  | returned roots last => simp [hphase] at hstep
  | failed failure => simp [hphase] at hstep

theorem Fresh.lock {call : Nat} (h : Fresh shown codecText resolved system)
    (hstep : system.lock call = some system') : Fresh shown codecText resolved system' := by
  obtain ⟨now, hnow, hstep⟩ := Option.bind_eq_some_iff.mp hstep
  cases hphase : now.phase with
  | waiting =>
    by_cases hfree : system.holder = none
    · obtain rfl := Option.some.inj (by simpa [hphase, hfree] using hstep)
      have hentered : Fresh shown codecText resolved (system.enter call .comparing) :=
        h.enter fun found hfound => ⟨(h.calls found (List.mem_of_getElem? hfound)).1, trivial⟩
      exact ⟨hentered.keys, hentered.kept, hentered.calls⟩
    · simp [hphase, hfree] at hstep
  | comparing => simp [hphase] at hstep
  | stating => simp [hphase] at hstep
  | reading key => simp [hphase] at hstep
  | returned roots last => simp [hphase] at hstep
  | failed failure => simp [hphase] at hstep

theorem Fresh.step {label : Step Links} (h : Fresh shown codecText resolved system)
    (hstep : system.step shown codecText resolved label = some system') :
    Fresh shown codecText resolved system' := by
  cases label with
  | write version =>
    by_cases hold : version.key ∈ system.versions.map Version.key
    · simp [System.step, hold] at hstep
    · obtain rfl := Option.some.inj (by simpa [System.step, hold] using hstep)
      refine ⟨?_, h.kept.append, fun call hcall => (h.calls call hcall).append⟩
      rw [List.map_append, List.map_singleton, ← List.concat_eq_append]
      exact h.keys.concat hold
  | begin =>
    obtain rfl := Option.some.inj hstep
    refine ⟨h.keys, h.kept, fun call hcall => ?_⟩
    rcases List.mem_append.mp hcall with hcall | hcall
    · exact h.calls call hcall
    · obtain rfl := List.mem_singleton.mp hcall
      exact ⟨le_refl _, trivial⟩
  | lock call => exact h.lock hstep
  | stat call error => exact h.stat hstep
  | read call error links => exact h.read hstep

/-- After the start-up read and any order of writes and steps of calls, each list that a call returned
is that of a content that the file had between the call's begin and its end. -/
theorem roots_never_stale {stated written : List Version} {startLinks : Links}
    {steps : List (Step Links)} (hkeys : ((stated ++ written).map Version.key).Nodup)
    (hstarted : startUp shown codecText resolved stated written startLinks = some system)
    (hrun : run (System.step shown codecText resolved) system steps = some system')
    {call : Call Root} (hcall : call ∈ system'.calls) {roots : List Root} {last : Nat}
    (hreturned : call.phase = .returned roots last) :
    last ≤ system'.versions.length ∧
      ListedBetween shown codecText resolved system'.versions call.versions last roots := by
  have hfresh : Fresh shown codecText resolved system' := by
    refine run_induction (fun _ state => Fresh shown codecText resolved state) ?_ ?_ hrun
    · exact .startUp hkeys hstarted
    · intro _ between label after _ hbetween hstep
      exact hbetween.step hstep
  obtain ⟨-, hphase⟩ := hfresh.calls call hcall
  rw [hreturned] at hphase
  exact hphase

end Fresh

/-! ## A write between the stat and the read -/

namespace Between

theorem read_roots {system : System Text} {call : Nat} {version : Version} {key : Key}
    {now : Call Text} {roots : List Text} {resolved : Unit → Text → Except Text Text}
    (hlast : system.versions.getLast? = some version) (hnow : system.calls[call]? = some now)
    (hphase : now.phase = .reading key)
    (hroots : rootsOf [] (fun _ => []) (resolved ()) version.content = .ok roots) :
    system.read [] (fun _ => []) resolved call none () =
      some { system.leave call (.returned roots system.versions.length) with
        listed := ⟨roots, key⟩ } := by
  simp [System.read, hlast, hnow, hphase, hroots]

theorem rootsOf_utf8 {shown : Text} {codecText : Bytes → Text}
    {resolved : Text → Except Text Text} {text : Text} (h : ¬ bom.isPrefixOf (utf8 text)) :
    rootsOf shown codecText resolved (utf8 text) =
      ((rootLines (lineFeeds text)).mapM resolved).mapError .unplanned := by
  have htext : (CodePointString.mk (utf8 text)).asStr = some text :=
    CodePointString.asStr_eq_some_iff.mpr rfl
  rw [rootsOf, if_neg h, htext]

def resolved (_ : Unit) (root : Text) : Except Text Text := .ok root

def version (time : Int) (root : Char) : Version := ⟨(time, 2), utf8 ['/', root]⟩

def started : System Text := ⟨[version 1 'a'], ⟨["/a".toList], (1, 2)⟩, none, []⟩

/-- The steps up to the read of the list. -/
def steps : List (Step Unit) :=
  [.begin, .lock 0, .write (version 2 'b'), .stat 0 none, .stat 0 none, .write (version 3 'c')]

def stated : System Text :=
  ⟨[version 1 'a', version 2 'b', version 3 'c'], ⟨["/a".toList], (1, 2)⟩, some 0,
    [⟨1, .reading (2, 2)⟩]⟩

/-- What is kept has the key of one version and the list of the next. -/
def ended : System Text :=
  ⟨[version 1 'a', version 2 'b', version 3 'c'], ⟨["/c".toList], (2, 2)⟩, none,
    [⟨1, .returned ["/c".toList] 3⟩]⟩

theorem rootsOf_version {time : Int} {root : Char} (h : root ∈ ['a', 'c']) :
    rootsOf [] (fun _ => []) (resolved ()) (version time root).content = .ok [['/', root]] := by
  rw [version, rootsOf_utf8]
  · fin_cases h <;> rfl
  · fin_cases h <;> decide

theorem run_steps :
    run (System.step [] (fun _ => []) resolved) started (steps ++ [.read 0 none ()]) =
      some ended := by
  refine run_append_eq_some_iff.mpr ⟨stated, rfl, ?_⟩
  have hread : rootsOf [] (fun _ => []) (resolved ()) (version 3 'c').content =
      .ok ["/c".toList] := rootsOf_version (by decide)
  rw [run_singleton]
  exact @read_roots stated 0 (version 3 'c') (2, 2) ⟨1, .reading (2, 2)⟩ _ _ rfl rfl rfl hread

theorem startUp_started : startUp [] (fun _ => []) resolved [version 1 'a'] [] () = some started := by
  have hroots : rootsOf [] (fun _ => []) (resolved ()) (version 1 'a').content = .ok ["/a".toList] :=
    rootsOf_version (by decide)
  have hread : (rootsOf [] (fun _ => []) (resolved ()) (version 1 'a').content).toOption =
      some ["/a".toList] := Except.toOption_eq_some_iff.mpr hroots
  change ((rootsOf [] (fun _ => []) (resolved ()) (version 1 'a').content).toOption.bind fun roots =>
    some (⟨[version 1 'a'], ⟨roots, (1, 2)⟩, none, []⟩ : System Text)) = some started
  rw [hread]
  rfl

theorem roots_never_stale_between :
    ListedBetween [] (fun _ => []) resolved ended.versions 1 3 ["/c".toList] :=
  (roots_never_stale (by decide) startUp_started run_steps (List.mem_singleton.mpr rfl) rfl).2

end Between

end Agentless.Mcp.Roots
