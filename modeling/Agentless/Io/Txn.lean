import Agentless.Library.Text

/-!
# The repository write

Every file of a patch is written, or the tree is left as it was. Each new content goes to an
exclusively created sibling of its target, backup names are reserved the same way, and then each
target moves to its backup and its staged file into the target's place. A failed move restores
the completed targets from their backups, last first.

The file operations are the trait `Steps`. `disk` is its model over a store of files, in which
the operating system may refuse any call.
-/

namespace Agentless.Io.Txn

open Std

variable {W Path Refusal : Type}

/-- A temporary sibling that could not be removed. -/
structure Leftover (Path : Type) where
  path : Path
  reason : Text
deriving DecidableEq, Repr

inductive WriteError (Path Refusal : Type) where
  | refused (refusal : Refusal)
  | stage (path : Text) (reason : Text)
  | reserve (reason : Text)
  | restored (name : Text) (reason : Text)
  | partlyApplied (name : Text) (reason : Text) (retained : List Path)
deriving DecidableEq, Repr

structure WriteFailure (Path Refusal : Type) where
  error : WriteError Path Refusal
  leftovers : List (Leftover Path)
deriving DecidableEq, Repr

/-- The file operations of the write. Each takes the world and returns it changed. -/
structure Steps (W Path : Type) where
  stage : Path → Bytes → W → Except Text Path × W
  reserve : Path → W → Except Text Path × W
  rename : Path → Path → W → Except Text Unit × W
  remove : Path → W → Except Text Unit × W

/-- What the base directory makes of a path, and the last component of a resolved one. No step
of the write makes a symbolic link, so a path resolves to one place throughout. -/
structure Base (Path Refusal : Type) where
  containedPath : Text → Except Refusal Path
  fileName : Path → Option Text

structure Staged (Path : Type) where
  staging : Path
  target : Path
deriving DecidableEq, Repr

section Write

variable [DecidableEq Path] (steps : Steps W Path) (base : Base Path Refusal)

/-- Removes temporary siblings that will never move into place, and returns each that stays. -/
def discard : List Path → W → List (Leftover Path) × W
  | [], w => ([], w)
  | path :: paths, w =>
    match steps.remove path w with
    | (.ok (), w) => discard paths w
    | (.error reason, w) =>
      let (leftovers, w) := discard paths w
      (⟨path, reason⟩ :: leftovers, w)

def discardStaged (staged : List (Staged Path)) (w : W) : List (Leftover Path) × W :=
  discard steps (staged.map (·.staging)) w

def stageOne (path : Text) (target : Path) (bytes : Bytes) (w : W) :
    Except (WriteError Path Refusal) (Staged Path) × W :=
  match steps.stage target bytes w with
  | (.ok staging, w) => (.ok ⟨staging, target⟩, w)
  | (.error reason, w) => (.error (.stage path reason), w)

/-- A path of the patch resolved inside the base and staged. -/
def stagePath (path : Text) (bytes : Bytes) (w : W) :
    Except (WriteError Path Refusal) (Staged Path) × W :=
  match base.containedPath path with
  | .error refusal => (.error (.refused refusal), w)
  | .ok target => stageOne steps path target bytes w

def stageFrom : List (Text × Bytes) → List (Staged Path) → W →
    Except (WriteFailure Path Refusal) (List (Staged Path)) × W
  | [], staged, w => (.ok staged, w)
  | (path, bytes) :: files, staged, w =>
    match stagePath steps base path bytes w with
    | (.ok one, w) => stageFrom files (staged ++ [one]) w
    | (.error error, w) =>
      let (leftovers, w) := discardStaged steps staged w
      (.error ⟨error, leftovers⟩, w)

def stageAll (files : List (Text × Bytes)) (w : W) :
    Except (WriteFailure Path Refusal) (List (Staged Path)) × W :=
  stageFrom steps base files [] w

def reserveFrom (staged : List (Staged Path)) : List (Staged Path) → List Path → W →
    Except (WriteFailure Path Refusal) (List Path) × W
  | [], backups, w => (.ok backups, w)
  | one :: rest, backups, w =>
    match steps.reserve one.target w with
    | (.ok backup, w) => reserveFrom staged rest (backups ++ [backup]) w
    | (.error reason, w) =>
      let (left, w) := discardStaged steps staged w
      let (more, w) := discard steps backups w
      (.error ⟨.reserve reason, left ++ more⟩, w)

def reserveAll (staged : List (Staged Path)) (w : W) :
    Except (WriteFailure Path Refusal) (List Path) × W :=
  reserveFrom steps staged staged [] w

/-- Moves each backup of `pairs` back to its target, and returns the backups that could not
move. -/
def restore : List (Path × Path) → W → List Path × W
  | [], w => ([], w)
  | (backup, target) :: pairs, w =>
    match steps.rename backup target w with
    | (.ok (), w) => restore pairs w
    | (.error _, w) =>
      let (retained, w) := restore pairs w
      (backup :: retained, w)

/-- The restore runs last first. -/
def rollBack (completed : List (Path × Path)) (w : W) : List Path × W :=
  restore steps completed.reverse w

def undo (staged : List (Staged Path)) (backups : List Path) (completed : List (Path × Path))
    (position : Nat) (reason : Text) (w : W) : WriteFailure Path Refusal × W :=
  let (retained, w) := rollBack steps completed w
  let (left, w) := discardStaged steps (staged.drop position) w
  let moved := completed.map (·.1)
  let unused := backups.filter (fun backup => backup ∉ moved)
  let (more, w) := discard steps unused w
  let name := (staged[position]?.bind (fun one => base.fileName one.target)).getD []
  let error := if retained.isEmpty then .restored name reason
    else .partlyApplied name reason retained
  (⟨error, left ++ more⟩, w)

/-- The moves from `position` on. `completed` holds the backup and the target of each first move
made so far. -/
def replaceFrom (staged : List (Staged Path)) (backups : List Path) :
    List (Staged Path × Path) → Nat → List (Path × Path) → W →
    Except (WriteFailure Path Refusal) Unit × W
  | [], _, _, w => (.ok (), w)
  | (one, backup) :: rest, position, completed, w =>
    match steps.rename one.target backup w with
    | (.error reason, w) =>
      let (failure, w) := undo steps base staged backups completed position reason w
      (.error failure, w)
    | (.ok (), w) =>
      let completed := completed ++ [(backup, one.target)]
      match steps.rename one.staging one.target w with
      | (.error reason, w) =>
        let (failure, w) := undo steps base staged backups completed position reason w
        (.error failure, w)
      | (.ok (), w) => replaceFrom staged backups rest (position + 1) completed w

def replaceAll (staged : List (Staged Path)) (backups : List Path) (w : W) :
    Except (WriteFailure Path Refusal) Unit × W :=
  replaceFrom steps base staged backups (staged.zip backups) 0 [] w

/-- The files to write, in path order. A later pair for a path replaces an earlier one. -/
def fileMap (contents : List (Text × Bytes)) : List (Text × Bytes) :=
  (TreeMap.ofList contents compare).toList

def writeWith (contents : List (Text × Bytes)) (w : W) :
    Except (WriteFailure Path Refusal) (List (Leftover Path)) × W :=
  match stageAll steps base (fileMap contents) w with
  | (.error failure, w) => (.error failure, w)
  | (.ok staged, w) =>
    match reserveAll steps staged w with
    | (.error failure, w) => (.error failure, w)
    | (.ok backups, w) =>
      match replaceAll steps base staged backups w with
      | (.error failure, w) => (.error failure, w)
      | (.ok (), w) =>
        let (leftovers, w) := discard steps backups w
        (.ok leftovers, w)

end Write

theorem mem_fileMap {contents : List (Text × Bytes)} {path : Text} :
    path ∈ (fileMap contents).map Prod.fst ↔ path ∈ contents.map Prod.fst := by
  rw [fileMap, TreeMap.map_fst_toList_eq_keys, TreeMap.mem_keys, TreeMap.mem_ofList,
    List.contains_iff_mem]

/-! ## The disk -/

/-- A store of files and the behaviour of the operating system: the reason with which it refuses
the `n`-th call, if it does, and the sibling name that the `n`-th call draws. -/
structure World (Path : Type) where
  store : Path → Option Bytes
  calls : Nat
  refuses : Nat → Option Text
  sibling : Nat → Path

section Disk

variable [DecidableEq Path]

/-- One call. A refused call, and one whose `effect` finds the store unfit, changes no file. -/
def World.call {α : Type} (w : World Path)
    (effect : (Path → Option Bytes) → Except Text (α × (Path → Option Bytes))) :
    Except Text α × World Path :=
  let next := { w with calls := w.calls + 1 }
  match w.refuses w.calls with
  | some reason => (.error reason, next)
  | none =>
    match effect w.store with
    | .error reason => (.error reason, next)
    | .ok (a, store) => (.ok a, { next with store := store })

def missing : Text := "No such file or directory".toList

def taken : Text := "No usable temporary file name found".toList

/-- The exclusive creation of `path`: an existing file is never opened. -/
def createNamed (path : Path) (bytes : Bytes) (store : Path → Option Bytes) :
    Except Text (Path × (Path → Option Bytes)) :=
  if (store path).isSome then .error taken
  else .ok (path, Function.update store path (some bytes))

def disk : Steps (World Path) Path where
  -- The staged file takes the target's mode, so a missing target is a failure.
  stage target bytes w := w.call fun store =>
    if (store target).isNone then .error missing
    else createNamed (w.sibling w.calls) bytes store
  reserve _ w := w.call fun store => createNamed (w.sibling w.calls) [] store
  rename source target w := w.call fun store =>
    match store source with
    | none => .error missing
    | some bytes => .ok ((), Function.update (Function.update store source none) target bytes)
  -- A missing file is no error.
  remove path w := w.call fun store => .ok ((), Function.update store path none)

end Disk

end Agentless.Io.Txn
