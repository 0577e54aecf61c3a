import Agentless.Facts.LocsExact
import Agentless.Library.Assoc
import Agentless.Patch.BlocksExact

/-!
# Commit activity of files

The log names the newest commit first: a line with its time behind a NUL, then the files that it
touched. The reader counts the commits of each file that was asked for and keeps the time of the
newest.
-/

namespace Agentless.Git

open Agentless.Text
open Agentless.Patch.Blocks (strip_eq_self)
open Agentless.Facts (isSpace_of_isDigit isSpace_of_isLineBreak)

structure Churn where
  commits : Nat
  lastCommitTs : Option Nat
deriving DecidableEq, Repr

/-- A time in ASCII digits that fits in 64 bits with a sign. -/
def commitTime (digits : Text) : Option Nat :=
  if !digits.isEmpty && digits.all Char.isDigit &&
      decide (Nat.ofDigitChars 10 digits 0 < 2 ^ 63) then
    some (Nat.ofDigitChars 10 digits 0)
  else none

def Churn.add (time : Nat) (churn : Churn) : Churn :=
  ⟨churn.commits + 1, some (churn.lastCommitTs.getD time)⟩

/-- Counts a commit for a path, if the path was asked for. -/
def touch (time : Nat) (counts : List (Text × Churn)) (path : Text) : List (Text × Churn) :=
  counts.map fun entry => if entry.1 = path then (entry.1, entry.2.add time) else entry

/-- Reads a line of the log: the time of a commit, or a file of the last one. -/
def tallyLine (state : Option Nat × List (Text × Churn)) (raw : Text) :
    Option Nat × List (Text × Churn) :=
  let line := strip raw
  if line.isEmpty then state
  else if line.head? = some '\x00' then (commitTime line.tail, state.2)
  else (state.1, state.1.elim state.2 fun time => touch time state.2 line)

/-- The churn of each path that was asked for. -/
def tally (log : Text) (paths : List Text) : List (Text × Churn) :=
  ((splitlines log false).foldl tallyLine (none, paths.map fun path => (path, ⟨0, none⟩))).2

/-! ## The log that git writes -/

/-- A path that the log prints, as it stands, as a line of its own. -/
structure Listed (path : Text) : Prop where
  ne_nil : path ≠ []
  unbroken : ∀ c ∈ path, isLineBreak c = false
  starts : ∀ c ∈ path.head?, isSpace c = false ∧ c ≠ '\x00'
  ends : ∀ c ∈ path.getLast?, isSpace c = false

/-- A commit with the files that it touched, each once. -/
structure Logged where
  time : Nat
  paths : List Text
  fits : time < 2 ^ 63
  nodup : paths.Nodup
  listed : ∀ path ∈ paths, Listed path

def Logged.lines (commit : Logged) : List Text :=
  ('\x00' :: Nat.toDigits 10 commit.time) :: [] :: commit.paths

/-- The log of some commits. -/
def written (commits : List Logged) : Text := joinLines (commits.flatMap Logged.lines)

theorem listed_sample : Listed "src/a.py".toList ∧ Listed "b c.py".toList := by
  constructor <;>
    exact ⟨by simp, by simp [isLineBreak], by simp [isSpace], by simp [isSpace]⟩

/-- Two commits, of which the older touched one file of the newer. -/
def Logged.sample : List Logged :=
  [⟨1700000100, ["src/a.py".toList, "b c.py".toList], by decide, by decide,
      by simpa using listed_sample⟩,
    ⟨1700000000, ["src/a.py".toList], by decide, by decide, by simpa using listed_sample.1⟩]

theorem lookup_touch (time : Nat) (counts : List (Text × Churn)) (path other : Text) :
    (touch time counts path).lookup other =
      if other = path then (counts.lookup other).map (Churn.add time) else counts.lookup other := by
  induction counts with
  | nil => simp [touch]
  | cons entry counts ih =>
    rw [touch] at ih
    rw [touch, List.map_cons, Assoc.lookup_cons_eq, Assoc.lookup_cons_eq, ih]
    by_cases hentry : entry.1 = path
    · rw [if_pos hentry]
      rw [hentry]
      by_cases hother : other = path <;> simp [hother]
    · rw [if_neg hentry]
      by_cases hother : other = entry.1
      · simp [hother, hentry]
      · simp [hother]

/-- A commit counts once for each file that it touched, and for no other. -/
theorem lookup_foldl_touch (time : Nat) {paths : List Text} (hnodup : paths.Nodup)
    (counts : List (Text × Churn)) (other : Text) :
    (paths.foldl (touch time) counts).lookup other =
      if other ∈ paths then (counts.lookup other).map (Churn.add time)
      else counts.lookup other := by
  induction paths generalizing counts with
  | nil => simp
  | cons path paths ih =>
    obtain ⟨hpath, hpaths⟩ := List.nodup_cons.mp hnodup
    rw [List.foldl_cons, ih hpaths, lookup_touch]
    by_cases hother : other = path
    · subst hother
      simp [hpath]
    · simp [hother]

theorem commitTime_toDigits {time : Nat} (h : time < 2 ^ 63) :
    commitTime (Nat.toDigits 10 time) = some time := by
  have hdigits : (Nat.toDigits 10 time).all Char.isDigit = true :=
    List.all_eq_true.mpr fun c hc => Nat.isDigit_of_mem_toDigits (by decide) (by decide) hc
  have hne : (Nat.toDigits 10 time).isEmpty = false := by
    simp [Nat.toDigits_ne_nil]
  rw [commitTime, Nat.ofDigitChars_ten_toDigits, if_pos (by simp only [hne, hdigits, h]; rfl)]

/-- A time and a path are read as they stand. -/
theorem strip_stamp (time : Nat) :
    strip ('\x00' :: Nat.toDigits 10 time) = '\x00' :: Nat.toDigits 10 time := by
  refine strip_eq_self (by rintro _ ⟨⟩; decide) fun c hc => ?_
  rw [List.getLast?_cons_of_ne_nil Nat.toDigits_ne_nil] at hc
  exact isSpace_of_isDigit
    (Nat.isDigit_of_mem_toDigits (by decide) (by decide) (List.mem_of_getLast? hc))

theorem tallyLine_stamp {time : Nat} (h : time < 2 ^ 63)
    (state : Option Nat × List (Text × Churn)) :
    tallyLine state ('\x00' :: Nat.toDigits 10 time) = (some time, state.2) := by
  simp [tallyLine, strip_stamp, commitTime_toDigits h]

theorem tallyLine_nil (state : Option Nat × List (Text × Churn)) : tallyLine state [] = state := by
  simp [tallyLine, strip, trimEnd]

theorem tallyLine_path {path : Text} (h : Listed path) (time : Nat) (counts : List (Text × Churn)) :
    tallyLine (some time, counts) path = (some time, touch time counts path) := by
  have hstrip : strip path = path := strip_eq_self (fun c hc => (h.starts c hc).1) h.ends
  have hhead : path.head? ≠ some '\x00' := fun hhead => (h.starts _ hhead).2 rfl
  have hne : path.isEmpty = false := by simpa using h.ne_nil
  simp [tallyLine, hstrip, hne, hhead]

theorem foldl_tallyLine_paths {paths : List Text} (h : ∀ path ∈ paths, Listed path) (time : Nat)
    (counts : List (Text × Churn)) :
    paths.foldl tallyLine (some time, counts) = (some time, paths.foldl (touch time) counts) := by
  induction paths generalizing counts with
  | nil => rfl
  | cons path paths ih =>
    obtain ⟨hpath, hpaths⟩ := List.forall_mem_cons.mp h
    rw [List.foldl_cons, tallyLine_path hpath, ih hpaths, List.foldl_cons]

theorem foldl_tallyLine_lines (commit : Logged) (state : Option Nat × List (Text × Churn)) :
    commit.lines.foldl tallyLine state =
      (some commit.time, commit.paths.foldl (touch commit.time) state.2) := by
  rw [Logged.lines, List.foldl_cons, List.foldl_cons, tallyLine_stamp commit.fits, tallyLine_nil,
    foldl_tallyLine_paths commit.listed]

/-- What the commits of a log make of the churn of a path. -/
theorem lookup_foldl_lines (commits : List Logged) (state : Option Nat × List (Text × Churn))
    (path : Text) :
    ((commits.flatMap Logged.lines).foldl tallyLine state).2.lookup path =
      (state.2.lookup path).map fun churn =>
        ⟨churn.commits + (commits.filter (path ∈ ·.paths)).length,
          churn.lastCommitTs.or ((commits.find? (path ∈ ·.paths)).map Logged.time)⟩ := by
  induction commits generalizing state with
  | nil => simp
  | cons commit commits ih =>
    rw [List.flatMap_cons, List.foldl_append, foldl_tallyLine_lines, ih,
      lookup_foldl_touch _ commit.nodup]
    by_cases hpath : path ∈ commit.paths
    · rw [if_pos hpath, Option.map_map]
      refine congrArg (Option.map · _) (funext fun churn => ?_)
      cases hlast : churn.lastCommitTs <;>
        simp [Churn.add, hlast, hpath, Nat.add_assoc, Nat.add_comm]
    · simp [hpath]

theorem splitlines_go_cons {line : Text} (h : ∀ c ∈ line, isLineBreak c = false)
    (front rest : Text) :
    splitlines.go false front (line ++ '\n' :: rest) =
      (front ++ line) :: splitlines.go false [] rest := by
  induction line generalizing front with
  | nil => simp [splitlines.go, isLineBreak]
  | cons c line ih =>
    obtain ⟨hc, hline⟩ := List.forall_mem_cons.mp h
    rw [List.cons_append, splitlines.go, if_neg (by simp [hc]), ih hline]
    · simp
    · rintro rest rfl
      exact absurd hc (by decide)

theorem splitlines_go_last {line : Text} (h : ∀ c ∈ line, isLineBreak c = false) (front : Text) :
    splitlines.go false front line = if front ++ line ≠ [] then [front ++ line] else [] := by
  induction line generalizing front with
  | nil => simp [splitlines.go]
  | cons c line ih =>
    obtain ⟨hc, hline⟩ := List.forall_mem_cons.mp h
    rw [splitlines.go, if_neg (by simp [hc]), ih hline]
    · simp
    · rintro rest rfl
      exact absurd hc (by decide)

/-- The lines of a log are read one by one; an empty line more or less is nothing. -/
theorem foldl_splitlines {lines : List Text} (h : ∀ line ∈ lines, ∀ c ∈ line, isLineBreak c = false)
    (state : Option Nat × List (Text × Churn)) :
    (splitlines (joinLines lines) false).foldl tallyLine state = lines.foldl tallyLine state := by
  induction lines generalizing state with
  | nil => rfl
  | cons line lines ih =>
    obtain ⟨hline, hlines⟩ := List.forall_mem_cons.mp h
    by_cases hempty : lines = []
    · subst hempty
      rw [joinLines_singleton, splitlines, splitlines_go_last hline, List.nil_append]
      split_ifs with hne
      · rfl
      · obtain rfl : line = [] := by simpa using hne
        simp [tallyLine_nil]
    · rw [joinLines_cons hempty, splitlines, splitlines_go_cons hline, List.nil_append,
        List.foldl_cons, List.foldl_cons]
      exact ih hlines _

theorem unbroken_lines (commit : Logged) :
    ∀ line ∈ commit.lines, ∀ c ∈ line, isLineBreak c = false := by
  intro line hline c hc
  rcases List.mem_cons.mp hline with rfl | hline
  · rcases List.mem_cons.mp hc with rfl | hc
    · decide
    · have hspace := isSpace_of_isDigit (Nat.isDigit_of_mem_toDigits (by decide) (by decide) hc)
      by_contra hbreak
      rw [isSpace_of_isLineBreak (by simpa using hbreak)] at hspace
      cases hspace
  · rcases List.mem_cons.mp hline with rfl | hline
    · cases hc
    · exact (commit.listed line hline).unbroken c hc

theorem lookup_asked (paths : List Text) (path : Text) :
    (paths.map fun path => (path, (⟨0, none⟩ : Churn))).lookup path =
      if path ∈ paths then some ⟨0, none⟩ else none := by
  induction paths with
  | nil => rfl
  | cons other paths ih =>
    rw [List.map_cons, Assoc.lookup_cons_eq, ih]
    by_cases h : path = other <;> simp [h]

/-- The reader of the log that git writes for some commits gives each path that was asked for, and
no other, the number of the commits that touched it and the time of the first of them. -/
theorem tally_written (commits : List Logged) (paths : List Text) (path : Text) :
    (tally (written commits) paths).lookup path =
      if path ∈ paths then
        some ⟨(commits.filter (path ∈ ·.paths)).length,
          (commits.find? (path ∈ ·.paths)).map Logged.time⟩
      else none := by
  have hlines : ∀ line ∈ commits.flatMap Logged.lines, ∀ c ∈ line, isLineBreak c = false := by
    intro line hline
    obtain ⟨commit, -, hline⟩ := List.mem_flatMap.mp hline
    exact unbroken_lines commit line hline
  rw [tally, written, foldl_splitlines hlines, lookup_foldl_lines, lookup_asked]
  split_ifs <;> simp

theorem tally_written_sample :
    written Logged.sample =
        "\x001700000100\n\nsrc/a.py\nb c.py\n\x001700000000\n\nsrc/a.py".toList ∧
      (tally (written Logged.sample) ["src/a.py".toList]).lookup "src/a.py".toList =
        some ⟨2, some 1700000100⟩ ∧
      (tally (written Logged.sample) ["src/a.py".toList]).lookup "b c.py".toList = none :=
  ⟨by decide +kernel, tally_written Logged.sample ["src/a.py".toList] "src/a.py".toList,
    tally_written Logged.sample ["src/a.py".toList] "b c.py".toList⟩

end Agentless.Git
