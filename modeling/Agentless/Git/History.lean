import Agentless.Git.Changes

/-!
# The history of a span

The log of a span has four fields for each commit, and NUL bytes end them. Reading the log gives
the commits back, and a log cut anywhere gives the first of them, with a cut body at most in the
last.
-/

namespace Agentless.Git.History

open Terminated Changes

/-- The stdout cap of a span log. -/
def maxHistoryOutputBytes : Nat := 2000000

def fieldsPerCommit : Nat := 4

def sha1Digits : Nat := 40

def sha256Digits : Nat := 64

structure Commit where
  sha : Text
  authored : Text
  subject : Text
  body : Text
deriving DecidableEq, Repr

/-- The defect of a log, which never echoes a field. -/
inductive LogError where
  | fields (count : Nat)
  | noSha (number : Nat)
  | noDate (number : Nat)
deriving DecidableEq, Repr

def LogError.message : LogError → Text
  | .fields count => Nat.toDigits 10 count ++ " fields is not a whole number of ".toList ++
    Nat.toDigits 10 fieldsPerCommit ++ "-field commits".toList
  | .noSha number =>
    "commit ".toList ++ Nat.toDigits 10 number ++ " does not open with a full sha".toList
  | .noDate number => "commit ".toList ++ Nat.toDigits 10 number ++ " carries no author date".toList

def isFullSha (text : Text) : Bool :=
  (text.length = sha1Digits || text.length = sha256Digits) &&
    text.all fun c => ('0' ≤ c && c ≤ '9') || ('a' ≤ c && c ≤ 'f')

/-- The commit of four fields. -/
def commit (number : Nat) (sha authored subject body : Text) : Except LogError Commit :=
  if !isFullSha sha then .error (.noSha number)
  else if authored = [] then .error (.noDate number)
  else .ok ⟨sha, authored, subject, body⟩

/-- The commits of the whole chunks of four fields, numbered from `number` on. -/
def commits (number : Nat) : List Text → Except LogError (List Commit)
  | sha :: authored :: subject :: body :: rest => do
    let first ← commit number sha authored subject body
    let others ← commits (number + 1) rest
    .ok (first :: others)
  | _ => .ok []

/-- A cut log drops its partial last commit. -/
def parseLog (text : Text) (capped : Bool) : Except LogError (List Commit) :=
  let split := text.splitOn '\x00'
  let fields := if split.getLast? = some [] then split.dropLast else split
  if fields.length % fieldsPerCommit ≠ 0 && !capped then .error (.fields fields.length)
  else commits 1 fields

theorem mem_commits {number : Nat} {fields : List Text} {log : List Commit}
    (h : commits number fields = .ok log) :
    ∀ commit ∈ log, isFullSha commit.sha = true ∧ commit.body ∈ fields := by
  fun_induction commits number fields generalizing log with
  | case1 number sha authored subject body rest ih =>
    obtain ⟨first, hfirst, h⟩ := Except.bind_eq_ok_iff.mp h
    obtain ⟨others, hothers, h⟩ := Except.bind_eq_ok_iff.mp h
    cases h
    refine List.forall_mem_cons.mpr ⟨?_, fun commit hcommit => ?_⟩
    · unfold commit at hfirst
      split_ifs at hfirst with hsha
      cases hfirst
      exact ⟨by simpa using hsha, by simp⟩
    · obtain ⟨hsha, hbody⟩ := ih hothers commit hcommit
      exact ⟨hsha, by simp [hbody]⟩
  | case2 number fields hshort =>
    cases h
    exact fun commit hcommit => absurd hcommit List.not_mem_nil

theorem mem_parseLog {text : Text} {capped : Bool} {log : List Commit}
    (h : parseLog text capped = .ok log) :
    ∀ commit ∈ log, isFullSha commit.sha = true ∧ commit.body.length ≤ text.length := by
  intro commit hcommit
  unfold parseLog at h
  dsimp only at h
  split_ifs at h with hend hcount hcount
  · -- the last NUL byte ends a field
    obtain ⟨hsha, hbody⟩ := mem_commits h commit hcommit
    exact ⟨hsha, length_le_of_mem_splitOn (List.mem_of_mem_dropLast hbody)⟩
  · obtain ⟨hsha, hbody⟩ := mem_commits h commit hcommit
    exact ⟨hsha, length_le_of_mem_splitOn hbody⟩

/-! ## The log that git writes -/

/-- A commit as git prints it. -/
structure Commit.Logged (commit : Commit) : Prop where
  sha : isFullSha commit.sha = true
  authored : commit.authored ≠ []
  sha_free : '\x00' ∉ commit.sha
  authored_free : '\x00' ∉ commit.authored
  subject_free : '\x00' ∉ commit.subject
  body_free : '\x00' ∉ commit.body

abbrev LoggedCommit := { commit : Commit // commit.Logged }

def LoggedCommit.sample : LoggedCommit where
  val := ⟨"83db48f1c2d3e4f5a6b7c8d9e0f1a2b3c4d5e6f7".toList, "2026-03-01T09:30:00+01:00".toList,
    "Read the log".toList, "One field each.\n".toList⟩
  property := ⟨by decide, by simp, by decide, by decide, by decide, by decide⟩

def Commit.fields (commit : Commit) : List Text :=
  [commit.sha, commit.authored, commit.subject, commit.body]

def logFields (log : List LoggedCommit) : List Text := log.flatMap fun commit => commit.val.fields

/-- What git prints for the commits. -/
def logText (log : List LoggedCommit) : Text := terminated '\x00' (logFields log)

theorem Commit.Logged.nul_notMem {commit : Commit} (h : commit.Logged) :
    ∀ field ∈ commit.fields, '\x00' ∉ field := by
  intro field hfield
  simp only [Commit.fields, List.mem_cons, List.not_mem_nil, or_false] at hfield
  rcases hfield with rfl | rfl | rfl | rfl
  · exact h.sha_free
  · exact h.authored_free
  · exact h.subject_free
  · exact h.body_free

theorem nul_notMem_logFields (log : List LoggedCommit) : ∀ field ∈ logFields log, '\x00' ∉ field := by
  intro field hfield
  obtain ⟨commit, -, hfield⟩ := List.mem_flatMap.mp hfield
  exact commit.property.nul_notMem field hfield

/-- The four fields of a printed commit, whatever stands for its body. -/
theorem commit_logged (number : Nat) {logged : Commit} (h : logged.Logged) (body : Text) :
    commit number logged.sha logged.authored logged.subject body = .ok { logged with body } := by
  rw [commit, h.sha, if_neg h.authored]
  rfl

/-- The fields of whole commits are read first. -/
theorem commits_append (number : Nat) (log : List LoggedCommit) (rest : List Text) :
    commits number (logFields log ++ rest) = (do
      let others ← commits (number + log.length) rest
      .ok (log.map Subtype.val ++ others)) := by
  induction log generalizing number with
  | nil => cases h : commits number rest <;> simp [logFields, h, bind, Except.bind]
  | cons first log ih =>
    rw [logFields, List.flatMap_cons, Commit.fields]
    simp only [List.cons_append, List.nil_append, commits]
    rw [commit_logged number first.property, List.length_cons, Nat.add_comm log.length, ← Nat.add_assoc]
    change (do
      let others ← commits (number + 1) (logFields log ++ rest)
      .ok (first.val :: others)) = _
    rw [ih]
    cases commits (number + 1 + log.length) rest <;> rfl

theorem commits_short (number : Nat) {rest : List Text} (h : rest.length < fieldsPerCommit) :
    commits number rest = .ok [] := by
  unfold fieldsPerCommit at h
  match rest with
  | [] | [_] | [_, _] | [_, _, _] => rfl
  | _ :: _ :: _ :: _ :: rest =>
    simp only [List.length_cons] at h
    omega

/-- The fields of a text that ends in a piece of a field, which counts when it is not empty. -/
theorem parseLog_terminated {whole : List Text} {part : Text} (capped : Bool)
    (hwhole : ∀ field ∈ whole, '\x00' ∉ field) (hpart : '\x00' ∉ part)
    (hcount : capped = true ∨
      (whole ++ if part = [] then [] else [part]).length % fieldsPerCommit = 0) :
    parseLog (terminated '\x00' whole ++ part) capped =
      commits 1 (whole ++ if part = [] then [] else [part]) := by
  have hfields : (if (whole ++ [part]).getLast? = some [] then (whole ++ [part]).dropLast
      else whole ++ [part]) = whole ++ if part = [] then [] else [part] := by
    rw [List.getLast?_concat, List.dropLast_concat]
    by_cases hnil : part = [] <;> simp [hnil]
  unfold parseLog
  dsimp only
  rw [splitOn_terminated_append hwhole hpart, hfields]
  rcases hcount with rfl | hcount
  · simp
  · rw [hcount]
    rfl

theorem length_logFields (log : List LoggedCommit) :
    (logFields log).length = fieldsPerCommit * log.length := by
  induction log with
  | nil => rfl
  | cons first log ih =>
    rw [logFields, List.flatMap_cons, List.length_append, ← logFields, ih, List.length_cons]
    simp only [Commit.fields, List.length_cons, List.length_nil, fieldsPerCommit]
    omega

/-- Reading the log that git writes gives the commits back. -/
theorem parseLog_logText (log : List LoggedCommit) (capped : Bool) :
    parseLog (logText log) capped = .ok (log.map Subtype.val) := by
  have hparse := parseLog_terminated capped (nul_notMem_logFields log)
    (List.not_mem_nil (a := '\x00')) (.inr (by simp [length_logFields]))
  rw [List.append_nil, if_pos rfl, commits_append, commits_short _ (by decide)] at hparse
  rw [logText, hparse]
  simp [bind, Except.bind]

/-! ## A log that is cut -/

/-- The fields before a place in the log: those of whole commits, then fewer than four of the next
commit. -/
theorem exists_split_logFields {log : List LoggedCommit} {done after : List Text} {field : Text}
    (h : logFields log = done ++ field :: after) :
    ∃ before last rest extra more, log = before ++ last :: rest ∧ done = logFields before ++ extra ∧
      last.val.fields = extra ++ field :: more := by
  induction log generalizing done with
  | nil => simp [logFields] at h
  | cons first log ih =>
    rw [logFields, List.flatMap_cons] at h
    rcases List.append_eq_append_iff.mp h with ⟨between, rfl, hrest⟩ | ⟨between, hfirst, hrest⟩
    · obtain ⟨before, last, rest, extra, more, rfl, rfl, hlast⟩ := ih hrest
      exact ⟨first :: before, last, rest, extra, more, rfl,
        by rw [logFields, logFields, List.flatMap_cons, List.append_assoc], hlast⟩
    · cases between with
      | nil =>
        rw [List.nil_append] at hrest
        obtain ⟨before, last, rest, extra, more, rfl, hdone, hlast⟩ := @ih [] hrest.symm
        obtain ⟨hbefore, rfl⟩ := List.append_eq_nil_iff.mp hdone.symm
        refine ⟨first :: before, last, rest, [], more, rfl, ?_, hlast⟩
        rw [List.append_nil] at hfirst
        rw [List.append_nil, ← hfirst, logFields, List.flatMap_cons, ← logFields, hbefore,
          List.append_nil]
      | cons next between =>
        obtain ⟨rfl, -⟩ := List.cons.inj hrest
        exact ⟨[], first, log, done, between, rfl, rfl, hfirst⟩

/-- A cut log gives the commits it begins with, and only the last one's body may be cut. -/
theorem parseLog_prefix (log : List LoggedCommit) {text : Text} (h : text <+: logText log) :
    ∃ before, before <+: log ∧ (parseLog text true = .ok (before.map Subtype.val) ∨
      ∃ last cut, before ++ [last] <+: log ∧ cut <+: last.val.body ∧
        parseLog text true = .ok (before.map Subtype.val ++ [{ last.val with body := cut }])) := by
  obtain ⟨done, piece, rfl, hend⟩ := exists_of_prefix h
  rcases hend with ⟨rfl, rfl⟩ | ⟨field, after, hfields, hpiece⟩
  · refine ⟨log, List.prefix_rfl, .inl ?_⟩
    rw [List.append_nil]
    exact parseLog_logText log true
  · have hnul := nul_notMem_logFields log
    rw [hfields] at hnul
    obtain ⟨before, last, rest, extra, more, rfl, rfl, hlast⟩ := exists_split_logFields hfields
    have hpart : '\x00' ∉ piece := fun hmem =>
      hnul field (List.mem_append_right _ List.mem_cons_self) (hpiece.subset hmem)
    rw [parseLog_terminated true (fun one hone => hnul one (List.mem_append_left _ hone)) hpart
      (.inl rfl), List.append_assoc, commits_append]
    have hcount := congrArg List.length hlast
    rw [List.length_append, List.length_cons] at hcount
    simp only [Commit.fields, List.length_cons, List.length_nil] at hcount
    refine ⟨before, List.prefix_append _ _, ?_⟩
    by_cases hshort : (extra ++ if piece = [] then [] else [piece]).length < fieldsPerCommit
    · rw [commits_short _ hshort]
      exact .inl (by simp [bind, Except.bind])
    · have hbody : piece ≠ [] ∧ extra.length = 3 := by
        rw [List.length_append, fieldsPerCommit] at hshort
        by_cases hnil : piece = []
        · rw [if_pos hnil, List.length_nil] at hshort
          omega
        · rw [if_neg hnil, List.length_singleton] at hshort
          exact ⟨hnil, by omega⟩
      have hextra : extra ++ field :: more =
          [last.val.sha, last.val.authored, last.val.subject] ++ [last.val.body] := hlast.symm
      obtain ⟨rfl, hfield⟩ := List.append_inj hextra hbody.2
      obtain ⟨rfl, -⟩ := List.cons.inj hfield
      refine .inr ⟨last, piece, ⟨rest, by simp⟩, hpiece, ?_⟩
      rw [if_neg hbody.1]
      simp only [List.cons_append, List.nil_append, commits]
      rw [commit_logged _ last.property]
      rfl

/-- The readers undo the framing of git's output. Reading the records of any changes gives the
changes back, and cut inside a record they are refused or end in a cut last path. Reading the log of
any commits gives the commits back, and cut anywhere it gives the first of them, with only the last
body cut. -/
theorem readers_undo_framing (lossy : Bytes → Text) :
    (∀ listed, parseChanges lossy (rawDiff listed) = .ok (listed.map Listed.change)) ∧
    (∀ (before : List Listed) (last : Listed) (part : Bytes), part <+: last.raw → part ≠ [] → part ≠ last.raw →
      (∃ malformed, parseChanges lossy (rawDiff before ++ part) = .error malformed) ∨
        ∃ cut, cut <+: utf8 last.change.path ∧ parseChanges lossy (rawDiff before ++ part) =
          .ok (before.map Listed.change ++ [last.change.withLastPath (decoded lossy cut)])) ∧
    (∀ log capped, parseLog (logText log) capped = .ok (log.map Subtype.val)) ∧
    ∀ log text, text <+: logText log →
      ∃ before, before <+: log ∧ (parseLog text true = .ok (before.map Subtype.val) ∨
        ∃ last cut, before ++ [last] <+: log ∧ cut <+: last.val.body ∧
          parseLog text true = .ok (before.map Subtype.val ++ [{ last.val with body := cut }])) :=
  ⟨parseChanges_rawDiff, fun before last _ => parseChanges_cut before last, parseLog_logText,
    fun log _ => parseLog_prefix log⟩

/-- A renamed file and a commit are read back, and so is what is left when their last two bytes are
gone. -/
theorem readers_undo_framing_sample :
    parseChanges (fun _ => []) (rawDiff [Listed.sample]) = .ok [Listed.sample.change] ∧
      ((∃ malformed, parseChanges (fun _ => []) (rawDiff [] ++ Listed.sample.raw.dropLast.dropLast) =
          .error malformed) ∨
        ∃ cut, cut <+: utf8 "b.rs".toList ∧
          parseChanges (fun _ => []) (rawDiff [] ++ Listed.sample.raw.dropLast.dropLast) =
            .ok ([] ++ [Listed.sample.change.withLastPath (decoded (fun _ => []) cut)])) ∧
      parseLog (logText [.sample]) false = .ok [LoggedCommit.sample.val] ∧
      ∃ before, before <+: [LoggedCommit.sample] ∧
        (parseLog (logText [.sample]).dropLast.dropLast true = .ok (before.map Subtype.val) ∨
          ∃ last cut, before ++ [last] <+: [LoggedCommit.sample] ∧ cut <+: last.val.body ∧
            parseLog (logText [.sample]).dropLast.dropLast true =
              .ok (before.map Subtype.val ++ [{ last.val with body := cut }])) := by
  obtain ⟨hchanges, hcut, hlog, hlogCut⟩ := readers_undo_framing fun _ => []
  refine ⟨hchanges [.sample], hcut [] .sample _ ?_ (by decide) (by decide), hlog [.sample] false,
    hlogCut [.sample] _ ?_⟩
  · exact (List.dropLast_prefix _).trans (List.dropLast_prefix _)
  · exact (List.dropLast_prefix _).trans (List.dropLast_prefix _)

end Agentless.Git.History
