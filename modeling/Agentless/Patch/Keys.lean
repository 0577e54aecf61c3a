import Agentless.Library.Text
import Agentless.Patch.Applied
import Agentless.Patch.Apply
import Agentless.Patch.RoundTrip
import Agentless.Syntax.Language
import Agentless.Text.Diff

/-!
# Equivalence keys

The key of one file's change is a hash over the line diff of two normalized streams, and the key
of a patch a hash over the paths and keys of the files it changes.
-/

namespace Agentless.Patch

open Text Text.Diff Syntax Std

/-- The prefix of a key that no grammar stands behind. -/
def textOnlyKeyPrefix : Text := "text:".toList

/-- A digest as the text of a key: two lower-case hexadecimal digits for each byte. -/
def keyText (digest : Bytes) : Text :=
  digest.flatMap fun byte => [Nat.digitChar (byte.toNat / 16), Nat.digitChar (byte.toNat % 16)]

def labelled (digest : Text) (grammar : Bool) : Text :=
  if grammar then digest else textOnlyKeyPrefix ++ digest

/-- What a hash over the file keys reads: each path and its key, in the order of the paths. -/
def keyFrames (fileKeys : List (Text × Text)) : Bytes :=
  fileKeys.flatMap fun (path, key) => utf8 path ++ [0] ++ utf8 key ++ [10]

section Keys

-- The tokens that a grammar gives for a text, joined by single spaces and without the comments
-- that are no directives, or the parser's refusal.
variable (tokens : Language → Text → Except Text Text)
variable (sha256 : Bytes → Bytes)

/-- The stream of a text, and whether a grammar produced it. -/
def stream (text : Text) (language : Option Language) : Except Text (Text × Bool) :=
  match language with
  | none => .ok (List.intercalate [' '] (splitWhitespace text), false)
  | some language => (tokens language text).map fun stream => (stream, true)

def hexSha256 (bytes : Bytes) : Text := keyText (sha256 bytes)

/-- The equivalence key of one file's change from `old` to `new`. -/
def fileKey (old new : Text) (language : Option Language) : Except Text Text := do
  let (before, grammar) ← stream tokens old language
  let (after, _) ← stream tokens new language
  let diff := joinLines (unifiedDiff (splitlines before false) (splitlines after false))
  return labelled (hexSha256 sha256 (utf8 diff)) grammar

/-- The equivalence key of a patch from the key of each file it changes. -/
def equivalenceKey (fileKeys : TreeMap Text Text compare) : Text :=
  let degraded := fileKeys.toList.any fun (_, key) => textOnlyKeyPrefix.isPrefixOf key
  labelled (hexSha256 sha256 (keyFrames fileKeys.toList)) (!degraded)

/-! ## The key of a patch -/

section Patch

variable (quoted : Text → Text) (fromPath : Text → Option Language)

/-- The old and new text of each changed file. Only the files that were given change. -/
def changes (contents : Text → Option Text) (result : ApplyResult) : List (Text × Text × Text) :=
  result.newContents.map fun (path, new) => (path, (contents path).getD [], new)

/-- The keys with that of one more changed file. -/
def insertKey (fileKeys : TreeMap Text Text compare) (change : Text × Text × Text) :
    Except Text (TreeMap Text Text compare) :=
  let (path, old, new) := change
  match fileKey tokens sha256 old new (fromPath path) with
  | .ok key => .ok (fileKeys.insert path key)
  | .error refusal => .error (path ++ ": ".toList ++ refusal)

structure NormalizeReport where
  key : Text
  fileKeys : TreeMap Text Text compare
  result : ApplyResult

/-- The equivalence key of the change that `edits` make to the files, with the key of each
changed file. -/
def normalizePatch (contents : Text → Option Text) (edits : List Edit) :
    Except Text NormalizeReport := do
  let result := applyEdits quoted edits contents
  let fileKeys ← (changes contents result).foldlM (insertKey tokens sha256 fromPath) ∅
  return ⟨equivalenceKey sha256 fileKeys, fileKeys, result⟩

end Patch

end Keys

end Agentless.Patch

/-!
## What equivalence keys separate

1. A digest, its text and the label on it determine each other.
2. The text of a diff determines its lines, and they its result: so do file keys.
3. The frames of paths and keys can be told apart: so equivalence keys determine the file keys.
-/

namespace Agentless.Patch

open Text Text.Diff Syntax Std

/-! ## Digests and labels -/

theorem digitChar_inj {m n : Nat} (hm : m < 16) (hn : n < 16)
    (h : Nat.digitChar m = Nat.digitChar n) : m = n := by
  have hall : ∀ m : Fin 16, ∀ n : Fin 16, Nat.digitChar m = Nat.digitChar n → m = n := by decide
  exact congrArg Fin.val (hall ⟨m, hm⟩ ⟨n, hn⟩ h)

theorem keyText_injective : Function.Injective keyText := by
  intro digest digest' heq
  induction digest generalizing digest' with
  | nil =>
    cases digest' with
    | nil => rfl
    | cons byte' digest' => simp [keyText] at heq
  | cons byte digest ih =>
    cases digest' with
    | nil => simp [keyText] at heq
    | cons byte' digest' =>
      simp only [keyText, List.flatMap_cons, List.cons_append, List.nil_append,
        List.cons.injEq] at heq
      obtain ⟨hhigh, hlow, hrest⟩ := heq
      have hbyte := byte.toNat_lt
      have hbyte' := byte'.toNat_lt
      have hhigh := digitChar_inj (by omega) (by omega) hhigh
      have hlow := digitChar_inj (by omega) (by omega) hlow
      rw [ih hrest, UInt8.toNat_inj.mp (by omega : byte.toNat = byte'.toNat)]

/-- A key text holds hexadecimal digits only. -/
theorem mem_keyText {digest : Bytes} {c : Char} (h : c ∈ keyText digest) :
    c ∈ "0123456789abcdef".toList := by
  obtain ⟨byte, -, hc⟩ := List.mem_flatMap.mp h
  have hbyte := byte.toNat_lt
  have hdigit : ∀ n : Fin 16, Nat.digitChar n ∈ "0123456789abcdef".toList := by decide
  simp only [List.mem_cons, List.not_mem_nil, or_false] at hc
  rcases hc with rfl | rfl
  · exact hdigit ⟨byte.toNat / 16, by omega⟩
  · exact hdigit ⟨byte.toNat % 16, by omega⟩

theorem labelled_inj {digest digest' : Bytes} {grammar grammar' : Bool}
    (h : labelled (keyText digest) grammar = labelled (keyText digest') grammar') :
    digest = digest' := by
  -- the label starts with a letter that is no hexadecimal digit
  have hlabel {bytes bytes' : Bytes} : textOnlyKeyPrefix ++ keyText bytes ≠ keyText bytes' := by
    intro heq
    have hmem : 't' ∈ keyText bytes' := by
      rw [← heq]
      simp [textOnlyKeyPrefix]
    exact absurd (mem_keyText hmem) (by decide)
  unfold labelled at h
  cases grammar <;> cases grammar' <;> simp only [if_true, Bool.false_eq_true, if_false] at h
  · exact keyText_injective (List.append_cancel_left h)
  · exact absurd h hlabel
  · exact absurd h.symm hlabel
  · exact keyText_injective h

/-! ## The text of a diff -/

theorem unbroken_hunk {a b : List Text} (ha : Unbroken a) (hb : Unbroken b) (group : List Opcode) :
    Unbroken (Diff.hunk group a b) := by
  cases group with
  | nil => simp [Diff.hunk, Unbroken]
  | cons first rest =>
    exact List.forall_mem_cons.mpr
      ⟨newline_notMem_hunkHeader _ _ _ _, unbroken_groupBody ha hb (first :: rest)⟩

theorem unbroken_unifiedDiff {a b : List Text} (ha : Unbroken a) (hb : Unbroken b) :
    Unbroken (unifiedDiff a b) := by
  unfold unifiedDiff
  dsimp only
  split
  · simp [Unbroken]
  · refine unbroken_append.mpr ⟨by decide, fun line hline => ?_⟩
    obtain ⟨group, -, hgroup⟩ := List.mem_flatMap.mp hline
    exact unbroken_hunk ha hb group line hgroup

theorem joinLines_unifiedDiff_eq_nil {a b : List Text} (h : joinLines (unifiedDiff a b) = []) :
    unifiedDiff a b = [] := by
  rcases joinLines_eq_nil.mp h with h | h
  · exact h
  · unfold unifiedDiff at h
    dsimp only at h
    split at h <;> simp at h

/-- The joined diff from `a` tells any two results apart. -/
theorem diffText_inj {a b b' : List Text} (ha : Unbroken a) (hb : Unbroken b) (hb' : Unbroken b')
    (h : joinLines (unifiedDiff a b) = joinLines (unifiedDiff a b')) : b = b' := by
  refine unifiedDiff_injective a ?_
  by_cases hnil : unifiedDiff a b = []
  · rw [hnil, joinLines_nil] at h
    rw [hnil, joinLines_unifiedDiff_eq_nil h.symm]
  · by_cases hnil' : unifiedDiff a b' = []
    · rw [hnil', joinLines_nil] at h
      exact absurd (joinLines_unifiedDiff_eq_nil h) hnil
    · exact (joinLines_inj hnil hnil' (unbroken_unifiedDiff ha hb)
        (unbroken_unifiedDiff ha hb')).mp h

/-! ## Frames -/

/-- One path and its key as they are hashed. -/
def frameText (entry : Text × Text) : Text := entry.1 ++ '\x00' :: (entry.2 ++ ['\n'])

theorem keyFrames_eq (entries : List (Text × Text)) :
    keyFrames entries = utf8 (entries.flatMap frameText) := by
  induction entries with
  | nil => rfl
  | cons entry entries ih =>
    have hzero : utf8 ['\x00'] = [0] := by decide
    have hnewline : utf8 ['\n'] = [10] := by decide
    have hframe : frameText entry = entry.1 ++ ['\x00'] ++ entry.2 ++ ['\n'] := by
      simp [frameText]
    rw [List.flatMap_cons, utf8_append, ← ih, hframe, utf8_append, utf8_append, utf8_append, hzero,
      hnewline]
    rfl

/-- A path without NUL, and a key on one line. -/
def Framed (entry : Text × Text) : Prop := '\x00' ∉ entry.1 ∧ '\n' ∉ entry.2

theorem cut_inj {c : Char} {text text' rest rest' : Text} (h : c ∉ text) (h' : c ∉ text')
    (heq : text ++ c :: rest = text' ++ c :: rest') : text = text' ∧ rest = rest' := by
  have hopens {side : Text} (hside : c ∉ side) : ∀ x ∈ side, (x == c) = false := by
    intro x hx
    simp only [beq_eq_false_iff_ne, ne_eq]
    rintro rfl
    exact hside hx
  obtain ⟨rfl, hrest⟩ := Sequence.append_inj_of_head (hopens h) (hopens h') (by simp) (by simp) heq
  exact ⟨rfl, (List.cons.inj hrest).2⟩

theorem frames_inj {entries entries' : List (Text × Text)} (h : ∀ entry ∈ entries, Framed entry)
    (h' : ∀ entry ∈ entries', Framed entry)
    (heq : entries.flatMap frameText = entries'.flatMap frameText) : entries = entries' := by
  induction entries generalizing entries' with
  | nil =>
    cases entries' with
    | nil => rfl
    | cons entry' entries' => simp [frameText] at heq
  | cons entry entries ih =>
    cases entries' with
    | nil => simp [frameText] at heq
    | cons entry' entries' =>
      obtain ⟨⟨hpath, hkey⟩, hrest⟩ := List.forall_mem_cons.mp h
      obtain ⟨⟨hpath', hkey'⟩, hrest'⟩ := List.forall_mem_cons.mp h'
      simp only [List.flatMap_cons, frameText, List.append_assoc, List.cons_append,
        List.nil_append] at heq
      obtain ⟨hpaths, htail⟩ := cut_inj hpath hpath' heq
      obtain ⟨hkeys, htail⟩ := cut_inj hkey hkey' htail
      rw [Prod.ext hpaths hkeys, ih hrest hrest' htail]

/-! ## Keys -/

section Keys

variable {tokens : Language → Text → Except Text Text} {sha256 : Bytes → Bytes}

/-- The lines of a text's normalized stream. -/
def normalizedLines (tokens : Language → Text → Except Text Text) (text : Text)
    (language : Option Language) : Except Text (List Text) :=
  (stream tokens text language).map fun (stream, _) => splitlines stream false

theorem fileKey_ok {old new key : Text} {language : Option Language}
    (h : fileKey tokens sha256 old new language = .ok key) :
    ∃ before grammar after label, stream tokens old language = .ok (before, grammar) ∧
      stream tokens new language = .ok (after, label) ∧
      key = labelled (hexSha256 sha256 (utf8 (joinLines
        (unifiedDiff (splitlines before false) (splitlines after false))))) grammar := by
  unfold fileKey at h
  cases hold : stream tokens old language with
  | error refusal => simp [hold, bind, Except.bind] at h
  | ok before =>
    cases hnew : stream tokens new language with
    | error refusal => simp [hold, hnew, bind, Except.bind] at h
    | ok after =>
      simp only [hold, hnew, bind, Except.bind, pure, Except.pure, Except.ok.injEq] at h
      exact ⟨before.1, before.2, after.1, after.2, rfl, rfl, h.symm⟩

/-- File keys over one old text are equal exactly when the normalized lines are. -/
theorem fileKey_eq_iff (hsha : Function.Injective sha256) {old new new' key key' : Text}
    {language : Option Language} (h : fileKey tokens sha256 old new language = .ok key)
    (h' : fileKey tokens sha256 old new' language = .ok key') :
    key = key' ↔ normalizedLines tokens new language = normalizedLines tokens new' language := by
  obtain ⟨before, grammar, after, label, hold, hnew, rfl⟩ := fileKey_ok h
  obtain ⟨before', grammar', after', label', hold', hnew', rfl⟩ := fileKey_ok h'
  obtain ⟨rfl, rfl⟩ : before = before' ∧ grammar = grammar' := by
    simpa using hold.symm.trans hold'
  simp only [normalizedLines, hnew, hnew', Except.map, Except.ok.injEq]
  constructor
  · intro heq
    exact diffText_inj (splitlines_unbroken before) (splitlines_unbroken after)
      (splitlines_unbroken after') (utf8_injective (hsha (labelled_inj heq)))
  · intro heq
    rw [heq]

/-- A key that some change of a file has. -/
def IsFileKey (tokens : Language → Text → Except Text Text) (sha256 : Bytes → Bytes)
    (key : Text) : Prop :=
  ∃ old new language, fileKey tokens sha256 old new language = .ok key

theorem IsFileKey.newline_notMem {key : Text} (h : IsFileKey tokens sha256 key) : '\n' ∉ key := by
  obtain ⟨old, new, language, hkey⟩ := h
  obtain ⟨before, grammar, after, label, -, -, rfl⟩ := fileKey_ok hkey
  have hdigits (digest : Bytes) : '\n' ∉ keyText digest := fun hmem =>
    absurd (mem_keyText hmem) (by decide)
  unfold labelled
  split
  · exact hdigits _
  · simp [textOnlyKeyPrefix, hexSha256, hdigits]

/-- Paths without NUL and keys of files. -/
def KeyMap (tokens : Language → Text → Except Text Text) (sha256 : Bytes → Bytes)
    (fileKeys : TreeMap Text Text compare) : Prop :=
  ∀ (path : Text) key, fileKeys[path]? = some key → '\x00' ∉ path ∧ IsFileKey tokens sha256 key

theorem KeyMap.framed {fileKeys : TreeMap Text Text compare}
    (h : KeyMap tokens sha256 fileKeys) : ∀ entry ∈ fileKeys.toList, Framed entry := by
  rintro ⟨path, key⟩ hentry
  obtain ⟨hpath, hkey⟩ := h path key (TreeMap.mem_toList_iff_getElem?_eq_some.mp hentry)
  exact ⟨hpath, hkey.newline_notMem⟩

/-- Equivalence keys are equal exactly when the maps are. -/
theorem equivalenceKey_eq_iff (hsha : Function.Injective sha256)
    {fileKeys fileKeys' : TreeMap Text Text compare} (h : KeyMap tokens sha256 fileKeys)
    (h' : KeyMap tokens sha256 fileKeys') :
    equivalenceKey sha256 fileKeys = equivalenceKey sha256 fileKeys' ↔
      ∀ path : Text, fileKeys[path]? = fileKeys'[path]? := by
  constructor
  · intro heq path
    have hframes := hsha (labelled_inj heq)
    rw [keyFrames_eq, keyFrames_eq] at hframes
    have hentries := frames_inj h.framed h'.framed (utf8_injective hframes)
    exact (TreeMap.equiv_iff_toList_eq.mpr hentries).getElem?_eq
  · intro heq
    simp only [equivalenceKey, (TreeMap.Equiv.of_forall_constGet?_eq heq).toList_eq]

/-! ## Patches -/

section Patches

variable {quoted : Text → Text} {fromPath : Text → Option Language}

theorem foldlM_insertKey_cons {change : Text × Text × Text} {found : List (Text × Text × Text)}
    {fileKeys fileKeys' : TreeMap Text Text compare}
    (h : (change :: found).foldlM (insertKey tokens sha256 fromPath) fileKeys = .ok fileKeys') :
    ∃ key, fileKey tokens sha256 change.2.1 change.2.2 (fromPath change.1) = .ok key ∧
      found.foldlM (insertKey tokens sha256 fromPath) (fileKeys.insert change.1 key) =
        .ok fileKeys' := by
  cases hkey : fileKey tokens sha256 change.2.1 change.2.2 (fromPath change.1) with
  | error refusal => simp [insertKey, hkey, bind, Except.bind] at h
  | ok key => exact ⟨key, rfl, by simpa [insertKey, hkey, bind, Except.bind] using h⟩

theorem foldlM_insertKey_none {found : List (Text × Text × Text)}
    {fileKeys fileKeys' : TreeMap Text Text compare}
    (h : found.foldlM (insertKey tokens sha256 fromPath) fileKeys = .ok fileKeys') {path : Text}
    (hpath : found.lookup path = none) : fileKeys'[path]? = fileKeys[path]? := by
  induction found generalizing fileKeys with
  | nil =>
    obtain rfl : fileKeys = fileKeys' := by simpa [pure, Except.pure] using h
    rfl
  | cons change found ih =>
    obtain ⟨key, -, hrest⟩ := foldlM_insertKey_cons h
    rw [List.lookup_cons] at hpath
    by_cases hname : path = change.1
    · simp [hname] at hpath
    · have hne : (path == change.1) = false := by simpa using hname
      have hcompare : ¬ compare change.1 path = .eq := fun heq =>
        hname (Std.compare_eq_iff_eq.mp heq).symm
      rw [ih hrest (by simpa [hne] using hpath), TreeMap.getElem?_insert, if_neg hcompare]

theorem foldlM_insertKey_some {found : List (Text × Text × Text)}
    (hpaths : (found.map Prod.fst).Nodup) {fileKeys fileKeys' : TreeMap Text Text compare}
    (h : found.foldlM (insertKey tokens sha256 fromPath) fileKeys = .ok fileKeys')
    {path old new : Text} (hpath : found.lookup path = some (old, new)) :
    ∃ key, fileKey tokens sha256 old new (fromPath path) = .ok key ∧
      fileKeys'[path]? = some key := by
  induction found generalizing fileKeys with
  | nil => simp at hpath
  | cons change found ih =>
    obtain ⟨hname, hfound⟩ := List.nodup_cons.mp hpaths
    obtain ⟨key, hkey, hrest⟩ := foldlM_insertKey_cons h
    rw [List.lookup_cons] at hpath
    by_cases heq : path = change.1
    · subst heq
      have hchange : change.2 = (old, new) := by simpa using hpath
      rw [hchange] at hkey
      have habsent : found.lookup change.1 = none := by
        rw [List.lookup_eq_none_iff]
        intro entry hentry
        have hother : change.1 ≠ entry.1 := fun heq =>
          hname (List.mem_map.mpr ⟨entry, hentry, heq.symm⟩)
        simpa using hother
      refine ⟨key, hkey, ?_⟩
      rw [foldlM_insertKey_none hrest habsent, TreeMap.getElem?_insert_self]
    · have hne : (path == change.1) = false := by simpa using heq
      exact ih hfound hrest (by simpa [hne] using hpath)

variable (quoted) in
theorem nodup_newContents (edits : List Edit) (contents : Text → Option Text) :
    ((applyEdits quoted edits contents).newContents.map Prod.fst).Nodup :=
  (Applying.kept_after quoted contents edits).nodup.sublist
    (Sequence.map_filterMap_sublist fun _ _ _ => FileState.changed_path)

theorem lookup_changes (contents : Text → Option Text) (result : ApplyResult) (path : Text) :
    (changes contents result).lookup path =
      (result.newContents.lookup path).map fun new => ((contents path).getD [], new) := by
  unfold changes
  induction result.newContents with
  | nil => rfl
  | cons entry rest ih =>
    rw [List.map_cons, List.lookup_cons, List.lookup_cons, ih]
    by_cases hpath : path = entry.1
    · simp [hpath]
    · have hne : (path == entry.1) = false := by simpa using hpath
      simp [hne]

theorem normalizePatch_ok {contents : Text → Option Text} {edits : List Edit}
    {report : NormalizeReport}
    (h : normalizePatch tokens sha256 quoted fromPath contents edits = .ok report) :
    report.key = equivalenceKey sha256 report.fileKeys ∧
      ∀ path : Text,
        (report.result.newContents.lookup path = none → report.fileKeys[path]? = none) ∧
        ∀ new, report.result.newContents.lookup path = some new →
          ∃ key, fileKey tokens sha256 ((contents path).getD []) new (fromPath path) = .ok key ∧
            report.fileKeys[path]? = some key := by
  unfold normalizePatch at h
  cases hkeys : (changes contents (applyEdits quoted edits contents)).foldlM
      (insertKey tokens sha256 fromPath) ∅ with
  | error refusal => simp [hkeys, bind, Except.bind] at h
  | ok fileKeys =>
    obtain rfl : _ = report := by
      simpa [hkeys, bind, Except.bind, pure, Except.pure] using h
    refine ⟨rfl, fun path => ⟨fun hnone => ?_, fun new hnew => ?_⟩⟩
    · rw [foldlM_insertKey_none hkeys (by rw [lookup_changes, hnone]; rfl)]
      simp
    · refine foldlM_insertKey_some ?_ hkeys (by rw [lookup_changes, hnew]; rfl)
      have hnodup := nodup_newContents quoted edits contents
      simpa [changes, Function.comp_def] using hnodup

/-- The normalized lines of the file at `path`, when the patch changed it. -/
def NormalizeReport.lines (tokens : Language → Text → Except Text Text)
    (fromPath : Text → Option Language) (report : NormalizeReport) (path : Text) :
    Option (Except Text (List Text)) :=
  (report.result.newContents.lookup path).map fun new =>
    normalizedLines tokens new (fromPath path)

theorem normalizePatch_keyMap {contents : Text → Option Text} {edits : List Edit}
    {report : NormalizeReport}
    (h : normalizePatch tokens sha256 quoted fromPath contents edits = .ok report)
    (hpaths : ∀ entry ∈ report.result.newContents, '\x00' ∉ entry.1) :
    KeyMap tokens sha256 report.fileKeys := by
  intro path key hkey
  obtain ⟨hnone, hsome⟩ := (normalizePatch_ok h).2 path
  cases hnew : report.result.newContents.lookup path with
  | none => simp [hnone hnew] at hkey
  | some new =>
    obtain ⟨key', hfile, hkey'⟩ := hsome new hnew
    obtain rfl : key' = key := by simpa [hkey'] using hkey
    obtain ⟨front, back, hsplit, -⟩ := List.lookup_eq_some_iff.mp hnew
    exact ⟨hpaths (path, new) (by simp [hsplit]), _, new, _, hfile⟩

/-- Two patches to the same files have the same key exactly when they change the same files to
the same normalized lines. -/
theorem normalizePatch_key_eq_iff (hsha : Function.Injective sha256)
    {contents : Text → Option Text} {edits edits' : List Edit} {report report' : NormalizeReport}
    (h : normalizePatch tokens sha256 quoted fromPath contents edits = .ok report)
    (h' : normalizePatch tokens sha256 quoted fromPath contents edits' = .ok report')
    (hpaths : ∀ entry ∈ report.result.newContents, '\x00' ∉ entry.1)
    (hpaths' : ∀ entry ∈ report'.result.newContents, '\x00' ∉ entry.1) :
    report.key = report'.key ↔
      ∀ path, report.lines tokens fromPath path = report'.lines tokens fromPath path := by
  obtain ⟨hkey, hfiles⟩ := normalizePatch_ok h
  obtain ⟨hkey', hfiles'⟩ := normalizePatch_ok h'
  rw [hkey, hkey', equivalenceKey_eq_iff hsha (normalizePatch_keyMap h hpaths)
    (normalizePatch_keyMap h' hpaths')]
  refine forall_congr' fun path => ?_
  obtain ⟨hnone, hsome⟩ := hfiles path
  obtain ⟨hnone', hsome'⟩ := hfiles' path
  unfold NormalizeReport.lines
  cases hnew : report.result.newContents.lookup path with
  | none =>
    rw [hnone hnew]
    cases hnew' : report'.result.newContents.lookup path with
    | none => simp [hnone' hnew']
    | some new' =>
      obtain ⟨key', -, hkey'⟩ := hsome' new' hnew'
      simp [hkey']
  | some new =>
    obtain ⟨key, hfile, hkey⟩ := hsome new hnew
    cases hnew' : report'.result.newContents.lookup path with
    | none => simp [hnone' hnew', hkey]
    | some new' =>
      obtain ⟨key', hfile', hkey'⟩ := hsome' new' hnew'
      simpa [hkey, hkey'] using fileKey_eq_iff hsha hfile hfile'

/-- Keys separate exactly what they should: the file keys over one old text the normalized lines,
the equivalence keys the maps of file keys, and so the patches to one tree what they do to it. -/
theorem keys_separate (tokens : Language → Text → Except Text Text) (quoted : Text → Text)
    (fromPath : Text → Option Language) (hsha : Function.Injective sha256) :
    (∀ old new new' key key' language, fileKey tokens sha256 old new language = .ok key →
      fileKey tokens sha256 old new' language = .ok key' →
      (key = key' ↔
        normalizedLines tokens new language = normalizedLines tokens new' language)) ∧
    (∀ fileKeys fileKeys', KeyMap tokens sha256 fileKeys → KeyMap tokens sha256 fileKeys' →
      (equivalenceKey sha256 fileKeys = equivalenceKey sha256 fileKeys' ↔
        ∀ path : Text, fileKeys[path]? = fileKeys'[path]?)) ∧
    ∀ contents edits edits' report report',
      normalizePatch tokens sha256 quoted fromPath contents edits = .ok report →
      normalizePatch tokens sha256 quoted fromPath contents edits' = .ok report' →
      (∀ entry ∈ report.result.newContents, '\x00' ∉ entry.1) →
      (∀ entry ∈ report'.result.newContents, '\x00' ∉ entry.1) →
      (report.key = report'.key ↔
        ∀ path, report.lines tokens fromPath path = report'.lines tokens fromPath path) := by
  refine ⟨?_, ?_, ?_⟩
  · exact fun _ _ _ _ _ _ h h' => fileKey_eq_iff hsha h h'
  · exact fun _ _ h h' => equivalenceKey_eq_iff hsha h h'
  · exact fun _ _ _ _ _ h h' hpaths hpaths' =>
      normalizePatch_key_eq_iff hsha h h' hpaths hpaths'

end Patches

/-- The SHA-256 digest of no bytes. -/
def emptyDigest : Bytes :=
  [0xe3, 0xb0, 0xc4, 0x42, 0x98, 0xfc, 0x1c, 0x14, 0x9a, 0xfb, 0xf4, 0xc8, 0x99, 0x6f, 0xb9, 0x24,
   0x27, 0xae, 0x41, 0xe4, 0x64, 0x9b, 0x93, 0x4c, 0xa4, 0x95, 0x99, 0x1b, 0x78, 0x52, 0xb8, 0x55]

/-- A hash without collisions that agrees with SHA-256 on no bytes. -/
def sampleHash (bytes : Bytes) : Bytes :=
  if bytes = [] then emptyDigest else List.replicate 33 0 ++ bytes

theorem sampleHash_injective : Function.Injective sampleHash := by
  have hlong (bytes : Bytes) : emptyDigest ≠ List.replicate 33 0 ++ bytes := by
    intro heq
    have hlength := congrArg List.length heq
    simp [emptyDigest] at hlength
  intro bytes bytes' heq
  unfold sampleHash at heq
  split at heq <;> split at heq
  · simp_all
  · exact absurd heq (hlong bytes')
  · exact absurd heq.symm (hlong bytes)
  · exact List.append_cancel_left heq

/-- A change of white space in a text without a grammar has the key of no change. -/
theorem keys_separate_white_space :
    fileKey (fun _ => .ok) sampleHash "a b".toList "a  b".toList none =
        .ok (labelled (keyText emptyDigest) false) ∧
      (labelled (keyText emptyDigest) false = labelled (keyText emptyDigest) false ↔
        normalizedLines (fun _ => .ok) "a  b".toList none =
          normalizedLines (fun _ => .ok) "a b".toList none) :=
  ⟨by decide +kernel, (keys_separate (fun _ => .ok) inQuotes (fun _ => none)
    sampleHash_injective).1 "a b".toList "a  b".toList "a b".toList _ _ none (by decide +kernel)
    (by decide +kernel)⟩

end Keys

end Agentless.Patch
