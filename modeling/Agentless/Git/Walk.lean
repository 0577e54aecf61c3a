import Agentless.Io.Walk
import Agentless.Library.Sequence

/-!
# The repository walk

The files under a root: those that git lists when the root is its own, else those of the bounded
walk. Either way each name is probed once more, and a file is admitted when it stays inside the
root. The two routes differ in one kind of entry only, a link to a directory inside the root, which
the bounded walk drops and the probe of git's names admits.
-/

namespace Agentless.Git

open Posix StdPath Io.Walk

structure RepoFile where
  path : Text
  size : Nat
deriving DecidableEq

inductive Unfinished where
  | timedOut (subcommand after : Text)
  | notInstalled
  | notRun (subcommand reason : Text)

structure Failure where
  subcommand : Text
  code : Int
  detail : Text

inductive GitOutcome where
  | printed (stdout : Bytes)
  | capped (stdout : Bytes)
  | failed (failure : Failure)
  | unfinished (reason : Unfinished)

inductive WalkWarning where
  | ignoreUnchecked (top root : Bytes) (reason : Unfinished)
  | notUtf8 (count : Nat) (root : Bytes)
  | notUtf8Walked (count : Nat) (root : Bytes)
  | skipped (skip : WalkSkip)

/-- The note of a root that git did not list is the failure or the missing status itself. -/
inductive WalkError where
  | refused (refusal : WalkRefusal)
  | tooDeep (depth limit : Nat) (root : Bytes)
  | listingCapped (root : Bytes)
  | unlisted (root : Bytes) (note : Failure ⊕ Unfinished)

structure Walk where
  files : Except WalkError (List RepoFile)
  warnings : List WalkWarning

structure Found where
  names : Except WalkError (List Text)
  warnings : List WalkWarning

/-- The answers of the git program: the top level that encloses a path, whether a top level ignores
a root, and the listing of a root. -/
structure Answers where
  root : Bytes → Option Bytes
  checkIgnore : Bytes → Bytes → GitOutcome
  lsFiles : Bytes → GitOutcome

def tooManyFiles (limit : Nat) (root : Bytes) : WalkError := .refused (.tooManyFiles limit root)

/-! ## The names of git's listing -/

def ignoreVerdict (top root : Bytes) : GitOutcome → Bool × Option WalkWarning
  | .printed _ => (true, none)
  | .capped _ | .failed _ => (false, none)
  | .unfinished reason => (false, some (.ignoreUnchecked top root reason))

/-- The records that NUL separates, without the empty ones. -/
def records (stdout : Bytes) : List Bytes := (stdout.splitOn 0).filter (· ≠ [])

/-- Goes through the records, with the names so far and the number of those that are not UTF-8. -/
def decode (root : Bytes) (maxFiles : Nat) (names : List Text) (undecodable : Nat) :
    List Bytes → Except WalkError (List Text × Nat)
  | [] => .ok (names, undecodable)
  | record :: rest =>
    match (CodePointString.mk record).asStr with
    | none => decode root maxFiles names (undecodable + 1) rest
    | some name =>
      if name ∈ names then decode root maxFiles names undecodable rest
      else if maxFiles < (names ++ [name]).length then .error (tooManyFiles maxFiles root)
      else decode root maxFiles (names ++ [name]) undecodable rest

def decodedNames (stdout root : Bytes) (maxFiles : Nat) : Except WalkError (List Text × Nat) :=
  decode root maxFiles [] 0 (records stdout)

def listedNames (root : Bytes) (outcome : GitOutcome) (maxFiles : Nat) :
    Except WalkError (List Text × List WalkWarning) :=
  match outcome with
  | .capped _ => .error (.listingCapped root)
  | .failed failure => .error (.unlisted root (.inl failure))
  | .unfinished reason => .error (.unlisted root (.inr reason))
  | .printed stdout =>
    (decodedNames stdout root maxFiles).map fun (names, count) =>
      (names, if 0 < count then [.notUtf8 count root] else [])

/-! ## The names of the bounded walk -/

section Walked

variable (disk : Disk) (reads : Text → Nat → Bool)

/-- The path below the root. One outside the root keeps its absolute form. -/
def relative (root file : Bytes) : Option Text :=
  (CodePointString.mk ((stripPrefix file root).getD file)).asStr

/-- Nothing when the bounded walk does not end. -/
def walked (root : Bytes) : Option Found :=
  (Io.Walk.walk disk maxBounds reads root).map fun walk =>
    let warnings := walk.skipped.map .skipped
    match walk.files with
    | .error refusal => ⟨.error (.refused refusal), warnings⟩
    | .ok files =>
      let names := files.filterMap (relative root)
      let count := files.length - names.length
      ⟨.ok names, warnings ++ if 0 < count then [.notUtf8Walked count root] else []⟩

end Walked

/-! ## Admission -/

section Admit

variable (root : Bytes) (bounds : Bounds) (reads : Text → Nat → Bool)
  (probe : Bytes → Option (Option Nat))

/-- Goes through the names, with the files and warnings so far and the bytes they count. -/
def admitEach (files : List RepoFile) (warnings : List WalkWarning) (total : Nat) :
    List Text → Walk
  | [] => ⟨.ok files, warnings⟩
  | name :: names =>
    let candidate := join root (utf8 name)
    match probe candidate with
    | none => admitEach files warnings total names
    | some size =>
      let depth := (components (utf8 name)).length - 1
      if bounds.depth < depth then ⟨.error (.tooDeep depth bounds.depth root), warnings⟩
      else
        match size with
        | none => admitEach files (warnings ++ [.skipped (.unstatable candidate)]) total names
        | some size =>
          let total := saturatingAdd total (countedBytes reads name size)
          if bounds.files ≤ files.length then ⟨.error (tooManyFiles bounds.files root), warnings⟩
          else if bounds.bytes < total then
            ⟨.error (.refused (.tooManyBytes bounds.bytes root)), warnings⟩
          else admitEach (files ++ [⟨name, size⟩]) warnings total names

/-- The names in path order, each once. -/
def pathOrder (names : List Text) : List Text := (names.insertionSort (· ≤ ·)).destutter (· ≠ ·)

def admitAll (names : List Text) : Walk := admitEach root bounds reads probe [] [] 0 (pathOrder names)

end Admit

/-! ## The walk -/

section Walk

variable (disk : Disk) (git : Answers) (bounds : Bounds) (reads : Text → Nat → Bool)

def resolvedDirectory (root : Bytes) : Except WalkError Bytes :=
  match walkable disk root with
  | .error refusal => .error (.refused refusal)
  | .ok resolved => .ok resolved

def listingSpeaksFor (root : Bytes) : Bool × Option WalkWarning :=
  match git.root root with
  | none => (false, none)
  | some top =>
    if top = root then (true, none)
    else
      let (ignored, warning) := ignoreVerdict top root (git.checkIgnore top root)
      (!ignored, warning)

def names (root : Bytes) (maxFiles : Nat) : Option Found :=
  let (listed, unchecked) := listingSpeaksFor git root
  let found :=
    if listed then
      match listedNames root (git.lsFiles root) maxFiles with
      | .ok (names, warnings) => some ⟨.ok names, warnings⟩
      | .error error => some ⟨.error error, []⟩
    else walked disk reads root
  found.map fun found => ⟨found.names, unchecked.toList ++ found.warnings⟩

def walkWithin (root : Bytes) : Option Walk :=
  match resolvedDirectory disk root with
  | .error error => some ⟨.error error, []⟩
  | .ok root =>
    (names disk git reads root bounds.files).map fun found =>
      match found.names with
      | .error error => ⟨.error error, found.warnings⟩
      | .ok names =>
        let admitted := admitAll root bounds reads (containedFileSize disk · root) names
        ⟨admitted.files, found.warnings ++ admitted.warnings⟩

def walk (root : Bytes) : Option Walk := walkWithin disk git maxBounds reads root

end Walk

/-! ## What is admitted -/

section Admitted

variable {root : Bytes} {bounds : Bounds} {reads : Text → Nat → Bool}
  {probe : Bytes → Option (Option Nat)} {names names' : List Text} {name : Text}
  {files : List RepoFile}

theorem mem_pathOrder : name ∈ pathOrder names ↔ name ∈ names := by
  rw [pathOrder, Sequence.mem_destutter_ne, List.mem_insertionSort]

theorem pairwise_pathOrder : (pathOrder names).Pairwise (· < ·) :=
  Sequence.pairwise_lt_destutter_insertionSort names

/-- The file of a name that the probe measures. -/
def probed (root : Bytes) (probe : Bytes → Option (Option Nat)) (name : Text) : Option RepoFile :=
  (probe (join root (utf8 name))).join.map (RepoFile.mk name)

theorem admitEach_ok {warnings : List WalkWarning} {total : Nat} {before : List RepoFile}
    (h : (admitEach root bounds reads probe before warnings total names).files = .ok files) :
    files = before ++ names.filterMap (probed root probe) := by
  induction names generalizing before warnings total with
  | nil =>
    rw [admitEach] at h
    simpa [eq_comm] using h
  | cons name names ih =>
    unfold admitEach at h
    dsimp only at h
    split at h
    · rename_i hprobe
      rw [ih h, List.filterMap_cons_none]
      simp [probed, hprobe]
    · rename_i size hprobe
      split at h
      · cases h
      cases size with
      | none =>
        rw [ih h, List.filterMap_cons_none]
        simp [probed, hprobe]
      | some size =>
        dsimp only at h
        split at h
        · cases h
        split at h
        · cases h
        have hprobed : probed root probe name = some ⟨name, size⟩ := by simp [probed, hprobe]
        rw [ih h, List.append_assoc, List.filterMap_cons_some hprobed]
        rfl

theorem admitAll_ok (h : (admitAll root bounds reads probe names).files = .ok files) :
    files = (pathOrder names).filterMap (probed root probe) := by
  simpa using admitEach_ok h

theorem mem_filterMap_probed {file : RepoFile} :
    file ∈ (pathOrder names).filterMap (probed root probe) ↔
      file.path ∈ names ∧ probed root probe file.path = some file := by
  simp only [List.mem_filterMap, mem_pathOrder]
  constructor
  · rintro ⟨name, hname, hfile⟩
    obtain ⟨size, -, rfl⟩ := Option.map_eq_some_iff.mp hfile
    exact ⟨hname, hfile⟩
  · exact fun h => ⟨file.path, h⟩

/-- Two lists of names give the same files when they agree on what the probe measures. -/
theorem filterMap_probed_eq_iff :
    (pathOrder names).filterMap (probed root probe) =
        (pathOrder names').filterMap (probed root probe) ↔
      ∀ name, (probed root probe name).isSome → (name ∈ names ↔ name ∈ names') := by
  constructor
  · intro h name hname
    obtain ⟨file, hfile⟩ := Option.isSome_iff_exists.mp hname
    obtain ⟨size, -, rfl⟩ := Option.map_eq_some_iff.mp hfile
    have hmem (names : List Text) : name ∈ names ↔
        ⟨name, size⟩ ∈ (pathOrder names).filterMap (probed root probe) := by
      rw [mem_filterMap_probed, and_iff_left hfile]
    rw [hmem names, h, ← hmem]
  · intro h
    have hfilter : (pathOrder names).filter (probed root probe · |>.isSome) =
        (pathOrder names').filter (probed root probe · |>.isSome) := by
      refine (pairwise_pathOrder.filter _).eq_of_mem_iff (pairwise_pathOrder.filter _) fun name => ?_
      simp only [List.mem_filter, mem_pathOrder]
      exact and_congr_left (h name)
    have hdrop (names : List Text) : (pathOrder names).filterMap (probed root probe) =
        ((pathOrder names).filter (probed root probe · |>.isSome)).filterMap (probed root probe) := by
      rw [List.filterMap_filter]
      refine List.filterMap_congr fun name _ => ?_
      cases probed root probe name <;> simp
    rw [hdrop names, hfilter, ← hdrop]

end Admitted

/-! ## The names of the two routes -/

section Names

variable {root : Bytes} {names : List Text} {name : Text} {base rest : Location}

theorem decode_ok {maxFiles : Nat} {pending : List Bytes} {before : List Text} {counted count : Nat}
    (h : decode root maxFiles before counted pending = .ok (names, count)) :
    name ∈ names ↔ name ∈ before ∨ utf8 name ∈ pending := by
  induction pending generalizing before counted with
  | nil =>
    rw [decode] at h
    cases h
    simp
  | cons record pending ih =>
    unfold decode at h
    split at h
    · rename_i hrecord
      have hne : utf8 name ≠ record := by
        rintro rfl
        cases hrecord.symm.trans (CodePointString.asStr_eq_some_iff.mpr rfl)
      rw [ih h, List.mem_cons, or_iff_right hne]
    · rename_i text hrecord
      obtain rfl : record = utf8 text := CodePointString.asStr_eq_some_iff.mp hrecord
      split_ifs at h with hseen
      · grind [utf8_injective]
      · grind [utf8_injective]

theorem renderRelative_injective {other : Location} (hrest : rest ≠ []) (hother : other ≠ [])
    (h : renderRelative rest = renderRelative other) : rest = other := by
  refine Io.Contain.render_injective ?_
  rw [← List.nil_append rest, ← List.nil_append other, ← join_renderRelative [] hrest, h,
    join_renderRelative [] hother]

theorem exists_utf8_renderRelative
    (h : ∀ name ∈ rest, (CodePointString.mk name.bytes).asStr.isSome) :
    ∃ text, renderRelative rest = utf8 text := by
  induction rest using List.reverseRecOn with
  | nil => exact ⟨[], rfl⟩
  | append_singleton rest name ih =>
    obtain ⟨last, hlast⟩ := Option.isSome_iff_exists.mp (h name (by simp))
    have hname : name.bytes = utf8 last := CodePointString.asStr_eq_some_iff.mp hlast
    rcases eq_or_ne rest [] with rfl | hrest
    · exact ⟨last, by simpa [renderRelative] using hname⟩
    · obtain ⟨text, htext⟩ := ih fun name hname => h name (by simp [hname])
      refine ⟨text ++ '/' :: last, ?_⟩
      rw [renderRelative_concat hrest, htext, hname, utf8_append, utf8_cons]
      rfl

end Names

/-! ## Where the routes agree -/

/-- Git's listing names the entries below the root that are no directories. -/
def Lists (tree : Tree) (base : Location) (stdout : Bytes) : Prop :=
  ∀ record, record ∈ records stdout ↔ ∃ rest node,
    record = renderRelative rest ∧ tree.node (base ++ rest) = some node ∧ node ≠ .directory

/-- A link below the root that leads to a directory at or below it. -/
structure DirectoryLink (disk : Disk) (base place : Location) : Prop where
  below : base <+: place
  link : ∃ target, disk.tree.node place = some (.link target)
  inside : ∃ there, canonicalize disk (render place) = some there ∧ base <+: there ∧
    disk.tree.node there = some .directory

section Agree

variable {disk : Disk} {base place rest : Location} {names : List Text} {name : Text}

theorem lstat_entry (hne : place ≠ []) (hplace : (disk.tree.node place).isSome) :
    disk.tree.lstat disk.limit (render place) = disk.tree.node place := by
  obtain ⟨parent, last, rfl⟩ := place.eq_nil_or_concat.resolve_left hne
  rw [List.concat_eq_append] at hplace ⊢
  exact Tree.lstat_render (Tree.node_of_node_concat hplace)

theorem directoryLink_iff (hne : place ≠ []) (hplace : (disk.tree.node place).isSome)
    (hbelow : base <+: place) :
    DirectoryLink disk base place ↔ namesDirectory disk (render place) = true ∧
      admitted disk (render base) (render place) = true := by
  have hlstat := lstat_entry hne hplace
  cases hnode : disk.tree.node place with
  | none => simp [hnode] at hplace
  | some node =>
    rw [hnode] at hlstat
    cases node with
    | directory =>
      refine iff_of_false ?_ ?_
      · rintro ⟨-, ⟨target, hlink⟩, -⟩
        cases hnode.symm.trans hlink
      · simp [admitted, containedFileSize, hlstat]
    | file =>
      refine iff_of_false ?_ ?_
      · rintro ⟨-, ⟨target, hlink⟩, -⟩
        cases hnode.symm.trans hlink
      · simp [namesDirectory, hlstat]
    | link target =>
      simp only [namesDirectory, admitted, containedFileSize, hlstat, isDir, fileSize]
      cases hthere : canonicalize disk (render place) with
      | none =>
        refine iff_of_false ?_ (by simp)
        rintro ⟨-, -, there, h, -⟩
        cases hthere.symm.trans h
      | some there =>
        have hinside : startsWith (render there) (render base) = true ↔ base <+: there :=
          startsWith_render
        constructor
        · rintro ⟨-, -, there', h, hpre, hdirectory⟩
          obtain rfl := Option.some.inj (hthere.symm.trans h)
          simp [hdirectory, hinside.mpr hpre]
        · intro h
          simp only [Option.bind_some, decide_eq_true_eq, Option.any_some] at h
          refine ⟨hbelow, ⟨target, hnode⟩, there, hthere, ?_, h.1⟩
          by_contra hpre
          simp [mt hinside.mp hpre] at h

theorem isSome_probed :
    (probed (render base) (containedFileSize disk · (render base)) name).isSome =
      admitted disk (render base) (join (render base) (utf8 name)) := by
  rw [probed, Option.isSome_map, admitted]

theorem mem_of_listed {stdout root : Bytes} {maxFiles count : Nat}
    (hlists : Lists disk.tree base stdout)
    (h : decodedNames stdout root maxFiles = .ok (names, count)) :
    name ∈ names ↔ ∃ rest node, utf8 name = renderRelative rest ∧
      disk.tree.node (base ++ rest) = some node ∧ node ≠ .directory := by
  rw [decode_ok h, ← hlists]
  simp

theorem mem_walkedPlaces :
    place ∈ walkedPlaces disk base ↔ ∃ rest, rest ≠ [] ∧ place = base ++ rest ∧
      (disk.tree.node place).isSome ∧ namesDirectory disk (render place) = false ∧
      admitted disk (render base) (render place) := by
  simp only [walkedPlaces, List.mem_flatMap, Tree.mem_below, mem_taken]
  constructor
  · rintro ⟨parent, ⟨⟨rest, rfl⟩, -⟩, last, rfl, hentry⟩
    exact ⟨rest ++ [last], by simp, by simp, hentry⟩
  · rintro ⟨rest, hrest, rfl, hnode, hentry⟩
    obtain ⟨rest, last, rfl⟩ := rest.eq_nil_or_concat.resolve_left hrest
    rw [List.concat_eq_append, ← List.append_assoc] at hnode hentry ⊢
    exact ⟨base ++ rest, ⟨List.prefix_append _ _, Tree.node_of_node_concat hnode⟩, last, rfl, hnode,
      hentry⟩

theorem mem_of_walked {reads : Text → Nat → Bool} (hnames : TextNames disk.tree)
    (hinodes : DistinctInodes disk) (hbase : disk.tree.node base = some .directory) :
    ∃ found, walked disk reads (render base) = some found ∧ ∀ names, found.names = .ok names →
      ∀ name, name ∈ names ↔ ∃ rest, utf8 name = renderRelative rest ∧
        base ++ rest ∈ walkedPlaces disk base := by
  obtain ⟨whole, hwalk, hfiles⟩ : ∃ whole, Io.Walk.walk disk maxBounds reads (render base) = some whole ∧
      ∀ files, whole.files = .ok files → files.Perm ((walkedPlaces disk base).map render) :=
    walk_files hinodes (walkable_render hnames hbase) hbase
  rw [walked, hwalk]
  refine ⟨_, rfl, fun names h name => ?_⟩
  dsimp only at h
  split at h
  · cases h
  · rename_i files hwhole
    obtain rfl := Except.ok.inj h
    simp only [List.mem_filterMap, (hfiles files hwhole).mem_iff, List.mem_map]
    constructor
    · rintro ⟨file, ⟨place, hplace, rfl⟩, hrelative⟩
      obtain ⟨rest, -, rfl, -⟩ := mem_walkedPlaces.mp hplace
      rw [relative, stripPrefix_render] at hrelative
      exact ⟨rest, (CodePointString.asStr_eq_some_iff.mp hrelative).symm, hplace⟩
    · rintro ⟨rest, hrest, hplace⟩
      refine ⟨_, ⟨_, hplace, rfl⟩, ?_⟩
      rw [relative, stripPrefix_render]
      exact CodePointString.asStr_eq_some_iff.mpr hrest.symm

/-- The names of the two routes differ, among those that are admitted, in the links to directories
inside the root. -/
theorem names_agree_iff {listed walked : List Text} (hnames : TextNames disk.tree)
    (hbase : disk.tree.node base = some .directory)
    (hlisted : ∀ name, name ∈ listed ↔ ∃ rest node, utf8 name = renderRelative rest ∧
      disk.tree.node (base ++ rest) = some node ∧ node ≠ .directory)
    (hwalked : ∀ name, name ∈ walked ↔ ∃ rest, utf8 name = renderRelative rest ∧
      base ++ rest ∈ walkedPlaces disk base) :
    (∀ name, admitted disk (render base) (join (render base) (utf8 name)) →
        (name ∈ listed ↔ name ∈ walked)) ↔
      ∀ place, ¬DirectoryLink disk base place := by
  constructor
  · intro h place hlink
    obtain ⟨⟨rest, rfl⟩, ⟨target, hnode⟩, -⟩ := id hlink
    have hrest : rest ≠ [] := by
      rintro rfl
      rw [List.append_nil, hbase] at hnode
      cases hnode
    have hentry : (disk.tree.node (base ++ rest)).isSome := by simp [hnode]
    obtain ⟨hdirectory, hadmitted⟩ :=
      (directoryLink_iff (by simp [hrest]) hentry (List.prefix_append _ _)).mp hlink
    obtain ⟨name, hname⟩ : ∃ name, renderRelative rest = utf8 name :=
      exists_utf8_renderRelative fun part hpart =>
        (hnames.of_node hentry part (List.mem_append_right _ hpart)).2
    rw [← join_renderRelative base hrest, hname] at hadmitted
    have hmem := (hlisted name).mpr ⟨rest, _, hname.symm, hnode, by simp⟩
    obtain ⟨other, hother, hplace⟩ := (hwalked name).mp ((h name hadmitted).mp hmem)
    obtain ⟨other', hother', hsame, -, hno, -⟩ := mem_walkedPlaces.mp hplace
    obtain rfl := List.append_cancel_left hsame
    obtain rfl := renderRelative_injective hrest hother' (hname.trans hother)
    rw [hdirectory] at hno
    cases hno
  · intro h name hadmitted
    rw [hlisted, hwalked]
    constructor
    · rintro ⟨rest, node, hname, hnode, hne⟩
      have hrest : rest ≠ [] := by
        rintro rfl
        rw [List.append_nil, hbase] at hnode
        exact hne (Option.some.inj hnode).symm
      have hentry : (disk.tree.node (base ++ rest)).isSome := by simp [hnode]
      rw [hname, join_renderRelative base hrest] at hadmitted
      refine ⟨rest, hname, mem_walkedPlaces.mpr ⟨rest, hrest, rfl, hentry, ?_, hadmitted⟩⟩
      rw [← Bool.not_eq_true]
      intro hdirectory
      exact h _ ((directoryLink_iff (by simp [hrest]) hentry (List.prefix_append _ _)).mpr
        ⟨hdirectory, hadmitted⟩)
    · rintro ⟨rest, hname, hplace⟩
      obtain ⟨rest', hrest, hsame, hentry, hno, -⟩ := mem_walkedPlaces.mp hplace
      obtain rfl := List.append_cancel_left hsame
      obtain ⟨node, hnode⟩ := Option.isSome_iff_exists.mp hentry
      refine ⟨rest, node, hname, hnode, ?_⟩
      rintro rfl
      have hlstat := lstat_entry (by simp [hrest]) hentry
      simp [namesDirectory, hlstat, hnode] at hno

section Routes

variable {git : Answers} {reads : Text → Nat → Bool} {root stdout : Bytes}

variable (disk base) in
/-- What is admitted from the names of a route. -/
def filesOf (names : List Text) : List RepoFile :=
  (pathOrder names).filterMap (probed (render base) (containedFileSize disk · (render base)))

/-- The route by git's listing. -/
theorem walk_listed (hroot : walkable disk root = .ok (render base))
    (hspeaks : (listingSpeaksFor git (render base)).1 = true)
    (hstdout : git.lsFiles (render base) = .printed stdout) :
    ∃ whole, walk disk git reads root = some whole ∧ ∀ files, whole.files = .ok files →
      ∃ names count, decodedNames stdout (render base) maxBounds.files = .ok (names, count) ∧
        files = filesOf disk base names := by
  simp only [walk, walkWithin, resolvedDirectory, hroot, names, hspeaks, if_true, hstdout,
    listedNames]
  cases hdecoded : decodedNames stdout (render base) maxBounds.files with
  | error error => exact ⟨_, rfl, fun files hfiles => by cases hfiles⟩
  | ok decoded =>
    obtain ⟨names, count⟩ := decoded
    exact ⟨_, rfl, fun files hfiles => ⟨names, count, rfl, admitAll_ok hfiles⟩⟩

/-- The route by the bounded walk. -/
theorem walk_walked (hroot : walkable disk root = .ok (render base))
    (hspeaks : (listingSpeaksFor git (render base)).1 = false) {found : Found}
    (hfound : walked disk reads (render base) = some found) :
    ∃ whole, walk disk git reads root = some whole ∧ ∀ files, whole.files = .ok files →
      ∃ names, found.names = .ok names ∧ files = filesOf disk base names := by
  simp only [walk, walkWithin, resolvedDirectory, hroot, names, hspeaks, hfound,
    Bool.false_eq_true, if_false]
  cases hnames : found.names with
  | error error => exact ⟨_, rfl, fun files hfiles => by simp [hnames] at hfiles⟩
  | ok names => exact ⟨_, rfl, fun files hfiles => ⟨names, rfl, admitAll_ok (by simpa [hnames] using hfiles)⟩⟩

end Routes

end Agree

/-- The bounded walk ends and lists no path twice. Where git's listing names the entries below the
root that are no directories and neither route refuses, the two routes give the same files if and
only if no link below the root leads to a directory inside it. -/
theorem walk_agrees_iff {disk : Disk} (hnames : TextNames disk.tree)
    (hinodes : DistinctInodes disk) (reads : Text → Nat → Bool) :
    (∀ bounds root, ∃ walked, Io.Walk.walk disk bounds reads root = some walked ∧
      ∀ files, walked.files = .ok files → files.Nodup) ∧
    ∀ root base stdout git git', walkable disk root = .ok (render base) →
      (listingSpeaksFor git (render base)).1 = true →
      git.lsFiles (render base) = .printed stdout → Lists disk.tree base stdout →
      (listingSpeaksFor git' (render base)).1 = false →
      ∃ listed walked, walk disk git reads root = some listed ∧
        walk disk git' reads root = some walked ∧
        ∀ files files', listed.files = .ok files → walked.files = .ok files' →
          (files = files' ↔ ∀ place, ¬DirectoryLink disk base place) := by
  refine ⟨fun bounds root => walk_nodup hinodes, ?_⟩
  intro root base stdout git git' hroot hspeaks hstdout hlists hsilent
  obtain ⟨base', hbase', hdirectory⟩ := walkable_eq_ok hroot
  obtain rfl := Io.Contain.render_injective hbase'
  obtain ⟨found, hfound, hmem⟩ := mem_of_walked hnames hinodes hdirectory
  obtain ⟨listed, hlisted, hfiles⟩ := walk_listed hroot hspeaks hstdout
  obtain ⟨walked, hwalked, hfiles'⟩ := walk_walked hroot hsilent hfound
  refine ⟨listed, walked, hlisted, hwalked, fun files files' h h' => ?_⟩
  obtain ⟨names, count, hdecoded, rfl⟩ := hfiles files h
  obtain ⟨names', hnames', rfl⟩ := hfiles' files' h'
  rw [filesOf, filesOf, filterMap_probed_eq_iff, ← names_agree_iff hnames hdirectory
    (fun _ => mem_of_listed hlists hdecoded) (hmem names' hnames')]
  simp only [isSome_probed]

theorem distinctInodes_of_nodup {disk : Disk} (h : (disk.tree.directories.map disk.inode).Nodup) :
    DistinctInodes disk :=
  fun _ _ hplace hplace' hsame => List.inj_on_of_nodup_map h (Tree.mem_directories.mpr hplace)
    (Tree.mem_directories.mpr hplace') hsame

def Linked.g : Name := ⟨utf8 "g".toList, by decide, by decide, by decide, by decide⟩

def Linked.d : Name := ⟨utf8 "d".toList, by decide, by decide, by decide, by decide⟩

def Linked.f : Name := ⟨utf8 "f".toList, by decide, by decide, by decide, by decide⟩

def Linked.l : Name := ⟨utf8 "l".toList, by decide, by decide, by decide, by decide⟩

/-- A root with a directory, a file in it and a link to it. -/
def linked : Disk where
  tree :=
    { entries :=
        [([Linked.g], .directory), ([Linked.g, Linked.d], .directory),
          ([Linked.g, Linked.d, Linked.f], .file), ([Linked.g, Linked.l], .link (utf8 "d".toList))]
      directory_of_entry := by decide }
  limit := 40
  cwd := none
  directory_of_cwd := by simp
  size place := if place.length = 3 then 1 else 4096
  inode place := (1, place.length)

def ownerStdout : Bytes := utf8 "d/f".toList ++ 0 :: utf8 "l".toList ++ [0]

/-- Git owns the root `/g` and lists its file and its link. -/
def owner : Answers where
  root := some
  checkIgnore _ _ := .printed []
  lsFiles _ := .printed ownerStdout

/-- No repository encloses the root. -/
def stranger : Answers := { owner with root := fun _ => none }

theorem linked_inodes : DistinctInodes linked := distinctInodes_of_nodup (by decide)

theorem linked_lists : Lists linked.tree [Linked.g] ownerStdout := by
  have hrecords : records ownerStdout =
      [renderRelative [Linked.d, Linked.f], renderRelative [Linked.l]] := by decide
  intro record
  rw [hrecords]
  constructor
  · intro h
    rcases List.mem_pair.mp h with rfl | rfl
    · exact ⟨_, .file, rfl, by decide, by decide⟩
    · exact ⟨_, .link (utf8 "d".toList), rfl, by decide, by decide⟩
  · rintro ⟨rest, node, rfl, hnode, hne⟩
    have hmem := Tree.mem_entries_of_node (by simp) hnode
    simp only [linked, List.mem_cons, Prod.mk.injEq, List.cons_append, List.nil_append,
      List.cons.injEq, List.not_mem_nil, or_false, true_and] at hmem
    rcases hmem with ⟨-, rfl⟩ | ⟨-, rfl⟩ | ⟨rfl, -⟩ | ⟨rfl, -⟩
    · exact absurd rfl hne
    · exact absurd rfl hne
    · simp
    · simp

theorem walk_misses_directoryLink :
    TextNames linked.tree ∧ DistinctInodes linked ∧
      Lists linked.tree [Linked.g] ownerStdout ∧
      (walk linked owner (fun _ _ => true) (utf8 "/g".toList)).map Walk.files =
        some (.ok [⟨"d/f".toList, 1⟩, ⟨"l".toList, 4096⟩]) ∧
      (walk linked stranger (fun _ _ => true) (utf8 "/g".toList)).map Walk.files =
        some (.ok [⟨"d/f".toList, 1⟩]) := by
  refine ⟨by decide +kernel, linked_inodes, linked_lists, ?_, ?_⟩
  · with_unfolding_all rfl
  · with_unfolding_all rfl

theorem walkable_linked : walkable linked (utf8 "/g".toList) = .ok (render [Linked.g]) := by
  with_unfolding_all rfl

theorem walk_agrees_iff_linked :
    ∃ listed walked, walk linked owner (fun _ _ => true) (utf8 "/g".toList) = some listed ∧
      walk linked stranger (fun _ _ => true) (utf8 "/g".toList) = some walked ∧
      ∀ files files', listed.files = .ok files → walked.files = .ok files' →
        (files = files' ↔ ∀ place, ¬DirectoryLink linked [Linked.g] place) :=
  (walk_agrees_iff (by decide +kernel) linked_inodes _).2 _ _ _ owner stranger walkable_linked
    (by decide) rfl linked_lists (by decide)

end Agentless.Git
