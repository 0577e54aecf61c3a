import Agentless.Io.ContainExact
import Agentless.Library.Directories
import Agentless.Text.CodePointOrder

/-!
# The bounded walk

Each file below a root that stays inside it, depth first and sorted by name in each directory. The
walk enters no symlinked directory and each directory once, and it stops at the first bound that
the tree passes. Where it passes none, the files are those of every directory below the root, each
once.
-/

namespace Agentless.Io.Walk

open Posix StdPath Contain

/-- A host with the sizes of its entries and the device and inode of each place. -/
structure Disk extends Host where
  size : Location → Nat
  inode : Location → Nat × Nat

structure Bounds where
  depth : Nat
  files : Nat
  bytes : Nat
deriving DecidableEq

def maxBounds : Bounds := ⟨20, 20000, 200000000⟩

inductive WalkSkip where
  | unlisted (path : Bytes)
  | unstatable (path : Bytes)
  | revisited (path : Bytes) (inode : Nat × Nat)
deriving DecidableEq

inductive WalkRefusal where
  | notDirectory (root : Bytes)
  | tooDeep (depth limit : Nat) (root : Bytes)
  | tooManyFiles (limit : Nat) (root : Bytes)
  | tooManyBytes (limit : Nat) (root : Bytes)
deriving DecidableEq

/-! ## System calls -/

section Calls

variable (disk : Disk)

/-- The place that an absolute path leads to, every link followed. -/
def canonicalize (path : Bytes) : Option Location := disk.tree.follow true disk.limit [] (parts path)

def isDir (path : Bytes) : Bool := (canonicalize disk path).bind disk.tree.node = some .directory

def isSymlink (path : Bytes) : Bool :=
  match disk.tree.lstat disk.limit path with
  | some (.link _) => true
  | _ => false

def fileSize (path : Bytes) : Option Nat := (canonicalize disk path).map disk.size

/-- The size of a candidate that is a regular file, or a link that leads inside the root. -/
def containedFileSize (candidate root : Bytes) : Option (Option Nat) :=
  match disk.tree.lstat disk.limit candidate with
  | none => none
  | some (.link _) =>
    if (canonicalize disk candidate).any fun target => startsWith (render target) root then
      some (fileSize disk candidate)
    else none
  | some .file => some (fileSize disk candidate)
  | some .directory => none

/-- The names in the directory at a path. -/
def readDir (directory : Bytes) : Option (List Name) :=
  match canonicalize disk directory with
  | none => none
  | some place =>
    if disk.tree.node place = some .directory then some (disk.tree.names place) else none

end Calls

/-! ## Names in order -/

/-- The code points of a name as it is sorted. -/
def fromUtf8Escaped (bytes : Bytes) : List Nat :=
  CodePointString.escapedCodePoints bytes.length bytes

def sorted (names : List Name) : List Name :=
  names.insertionSort fun x y => fromUtf8Escaped x.bytes ≤ fromUtf8Escaped y.bytes

/-! ## The walker -/

structure Walker where
  seen : List (Nat × Nat) := []
  bytes : Nat := 0
  files : List Bytes := []
  skipped : List WalkSkip := []

/-- The subdirectories and the other entries of a directory, by name. -/
structure Listing where
  directories : List Name
  others : List Name

def saturatingAdd (x y : Nat) : Nat := min (x + y) (2 ^ 64 - 1)

section Walker

variable (disk : Disk) (bounds : Bounds) (reads : Text → Nat → Bool) (root : Bytes)

/-- An entry counts as a directory when it names one, through a symlink too. -/
def namesDirectory (path : Bytes) : Bool :=
  match disk.tree.lstat disk.limit path with
  | some (.link _) => isDir disk path
  | some .directory => true
  | _ => false

def list (directory : Bytes) : Option Listing :=
  (readDir disk directory).map fun names =>
    let (directories, others) := names.partition fun name =>
      namesDirectory disk (join directory name.bytes)
    ⟨directories, others⟩

def depthOf (directory : Bytes) : Nat :=
  match stripPrefix directory root with
  | some relative => (components relative).length
  | none => 0

/-- Records the directory by device and inode, unless it was walked before. -/
def claim (walker : Walker) (directory : Bytes) : Walker × Bool :=
  match (canonicalize disk directory).map disk.inode with
  | none => ({ walker with skipped := walker.skipped ++ [.unstatable directory] }, false)
  | some inode =>
    if inode ∈ walker.seen then
      ({ walker with skipped := walker.skipped ++ [.revisited directory inode] }, false)
    else ({ walker with seen := inode :: walker.seen }, true)

def countedBytes (path : Text) (size : Nat) : Nat := if reads path size then size else 0

/-- A name that is not UTF-8 is never scanned, so it adds no bytes. -/
def counted (candidate : Bytes) (size : Nat) : Nat :=
  match (stripPrefix candidate root).bind fun relative => (CodePointString.mk relative).asStr with
  | some path => countedBytes reads path size
  | none => 0

def takeFile (walker : Walker) (candidate : Bytes) : Walker × Option WalkRefusal :=
  match containedFileSize disk candidate root with
  | none => (walker, none)
  | some none => ({ walker with skipped := walker.skipped ++ [.unstatable candidate] }, none)
  | some (some size) =>
    if bounds.files ≤ walker.files.length then (walker, some (.tooManyFiles bounds.files root))
    else
      let total := saturatingAdd walker.bytes (counted reads root candidate size)
      let walker := { walker with bytes := total }
      if bounds.bytes < total then (walker, some (.tooManyBytes bounds.bytes root))
      else ({ walker with files := walker.files ++ [candidate] }, none)

def takeFiles (walker : Walker) : List Bytes → Walker × Option WalkRefusal
  | [] => (walker, none)
  | candidate :: candidates =>
    match takeFile disk bounds reads root walker candidate with
    | (walker, none) => takeFiles walker candidates
    | (walker, some refusal) => (walker, some refusal)

/-- Takes the files of a directory, and gives its subdirectories in walk order. -/
def visit (walker : Walker) (directory : Bytes) : Walker × Except WalkRefusal (List Bytes) :=
  match list disk directory with
  | none => ({ walker with skipped := walker.skipped ++ [.unlisted directory] }, .ok [])
  | some listing =>
    let depth := depthOf root directory
    if bounds.depth < depth then (walker, .error (.tooDeep depth bounds.depth root))
    else
      match claim disk walker directory with
      | (walker, false) => (walker, .ok [])
      | (walker, true) =>
        match takeFiles disk bounds reads root walker
          ((sorted listing.others).map fun name => join directory name.bytes) with
        | (walker, some refusal) => (walker, .error refusal)
        | (walker, none) =>
          (walker, .ok (((sorted listing.directories).map fun name => join directory name.bytes).filter
            fun path => !isSymlink disk path))

/-- At most `rounds` rounds of the loop, and nothing when directories are left after them. -/
def loop : Nat → List Bytes → Walker → Option (Walker × Option WalkRefusal)
  | _, [], walker => some (walker, none)
  | 0, _ :: _, _ => none
  | rounds + 1, directory :: pending, walker =>
    match visit disk bounds reads root walker directory with
    | (walker, .error refusal) => some (walker, some refusal)
    | (walker, .ok subdirectories) => loop rounds (subdirectories ++ pending) walker

end Walker

structure Walked where
  files : Except WalkRefusal (List Bytes)
  skipped : List WalkSkip

section Walk

variable (disk : Disk) (bounds : Bounds) (reads : Text → Nat → Bool)

/-- The resolved root, when it names a directory. -/
def walkable (root : Bytes) : Except WalkRefusal Bytes :=
  match resolve disk.toHost root with
  | .error _ => .error (.notDirectory root)
  | .ok resolved => if isDir disk resolved then .ok resolved else .error (.notDirectory resolved)

/-- More rounds than the loop takes, as `loop_terminates` shows. -/
def walkRounds : Nat := disk.tree.entries.length + 1

def walk (root : Bytes) : Option Walked :=
  match walkable disk root with
  | .error refusal => some ⟨.error refusal, []⟩
  | .ok root =>
    (loop disk bounds reads root (walkRounds disk) [root] {}).map fun (walker, refusal) =>
      match refusal with
      | none => ⟨.ok walker.files, walker.skipped⟩
      | some refusal => ⟨.error refusal, walker.skipped⟩

end Walk

/-! ## Calls on the paths of places -/

section Places

variable {disk : Disk} {place : Location} {name : Name}

theorem canonicalize_render (h : disk.tree.node place = some .directory) :
    canonicalize disk (render place) = some place :=
  Tree.follow_render_directory h

theorem isDir_render (h : disk.tree.node place = some .directory) :
    isDir disk (render place) = true := by
  simp [isDir, canonicalize_render h, h]

theorem namesDirectory_render (h : disk.tree.node place = some .directory) :
    namesDirectory disk (render (place ++ [name])) =
      match disk.tree.node (place ++ [name]) with
      | some (.link _) => isDir disk (render (place ++ [name]))
      | some .directory => true
      | _ => false := by
  rw [namesDirectory, Tree.lstat_render h]

theorem isSymlink_render (h : disk.tree.node place = some .directory) :
    isSymlink disk (render (place ++ [name])) = true ↔
      ∃ target, disk.tree.node (place ++ [name]) = some (.link target) := by
  rw [isSymlink, Tree.lstat_render h]
  cases disk.tree.node (place ++ [name]) with
  | none => simp
  | some node => cases node <;> simp

theorem node_eq_directory_iff (h : disk.tree.node place = some .directory) :
    disk.tree.node (place ++ [name]) = some .directory ↔
      namesDirectory disk (render (place ++ [name])) = true ∧
        isSymlink disk (render (place ++ [name])) = false := by
  rw [namesDirectory_render h, ← Bool.not_eq_true, isSymlink_render h]
  cases disk.tree.node (place ++ [name]) with
  | none => simp
  | some node => cases node <;> simp

variable (disk) in
/-- The entries of a directory that the walk takes for files. -/
def others (place : Location) : List Name :=
  (disk.tree.names place).filter fun name => !namesDirectory disk (render (place ++ [name]))

theorem list_render (h : disk.tree.node place = some .directory) :
    list disk (render place) =
      some ⟨(disk.tree.names place).filter fun name => namesDirectory disk (render (place ++ [name])),
        others disk place⟩ := by
  simp only [list, readDir, canonicalize_render h, h, if_true, Option.map_some,
    List.partition_eq_filter_filter, join_render, others]
  rfl

theorem sorted_perm (names : List Name) : (sorted names).Perm names := List.perm_insertionSort _ _

/-- The subdirectories that a visit gives are those of the place. -/
theorem subdirectories_render (h : disk.tree.node place = some .directory) :
    ∃ subdirectories : List Location, subdirectories.Perm (disk.tree.subdirectories place) ∧
      ((sorted ((disk.tree.names place).filter fun name =>
        namesDirectory disk (render (place ++ [name])))).map fun name =>
          join (render place) name.bytes).filter (fun path => !isSymlink disk path) =
        subdirectories.map render := by
  refine ⟨((sorted ((disk.tree.names place).filter fun name =>
    namesDirectory disk (render (place ++ [name])))).filter fun name =>
      !isSymlink disk (render (place ++ [name]))).map (place ++ [·]), ?_, ?_⟩
  · refine List.Perm.map _ (((sorted_perm _).filter _).trans (List.Perm.of_eq ?_))
    rw [List.filter_filter]
    refine List.filter_congr fun name _ => ?_
    rw [Bool.eq_iff_iff, decide_eq_true_eq, node_eq_directory_iff h]
    simp [and_comm]
  · rw [List.filter_map, List.map_map]
    simp only [Function.comp_def, join_render]

end Places

/-! ## What a walk takes -/

section Taken

variable (disk : Disk) (root : Bytes)

/-- The candidate stays inside the root and has a size. -/
def admitted (candidate : Bytes) : Bool := (containedFileSize disk candidate root).join.isSome

/-- The files that the walk takes from one directory. -/
def taken (place : Location) : List Location :=
  ((sorted (others disk place)).filter fun name => admitted disk root (render (place ++ [name]))).map
    (place ++ [·])

variable {disk root} {bounds : Bounds} {reads : Text → Nat → Bool} {walker walker' : Walker}

theorem takeFile_none {candidate : Bytes}
    (h : takeFile disk bounds reads root walker candidate = (walker', none)) :
    walker'.seen = walker.seen ∧
      walker'.files = walker.files ++ if admitted disk root candidate then [candidate] else [] := by
  unfold takeFile at h
  unfold admitted
  split at h
  · rename_i hsize
    obtain ⟨rfl, -⟩ := Prod.mk.inj h
    simp [hsize]
  · rename_i hsize
    obtain ⟨rfl, -⟩ := Prod.mk.inj h
    simp [hsize]
  · rename_i hsize
    split_ifs at h
    · cases (Prod.mk.inj h).2
    · dsimp only at h
      split_ifs at h
      · cases (Prod.mk.inj h).2
      · obtain ⟨rfl, -⟩ := Prod.mk.inj h
        simp [hsize]

theorem takeFiles_none {candidates : List Bytes}
    (h : takeFiles disk bounds reads root walker candidates = (walker', none)) :
    walker'.seen = walker.seen ∧
      walker'.files = walker.files ++ candidates.filter (admitted disk root) := by
  induction candidates generalizing walker with
  | nil =>
    obtain ⟨rfl, -⟩ := Prod.mk.inj h
    simp
  | cons candidate candidates ih =>
    unfold takeFiles at h
    split at h
    · rename_i between hfirst
      obtain ⟨hseen, hfiles⟩ := takeFile_none hfirst
      obtain ⟨hseen', hfiles'⟩ := ih h
      refine ⟨hseen'.trans hseen, ?_⟩
      rw [hfiles', hfiles, List.filter_cons]
      split_ifs <;> simp
    · cases (Prod.mk.inj h).2

theorem visit_ok {place : Location} (hplace : disk.tree.node place = some .directory)
    (hseen : disk.inode place ∉ walker.seen) {subdirectories : List Bytes}
    (h : visit disk bounds reads root walker (render place) = (walker', .ok subdirectories)) :
    walker'.seen = disk.inode place :: walker.seen ∧
      walker'.files = walker.files ++ (taken disk root place).map render ∧
      ∃ places : List Location, places.Perm (disk.tree.subdirectories place) ∧
        subdirectories = places.map render := by
  have hclaim : claim disk walker (render place) =
      ({ walker with seen := disk.inode place :: walker.seen }, true) := by
    simp [claim, canonicalize_render hplace, hseen]
  obtain ⟨places, hperm, hplaces⟩ := subdirectories_render hplace
  unfold visit at h
  rw [list_render hplace] at h
  dsimp only at h
  split_ifs at h
  · cases (Prod.mk.inj h).2
  · rw [hclaim] at h
    dsimp only at h
    split at h
    · cases (Prod.mk.inj h).2
    · rename_i between htake
      obtain ⟨hseen', hfiles⟩ := takeFiles_none htake
      obtain ⟨rfl, hsubdirectories⟩ := Prod.mk.inj h
      refine ⟨hseen', ?_, places, hperm, ?_⟩
      · rw [hfiles, taken, List.filter_map, List.map_map]
        simp only [Function.comp_def, join_render]
      · rw [← Except.ok.inj hsubdirectories, hplaces]

end Taken

/-! ## The loop -/

/-- No two directories share a device and inode. -/
def DistinctInodes (disk : Disk) : Prop :=
  ∀ place place', disk.tree.node place = some .directory → disk.tree.node place' = some .directory →
    disk.inode place = disk.inode place' → place = place'

/-- The pending directories have no directory in common, and none below them was seen. -/
structure Pending (disk : Disk) (pending : List Location) (seen : List (Nat × Nat)) : Prop where
  directory : ∀ place ∈ pending, disk.tree.node place = some .directory
  nodup : (pending.flatMap disk.tree.below).Nodup
  fresh : ∀ place ∈ pending.flatMap disk.tree.below, disk.inode place ∉ seen

section Loop

variable {disk : Disk} {bounds : Bounds} {reads : Text → Nat → Bool} {root : Bytes}
  {place : Location} {pending places : List Location} {seen : List (Nat × Nat)}

theorem flatMap_below_perm (hplace : disk.tree.node place = some .directory)
    (hplaces : places.Perm (disk.tree.subdirectories place)) (pending : List Location) :
    ((place :: pending).flatMap disk.tree.below).Perm
      (place :: (places ++ pending).flatMap disk.tree.below) := by
  rw [List.flatMap_cons, List.flatMap_append, ← List.cons_append]
  refine List.Perm.append_right _ ((Tree.below_perm hplace).trans (List.Perm.cons _ ?_))
  exact (hplaces.flatMap_right _).symm

theorem Pending.visit (h : Pending disk (place :: pending) seen) (hinodes : DistinctInodes disk)
    (hplaces : places.Perm (disk.tree.subdirectories place)) :
    Pending disk (places ++ pending) (disk.inode place :: seen) := by
  have hplace := h.directory place List.mem_cons_self
  have hperm := flatMap_below_perm hplace hplaces pending
  obtain ⟨habsent, hnodup⟩ := List.nodup_cons.mp (hperm.nodup_iff.mp h.nodup)
  refine ⟨fun other hother => ?_, hnodup, fun other hother hseen => ?_⟩
  · rcases List.mem_append.mp hother with hother | hother
    · obtain ⟨name, rfl, hnode⟩ := Tree.mem_subdirectories.mp (hplaces.mem_iff.mp hother)
      exact hnode
    · exact h.directory other (List.mem_cons_of_mem _ hother)
  · rcases List.mem_cons.mp hseen with hsame | hseen
    · obtain ⟨sub, -, hbelow⟩ := List.mem_flatMap.mp hother
      have heq := hinodes other place (Tree.mem_below.mp hbelow).2 hplace hsame
      exact habsent (heq ▸ hother)
    · exact h.fresh other (hperm.mem_iff.mpr (List.mem_cons_of_mem _ hother)) hseen

/-- The loop ends within as many rounds as there are directories below the pending ones. -/
theorem loop_terminates (hinodes : DistinctInodes disk) {rounds : Nat} {walker : Walker}
    (h : Pending disk pending walker.seen)
    (hrounds : (pending.flatMap disk.tree.below).length ≤ rounds) :
    (loop disk bounds reads root rounds (pending.map render) walker).isSome := by
  induction rounds generalizing pending walker with
  | zero =>
    cases pending with
    | nil => rfl
    | cons place pending =>
      have hmem : place ∈ disk.tree.below place :=
        Tree.mem_below.mpr ⟨List.prefix_refl _, h.directory place List.mem_cons_self⟩
      have hpos := List.length_pos_of_mem hmem
      rw [List.flatMap_cons, List.length_append] at hrounds
      omega
  | succ rounds ih =>
    cases pending with
    | nil => rfl
    | cons place pending =>
      have hplace := h.directory place List.mem_cons_self
      have hfresh := h.fresh place (List.mem_flatMap.mpr ⟨place, List.mem_cons_self,
        Tree.mem_below.mpr ⟨List.prefix_refl _, hplace⟩⟩)
      rw [List.map_cons, loop]
      split
      · rfl
      · rename_i walker' subdirectories hvisit
        obtain ⟨hseen, -, places, hplaces, rfl⟩ := visit_ok hplace hfresh hvisit
        rw [← List.map_append]
        refine ih (hseen ▸ h.visit hinodes hplaces) ?_
        have hlength := (flatMap_below_perm hplace hplaces pending).length_eq
        rw [List.length_cons] at hlength
        omega

theorem loop_files (hinodes : DistinctInodes disk) {rounds : Nat} {walker walker' : Walker}
    (h : Pending disk pending walker.seen)
    (hloop : loop disk bounds reads root rounds (pending.map render) walker = some (walker', none)) :
    walker'.files.Perm (walker.files ++
      ((pending.flatMap disk.tree.below).flatMap (taken disk root)).map render) := by
  induction rounds generalizing pending walker with
  | zero =>
    cases pending with
    | nil =>
      obtain ⟨rfl, -⟩ := Prod.mk.inj (Option.some.inj hloop)
      simp
    | cons place pending => cases hloop
  | succ rounds ih =>
    cases pending with
    | nil =>
      obtain ⟨rfl, -⟩ := Prod.mk.inj (Option.some.inj hloop)
      simp
    | cons place pending =>
      have hplace := h.directory place List.mem_cons_self
      have hfresh := h.fresh place (List.mem_flatMap.mpr ⟨place, List.mem_cons_self,
        Tree.mem_below.mpr ⟨List.prefix_refl _, hplace⟩⟩)
      rw [List.map_cons, loop] at hloop
      split at hloop
      · cases (Prod.mk.inj (Option.some.inj hloop)).2
      · rename_i between subdirectories hvisit
        obtain ⟨hseen, hfiles, places, hplaces, rfl⟩ := visit_ok hplace hfresh hvisit
        rw [← List.map_append] at hloop
        refine (ih (hseen ▸ h.visit hinodes hplaces) hloop).trans ?_
        rw [hfiles, List.append_assoc, ← List.map_append, ← List.flatMap_cons]
        refine List.Perm.append_left _ (List.Perm.map _ ?_)
        exact (List.Perm.flatMap_right _ (flatMap_below_perm hplace hplaces pending)).symm

end Loop

/-! ## The walk -/

/-- The names of the entries are UTF-8 and have no NUL. -/
def TextNames (tree : Tree) : Prop :=
  ∀ entry ∈ tree.entries, ∀ name ∈ entry.1,
    0 ∉ name.bytes ∧ (CodePointString.mk name.bytes).asStr.isSome

instance (tree : Tree) : Decidable (TextNames tree) := inferInstanceAs (Decidable (∀ _ ∈ _, _))

section Whole

variable {disk : Disk} {bounds : Bounds} {reads : Text → Nat → Bool} {root resolved : Bytes}
  {base place : Location}

/-- A root that can be walked is a directory, and no link leads to it. -/
theorem walkable_eq_ok (h : walkable disk root = .ok resolved) :
    ∃ base, resolved = render base ∧ disk.tree.node base = some .directory := by
  unfold walkable at h
  split at h
  · cases h
  · rename_i there hresolve
    split_ifs at h with hdir
    cases h
    obtain ⟨hpath, first, hfirst⟩ := first_of_resolve hresolve
    obtain ⟨base, hbase, hclean, -⟩ := resolve_spec hpath hfirst
    obtain rfl := Except.ok.inj (hresolve.symm.trans hbase)
    refine ⟨base, rfl, ?_⟩
    rcases eq_or_ne base [] with rfl | hne
    · exact disk.tree.node_nil
    · simp only [isDir, canonicalize, parts_render hne, Tree.follow_stay move_nil,
        decide_eq_true_eq, Option.bind_eq_some_iff] at hdir
      obtain ⟨there, hthere, hnode⟩ := hdir
      rwa [hclean base (List.prefix_refl _) _ _ hthere] at hnode

theorem TextNames.of_node (h : TextNames disk.tree) (hplace : (disk.tree.node place).isSome) :
    ∀ name ∈ place, 0 ∉ name.bytes ∧ (CodePointString.mk name.bytes).asStr.isSome := by
  rcases eq_or_ne place [] with rfl | hne
  · simp
  · obtain ⟨entry, hentry, rfl⟩ := List.mem_map.mp ((Tree.isSome_node_iff hne).mp hplace)
    exact h entry hentry

theorem zero_notMem_render (h : ∀ name ∈ place, 0 ∉ name.bytes) : 0 ∉ render place := by
  rcases eq_or_ne place [] with rfl | hne
  · decide
  · rw [render, if_neg hne, body, List.mem_flatMap]
    rintro ⟨name, hname, hzero⟩
    rcases List.mem_cons.mp hzero with hslash | hzero
    · exact absurd hslash (by decide)
    · exact h name hname hzero

theorem walkable_render (hnames : TextNames disk.tree)
    (hbase : disk.tree.node base = some .directory) :
    walkable disk (render base) = .ok (render base) := by
  have hentry : (disk.tree.node base).isSome := by simp [hbase]
  have hzero := zero_notMem_render fun name hname => (hnames.of_node hentry name hname).1
  rw [walkable, resolve_render (Tree.straight_of_directory hbase) hzero]
  exact if_pos (isDir_render hbase)

variable (disk) in
/-- The places that a walk from `base` takes, in some order. -/
def walkedPlaces (base : Location) : List Location :=
  (disk.tree.below base).flatMap (taken disk (render base))

theorem mem_taken :
    place ∈ taken disk root base ↔ ∃ name, place = base ++ [name] ∧ (disk.tree.node place).isSome ∧
      namesDirectory disk (render place) = false ∧ admitted disk root (render place) := by
  simp only [taken, others, List.mem_map, List.mem_filter, (sorted_perm _).mem_iff, Tree.mem_names]
  constructor
  · rintro ⟨name, ⟨⟨hnode, hdirectory⟩, hadmitted⟩, rfl⟩
    exact ⟨name, rfl, hnode, by simpa using hdirectory, hadmitted⟩
  · rintro ⟨name, rfl, hnode, hdirectory, hadmitted⟩
    exact ⟨name, ⟨⟨hnode, by simpa using hdirectory⟩, hadmitted⟩, rfl⟩

theorem nodup_walkedPlaces : (walkedPlaces disk base).Nodup := by
  refine List.nodup_flatMap.mpr ⟨fun place _ => ?_, ?_⟩
  · refine List.Nodup.map (fun _ _ h => by simpa using h) (List.Nodup.filter _ ?_)
    exact (sorted_perm _).nodup_iff.mpr (Tree.nodup_names.filter _)
  · refine List.Pairwise.imp ?_ Tree.nodup_below
    intro place place' hne entry hentry hentry'
    obtain ⟨name, rfl, -⟩ := mem_taken.mp hentry
    obtain ⟨name', hsame, -⟩ := mem_taken.mp hentry'
    exact hne (List.append_inj_left' hsame rfl)

theorem pending_start (hbase : disk.tree.node base = some .directory) : Pending disk [base] [] where
  directory place hplace := List.mem_singleton.mp hplace ▸ hbase
  nodup := by simpa using Tree.nodup_below
  fresh := by simp

theorem walk_files (hinodes : DistinctInodes disk) (hroot : walkable disk root = .ok (render base))
    (hbase : disk.tree.node base = some .directory) :
    ∃ walked, walk disk bounds reads root = some walked ∧ ∀ files, walked.files = .ok files →
      files.Perm ((walkedPlaces disk base).map render) := by
  have hrounds : ([base].flatMap disk.tree.below).length ≤ walkRounds disk := by
    rw [List.flatMap_singleton]
    exact (List.length_filter_le _ _).trans Tree.length_directories_le
  have hends : (loop disk bounds reads (render base) (walkRounds disk) ([base].map render) {}).isSome :=
    loop_terminates hinodes (pending_start hbase) hrounds
  obtain ⟨⟨walker, refusal⟩, hloop⟩ := Option.isSome_iff_exists.mp hends
  unfold walk
  rw [hroot]
  dsimp only
  rw [← List.map_singleton, hloop]
  refine ⟨_, rfl, fun files hfiles => ?_⟩
  cases refusal with
  | some refusal => cases hfiles
  | none =>
    have hperm := loop_files hinodes (pending_start hbase) hloop
    obtain rfl := Except.ok.inj hfiles
    rwa [List.flatMap_singleton] at hperm

/-- A walk ends and lists no path twice. -/
theorem walk_nodup (hinodes : DistinctInodes disk) :
    ∃ walked, walk disk bounds reads root = some walked ∧
      ∀ files, walked.files = .ok files → files.Nodup := by
  cases hroot : walkable disk root with
  | error refusal =>
    refine ⟨⟨.error refusal, []⟩, by rw [walk, hroot], fun files hfiles => ?_⟩
    cases hfiles
  | ok resolved =>
    obtain ⟨base, rfl, hbase⟩ := walkable_eq_ok hroot
    obtain ⟨walked, hwalk, hfiles⟩ := walk_files hinodes hroot hbase
    refine ⟨walked, hwalk, fun files h => (hfiles files h).nodup_iff.mpr ?_⟩
    exact nodup_walkedPlaces.map fun _ _ => render_injective

end Whole

end Agentless.Io.Walk
