import Agentless.Graph.Paths
import Agentless.Io.ContainExact

/-!
# The test-config guard

The guard refuses a candidate whose edits name a file that decides what the test command runs. It
normalises the written path lexically, while the edit is written where the path resolves to. In a
tree without links the two agree on every relative path that stays below the root. A path that
climbs above the root, and an absolute one, has the names of the root before those of the place,
so no prefix is seen and the root's own name counts as a file name.
-/

namespace Agentless.App

open Posix StdPath Io.Contain Agentless.Graph

def testConfigNames : List Text :=
  ["conftest.py".toList, "pytest.ini".toList, "tox.ini".toList, "noxfile.py".toList,
    "setup.cfg".toList, "setup.py".toList, "pyproject.toml".toList, "Makefile".toList,
    "makefile".toList, "GNUmakefile".toList, "package.json".toList,
    ".pre-commit-config.yaml".toList, "sitecustomize.py".toList, "usercustomize.py".toList]

def testConfigPrefixes : List Text := [".github/".toList]

def namesTestConfig (path : Text) : Bool :=
  let canonical := normpath path
  let name := (canonical.splitOn '/').getLastD []
  testConfigNames.contains name || testConfigPrefixes.any (·.isPrefixOf canonical)

/-- The given paths that name what the test command runs, sorted and once each. -/
def testConfigPaths (paths : List Text) : List Text :=
  (paths.filter namesTestConfig).dedup.mergeSort (· ≤ ·)

theorem mem_testConfigPaths {paths : List Text} {path : Text} :
    path ∈ testConfigPaths paths ↔ path ∈ paths ∧ namesTestConfig path := by
  simp [testConfigPaths, List.mem_mergeSort]

/-! ## The guard on a route -/

/-- The last name is a listed one. -/
def Listed (parts : List Bytes) : Prop := ∃ name ∈ testConfigNames, parts.getLast? = some (utf8 name)

/-- The parts lead below the directory `.github`. -/
def BelowGithub (parts : List Bytes) : Prop :=
  ∃ rest, rest ≠ [] ∧ parts = utf8 ".github".toList :: rest

theorem listed_map_utf8 {parts : List Text} :
    Listed (parts.map utf8) ↔ ∃ name ∈ testConfigNames, parts.getLast? = some name := by
  simp only [Listed, List.getLast?_map, Option.map_eq_some_iff, utf8_injective.eq_iff,
    exists_eq_right]

theorem belowGithub_map_utf8 {parts : List Text} :
    BelowGithub (parts.map utf8) ↔ ∃ rest, rest ≠ [] ∧ parts = ".github".toList :: rest := by
  cases parts with
  | nil => simp [BelowGithub]
  | cons first parts =>
    constructor
    · rintro ⟨rest, hrest, hparts⟩
      obtain ⟨hfirst, rfl⟩ := List.cons.inj hparts
      exact ⟨parts, by simpa using hrest, by rw [utf8_injective hfirst]⟩
    · rintro ⟨rest, hrest, hparts⟩
      obtain ⟨rfl, rfl⟩ := List.cons.inj hparts
      exact ⟨parts.map utf8, by simpa using hrest, rfl⟩

theorem not_listed_nil : ¬Listed [] := by simp [Listed]

theorem not_belowGithub_nil : ¬BelowGithub [] := by simp [BelowGithub]

theorem namesTestConfig_of_parts_eq_nil {path : Text} (h : (Route.of path).parts = []) :
    namesTestConfig path = false := by
  have hnormpath : normpath path = ".".toList ∨ normpath path = ['/'] ∨ normpath path = ['/', '/'] := by
    rw [normpath_eq, h]
    rcases posixAnchor_cases path with hanchor | hanchor | hanchor
    · exact .inl (by rw [hanchor]; rfl)
    · exact .inr (.inl (by rw [hanchor]; rfl))
    · exact .inr (.inr (by rw [hanchor]; rfl))
  unfold namesTestConfig
  rcases hnormpath with hpath | hpath | hpath <;> rw [hpath] <;> decide

theorem namesTestConfig_iff (path : Text) :
    namesTestConfig path ↔
      Listed ((Route.of path).parts.map utf8) ∨
        posixAnchor path = [] ∧ BelowGithub ((Route.of path).parts.map utf8) := by
  rcases eq_or_ne (Route.of path).parts [] with hnil | hne
  · rw [namesTestConfig_of_parts_eq_nil hnil, hnil]
    simp [not_listed_nil, not_belowGithub_nil]
  have hpre : testConfigPrefixes.any (·.isPrefixOf (normpath path)) ↔
      ∃ rest, rest ≠ [] ∧ (normpath path).splitOn '/' = ".github".toList :: rest := by
    rw [← Sequence.append_singleton_prefix_iff (by decide)]
    simp [testConfigPrefixes, List.isPrefixOf_iff_prefix]
  rw [namesTestConfig, Bool.or_eq_true, hpre, List.contains_iff_mem, listed_map_utf8,
    belowGithub_map_utf8, splitOn_normpath hne]
  refine or_congr ?_ ?_
  · rw [List.getLastD_eq_getLast?, List.getLast?_append_of_ne_nil _ hne,
      List.getLast?_eq_some_getLast hne]
    simp
  · rcases posixAnchor_cases path with hanchor | hanchor | hanchor <;> simp [hanchor]

/-! ## The place of a route -/

theorem isAbsolute_utf8 (path : Text) :
    isAbsolute (utf8 path) = decide (posixAnchor path ≠ []) := by
  rw [isAbsolute, decide_eq_decide, ne_eq, posixAnchor_eq_nil_iff, not_not]
  cases path with
  | nil => simp
  | cons c path =>
    rw [utf8_cons, List.head?_append_of_ne_nil _ (String.utf8EncodeChar_ne_nil)]
    constructor
    · intro hslash
      by_contra hc
      exact slash_notMem_utf8EncodeChar (by simpa using hc) (List.mem_of_mem_head? hslash)
    · intro hc
      obtain rfl : c = '/' := by simpa using hc
      rfl

def Linkless (tree : Tree) : Prop := ∀ place target, tree.node place ≠ some (.link target)

/-- The place that a route leads to from `outset`. -/
def At (outset : Location) (route : Route) (here : Location) : Prop :=
  ∃ names, names.map Name.bytes = route.names.map utf8 ∧
    here = outset.take (outset.length - route.climbs) ++ names

section Resolution

variable {tree : Tree} {outset here there : Location} {route : Route} {anchored : Bool}

theorem exists_name {part : Text} (hpart : isPosixPart part) (hup : part ≠ "..".toList)
    (hslash : '/' ∉ part) : ∃ name : Name, name.bytes = utf8 part := by
  obtain ⟨hne, hdot⟩ := of_decide_eq_true hpart
  refine ⟨⟨utf8 part, ?_, ?_, ?_, slash_notMem_utf8 hslash⟩, rfl⟩
  · exact fun h => hne (utf8_injective h)
  · exact fun h => hdot (utf8_injective h)
  · exact fun h => hup (utf8_injective h)

/-- A part leads to the place of the route that it leads to. -/
theorem At.step {part : Text} (h : At outset route here) (hlinks : Linkless tree)
    (hanchored : anchored → outset = []) (hslash : '/' ∉ part) :
    ∃ here', At outset (route.step anchored part) here' ∧
      ∀ limit rest, tree.follow false limit here (utf8 part :: rest) =
        tree.follow false limit here' rest := by
  obtain ⟨names, hnames, rfl⟩ := h
  unfold Route.step
  by_cases hpart : isPosixPart part
  swap
  · rw [if_neg hpart]
    have hmove : move (utf8 part) = .stay := by
      have hstay : part = [] ∨ part = ".".toList := by simpa [isPosixPart, imp_iff_or_not, or_comm] using hpart
      rcases hstay with rfl | rfl <;> rfl
    exact ⟨_, ⟨names, hnames, rfl⟩, fun limit rest => Tree.follow_stay hmove⟩
  rw [if_pos hpart]
  by_cases hup : part = "..".toList
  · subst hup
    rw [if_pos rfl]
    refine ⟨_, ?_, fun limit rest => Tree.follow_up rfl⟩
    rcases names.eq_nil_or_concat with rfl | ⟨names, name, rfl⟩
    · have hempty : route.names = [] := by simpa using hnames.symm
      rw [if_pos hempty, List.append_nil]
      split_ifs with hanchor
      · rw [hanchored hanchor]
        exact ⟨[], hnames, by simp⟩
      · refine ⟨[], hnames, ?_⟩
        rw [List.dropLast_eq_take, List.take_take, List.length_take, List.append_nil]
        congr 1
        dsimp only
        omega
    · have hnonempty : route.names ≠ [] := fun hempty => by simp [hempty] at hnames
      have hdropLast := congrArg List.dropLast hnames
      rw [List.concat_eq_append, List.map_append, List.map_singleton, List.dropLast_concat,
        ← List.map_dropLast] at hdropLast
      rw [if_neg hnonempty, List.concat_eq_append, ← List.append_assoc, List.dropLast_concat]
      exact ⟨names, hdropLast, rfl⟩
  · obtain ⟨name, hname⟩ := exists_name hpart hup hslash
    rw [if_neg hup]
    refine ⟨_, ⟨names ++ [name], by simp [hnames, hname], List.append_assoc _ _ _⟩,
      fun limit rest => ?_⟩
    rw [← hname]
    exact Tree.follow_down (move_bytes name) (hlinks _)

/-- The parts of a path lead to the place of its route. -/
theorem At.foldl {pieces : List Text} (h : At outset route here) (hlinks : Linkless tree)
    (hanchored : anchored → outset = []) (hpieces : ∀ piece ∈ pieces, '/' ∉ piece) (limit : Nat) :
    ∃ there, tree.follow false limit here (pieces.map utf8) = some there ∧
      At outset (pieces.foldl (Route.step anchored) route) there := by
  induction pieces generalizing route here with
  | nil => exact ⟨here, Tree.follow_nil, h⟩
  | cons piece pieces ih =>
    obtain ⟨here', hhere', hfollow⟩ := h.step hlinks hanchored (hpieces piece List.mem_cons_self)
    rw [List.map_cons, hfollow]
    exact ih hhere' fun other hother => hpieces other (List.mem_cons_of_mem _ hother)

theorem Linkless.loopless (hlinks : Linkless tree) : tree.Loopless := by
  have hends : ∀ path here, ∃ there, tree.follow false 0 here path = some there := by
    intro path
    induction path with
    | nil => exact fun here => ⟨here, rfl⟩
    | cons part rest ih =>
      intro here
      cases hmove : move part with
      | stay => exact (ih here).imp fun _ => (Tree.follow_stay hmove).trans
      | up => exact (ih here.dropLast).imp fun _ => (Tree.follow_up hmove).trans
      | down name => exact (ih (here ++ [name])).imp fun _ => (Tree.follow_down hmove (hlinks _)).trans
  exact fun path => ⟨0, hends path []⟩

/-- An accepted path leads to the place of its route, from the root or from the working root. -/
theorem at_of_containedPath {host : Host} {root : Bytes} {base names : Location} {path : Text}
    (hlinks : Linkless host.tree) (hroot : resolve host root = .ok (render base))
    (h : containedPath host root (utf8 path) = .ok (render (base ++ names))) :
    At (origin base (utf8 path)) (Route.of path) (base ++ names) := by
  obtain ⟨base', names', limit, hroot', hinside, -, -, -, hfollow⟩ :=
    containedPath_lands hlinks.loopless h
  obtain rfl : base = base' := render_injective (Except.ok.inj (hroot.symm.trans hroot'))
  obtain rfl : names = names' := List.append_cancel_left (render_injective hinside)
  have hanchored : decide (posixAnchor path ≠ []) → origin base (utf8 path) = [] := by
    intro hanchor
    rw [origin, isAbsolute_utf8, if_pos hanchor]
  have hstart : At (origin base (utf8 path)) ⟨0, []⟩ (origin base (utf8 path)) := ⟨[], rfl, by simp⟩
  obtain ⟨there, hthere, hat⟩ := hstart.foldl hlinks hanchored
    (fun piece => Sequence.notMem_of_mem_splitOn) limit
  rw [← parts_utf8, hfollow] at hthere
  cases hthere
  exact hat

end Resolution

/-! ## The guard on a place -/

section Guard

variable {base names : Location} {path : Text}

theorem listed_append {before parts : List Bytes} (h : parts ≠ []) :
    Listed (before ++ parts) ↔ Listed parts := by
  simp only [Listed, List.getLast?_append_of_ne_nil _ h]

/-- The guard sees where a path leads that stays below the root. -/
theorem namesTestConfig_of_stays (hat : At (origin base (utf8 path)) (Route.of path) (base ++ names))
    (habsolute : isAbsolute (utf8 path) = false) (hclimbs : ¬Route.Climbs path) :
    namesTestConfig path ↔
      Listed (names.map Name.bytes) ∨ BelowGithub (names.map Name.bytes) := by
  have hanchor : posixAnchor path = [] := by simpa [isAbsolute_utf8] using habsolute
  have hzero : (Route.of path).climbs = 0 := not_not.mp (mt (Route.climbs_of_iff hanchor).mp hclimbs)
  obtain ⟨tail, htail, hplace⟩ := hat
  rw [origin, habsolute, if_neg Bool.false_ne_true, hzero, Nat.sub_zero, List.take_length] at hplace
  obtain rfl := List.append_cancel_left hplace
  rw [namesTestConfig_iff, Route.parts, hzero, List.replicate_zero, List.nil_append, ← htail]
  simp [hanchor]

theorem not_listed_replicate (climbs : Nat) :
    ¬Listed ((List.replicate climbs "..".toList).map utf8) := by
  rw [listed_map_utf8]
  rintro ⟨name, hname, hlast⟩
  obtain rfl : name = "..".toList := List.eq_of_mem_replicate (List.mem_of_getLast? hlast)
  exact absurd hname (by decide)

/-- The guard sees only the last name of a path that leaves the root. -/
theorem namesTestConfig_of_leaves (hat : At (origin base (utf8 path)) (Route.of path) (base ++ names))
    (hleaves : ¬(isAbsolute (utf8 path) = false ∧ ¬Route.Climbs path)) :
    namesTestConfig path ↔ Listed ((base ++ names).map Name.bytes) := by
  have hclimbs : isAbsolute (utf8 path) = false → (Route.of path).climbs ≠ 0 := by
    intro habsolute
    have hanchor : posixAnchor path = [] := by simpa [isAbsolute_utf8] using habsolute
    exact (Route.climbs_of_iff hanchor).mpr (not_not.mp fun hnot => hleaves ⟨habsolute, hnot⟩)
  obtain ⟨tail, htail, hplace⟩ := hat
  rw [namesTestConfig_iff, or_iff_left]
  · rcases eq_or_ne tail [] with rfl | hne
    · -- No name is left only when the root is the root directory, and the path leads to it.
      have hempty : (Route.of path).names = [] := by simpa using htail.symm
      have hroot : base ++ names = [] := by
        rw [List.append_nil] at hplace
        have hlength := congrArg List.length hplace
        rw [List.length_append, List.length_take, origin] at hlength
        rw [← List.length_eq_zero_iff, List.length_append]
        split_ifs at hlength with habsolute
        · simp only [List.length_nil] at hlength
          omega
        · have hpos := hclimbs (by simpa using habsolute)
          omega
      rw [hroot, Route.parts, hempty, List.append_nil]
      exact iff_of_false (not_listed_replicate _) not_listed_nil
    · have hnonempty : (Route.of path).names ≠ [] := by
        intro hempty
        rw [hempty] at htail
        exact hne (by simpa using htail)
      rw [hplace, Route.parts, List.map_append, List.map_append, listed_append (by simpa using hnonempty),
        listed_append (by simpa using hne), htail]
  · rintro ⟨hanchor, hbelow⟩
    obtain ⟨climbs, hclimbs⟩ := Nat.exists_eq_succ_of_ne_zero
      (hclimbs (by simp [isAbsolute_utf8, hanchor]))
    obtain ⟨rest, -, hparts⟩ := belowGithub_map_utf8.mp hbelow
    rw [Route.parts, hclimbs, List.replicate_succ, List.cons_append] at hparts
    exact absurd (List.cons.inj hparts).1 (by decide)

end Guard

/-- In a tree without links, the guard lists an accepted path exactly when the place that it leads
to has a listed name or lies below `.github`, for a relative path that never climbs above the root.
For any other path it does so when the place is not below `.github` except under a listed name, and
is not the root itself under a listed name. -/
theorem testConfigPaths_lists_iff (host : Host) (root : Bytes) (base names : Location)
    (paths : List Text) (path : Text) (hlinks : Linkless host.tree)
    (hroot : resolve host root = .ok (render base))
    (hcontained : containedPath host root (utf8 path) = .ok (render (base ++ names)))
    (hpath : path ∈ paths) :
    (path ∈ testConfigPaths paths ↔
      Listed (names.map Name.bytes) ∨ BelowGithub (names.map Name.bytes)) ↔
    (isAbsolute (utf8 path) = false ∧ ¬Route.Climbs path) ∨
      (BelowGithub (names.map Name.bytes) → Listed (names.map Name.bytes)) ∧
        (names = [] → ¬Listed (base.map Name.bytes)) := by
  have hat := at_of_containedPath hlinks hroot hcontained
  rw [mem_testConfigPaths, and_iff_right hpath]
  by_cases hstays : isAbsolute (utf8 path) = false ∧ ¬Route.Climbs path
  · exact iff_of_true (namesTestConfig_of_stays hat hstays.1 hstays.2) (.inl hstays)
  · rw [namesTestConfig_of_leaves hat hstays, or_iff_right hstays]
    rcases eq_or_ne names [] with rfl | hne
    · simp [not_listed_nil, not_belowGithub_nil]
    · rw [List.map_append, listed_append (by simpa using hne)]
      tauto

/-- The root directory `/w` and nothing below it. -/
def oneRoot : Host where
  tree :=
    { entries := [([⟨utf8 "w".toList, by decide, by decide, by decide, by decide⟩], .directory)]
      directory_of_entry := by decide }
  limit := 40
  cwd := none
  directory_of_cwd := by simp

theorem oneRoot_linkless : Linkless oneRoot.tree := by
  intro place target h
  rcases eq_or_ne place [] with rfl | hne
  · cases h
  · have hmem := Tree.mem_entries_of_node hne h
    simp [oneRoot] at hmem

/-- A path that climbs out of the root and back lands below `.github` and is not listed. -/
theorem testConfigPaths_misses_climb :
    Linkless oneRoot.tree ∧
    resolve oneRoot (utf8 "/w".toList) =
      .ok (render [⟨utf8 "w".toList, by decide, by decide, by decide, by decide⟩]) ∧
    containedPath oneRoot (utf8 "/w".toList) (utf8 "../w/.github/ci.yml".toList) =
      .ok (render ([⟨utf8 "w".toList, by decide, by decide, by decide, by decide⟩] ++
        [⟨utf8 ".github".toList, by decide, by decide, by decide, by decide⟩,
          ⟨utf8 "ci.yml".toList, by decide, by decide, by decide, by decide⟩])) ∧
    BelowGithub [utf8 ".github".toList, utf8 "ci.yml".toList] ∧
    "../w/.github/ci.yml".toList ∉ testConfigPaths ["../w/.github/ci.yml".toList] := by
  refine ⟨oneRoot_linkless, by decide +kernel, by decide +kernel, ⟨_, by simp, rfl⟩, ?_⟩
  rw [mem_testConfigPaths]
  decide +kernel

theorem testConfigPaths_lists_iff_stays :
    "a/.././.github//ci.yml".toList ∈ testConfigPaths ["a/.././.github//ci.yml".toList] :=
  ((testConfigPaths_lists_iff oneRoot (utf8 "/w".toList)
    [⟨utf8 "w".toList, by decide, by decide, by decide, by decide⟩]
    [⟨utf8 ".github".toList, by decide, by decide, by decide, by decide⟩,
      ⟨utf8 "ci.yml".toList, by decide, by decide, by decide, by decide⟩]
    ["a/.././.github//ci.yml".toList] "a/.././.github//ci.yml".toList oneRoot_linkless
    (by decide +kernel) (by decide +kernel) (by simp)).mpr (.inl (by decide +kernel))).mpr
    (.inr ⟨_, by simp, rfl⟩)

end Agentless.App
