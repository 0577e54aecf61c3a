import Agentless.Graph.AmbiguousDegrees
import Agentless.Graph.Paths

/-!
# The index of the scanned paths

The paths in order, and for each tail of a module stem the path that answers it: the shortest one,
and the first of those. Each lookup gives what a scan of the paths gives in whatever order they
come: whole components for a tail, whole paths for a candidate, and characters for a prefix.
-/

namespace Agentless.Graph

open Std (TreeMap)

def packageEntryStems : List Text := ["__init__".toList, "index".toList]

/-- A package entry point also answers to the stem of its directory. -/
def moduleStems (path : Text) : List Text :=
  let full := stem path
  let package := ((Find.rsplitOnce '/' full).filter (packageEntryStems.contains ·.2)).map Prod.fst
  full :: package.toList

/-- A tail must hold a separator, so a match never falls inside one path component. -/
def moduleTail (module : Text) : Option Text :=
  let tail := module.map fun c => if c = '.' then '/' else c
  if tail.contains '/' then some tail else none

/-- The order by length in code points, then by path. -/
def byLength (path : Text) : Lex (Nat × Text) := toLex (path.length, path)

def shorter (path held : Text) : Bool := byLength path < byLength held

structure PathIndex where
  paths : List Text
  byTail : TreeMap Text Text compare

/-- Each tail keeps the path that is shortest in code points, then first in path order. -/
def indexTail (byTail : TreeMap Text Text compare) (tail path : Text) : TreeMap Text Text compare :=
  let held := byTail[tail]?.getD path
  byTail.insert tail (if shorter path held then path else held)

def indexTails (byTail : TreeMap Text Text compare) (stem path : Text) :
    TreeMap Text Text compare :=
  let segments := stem.splitOn '/'
  (List.range segments.length).foldl (fun byTail start =>
    indexTail byTail (['/'].intercalate (segments.drop start)) path) byTail

namespace PathIndex

def build (paths : List Text) : PathIndex :=
  let sorted := (paths.insertionSort (· ≤ ·)).destutter (· ≠ ·)
  { paths := sorted
    byTail := sorted.foldl (fun byTail path =>
      (moduleStems path).foldl (fun byTail stem => indexTails byTail stem path) byTail) {} }

variable (index : PathIndex)

def get (path : Text) : Option Text := index.paths.find? (· == path)

/-- The paths that start with one prefix form one run of the sorted list, so the first path at or
after the prefix decides. -/
def hasPrefix (start : Text) : Bool :=
  index.paths[partitionPoint (· < start) index.paths]?.any start.isPrefixOf

def suffixMatch (module : Text) : Option Text := (moduleTail module).bind (index.byTail[·]?)

end PathIndex

/-- Ordered so that a package's entry point loses to a module of the same name. -/
def moduleSuffixes : List Text :=
  [".py", ".ts", ".tsx", ".js", ".jsx", ".mjs", ".cjs", ".go", ".rb", ".rs", ".java", ".lua", ".c",
    ".h", ".cpp", ".hpp", ".sh", ".php", ".kt", ".swift", "/__init__.py", "/index.ts",
    "/index.tsx", "/index.js", ""].map String.toList

def candidate (base suffix : Text) : Text :=
  if base = [] then (if suffix.head? = some '/' then suffix.tail else suffix) else base ++ suffix

/-- Every candidate starts with its base, so a base that no path starts with skips its suffixes. -/
def firstCandidate (bases : List Text) (index : PathIndex) : Option Text :=
  bases.findSome? fun base =>
    if !index.hasPrefix base then none
    else moduleSuffixes.findSome? fun suffix => index.get (candidate base suffix)

/-! ## Scans -/

/-- Some module stem of the path ends with all components of the tail. -/
def answers (tail path : Text) : Bool :=
  (moduleStems path).any fun stem => (tail.splitOn '/').isSuffixOf (stem.splitOn '/')

/-- Of the paths that answer the module, the shortest, then the first in path order. -/
def scanSuffix (paths : List Text) (module : Text) : Option Text :=
  (moduleTail module).bind fun tail => (paths.filter (answers tail)).argmin byLength

def scanCandidate (paths : List Text) (bases : List Text) : Option Text :=
  bases.findSome? fun base =>
    moduleSuffixes.findSome? fun suffix => paths.find? (· == candidate base suffix)

/-- The first components of the path are those of the prefix. -/
def startsWithComponents (start path : Text) : Bool :=
  (start.splitOn '/').isPrefixOf (path.splitOn '/')

/-! ## Tails -/

theorem mem_tails_iff {tail stem : Text} :
    (∃ start < (stem.splitOn '/').length, ['/'].intercalate ((stem.splitOn '/').drop start) = tail) ↔
      tail.splitOn '/' <:+ stem.splitOn '/' := by
  constructor
  · rintro ⟨start, hstart, rfl⟩
    have hne : (stem.splitOn '/').drop start ≠ [] := by
      simpa using hstart
    rw [List.splitOn_intercalate '/' _ hne]
    · exact List.drop_suffix ..
    · exact fun piece hpiece => Sequence.notMem_of_mem_splitOn (List.mem_of_mem_drop hpiece)
  · rintro ⟨before, hbefore⟩
    refine ⟨before.length, ?_, ?_⟩
    · rw [← hbefore, List.length_append]
      have := List.length_pos_of_ne_nil (List.splitOn_ne_nil '/' tail)
      omega
    · rw [← hbefore, List.drop_left, List.intercalate_splitOn]

/-- A tail holds the best of the paths that were indexed under it. -/
theorem getElem?_indexTail {byTail : TreeMap Text Text compare} {tail : Text} {held : List Text}
    (h : byTail[tail]? = held.argmin byLength) (entry : Text × Text) :
    (indexTail byTail entry.1 entry.2)[tail]? =
      (held ++ ([entry].filter (·.1 = tail)).map Prod.snd).argmin byLength := by
  unfold indexTail
  dsimp only
  rw [TreeMap.getElem?_insert]
  by_cases htail : entry.1 = tail
  · simp only [htail, h, Std.compare_self, if_true, List.filter_cons, decide_true, List.filter_nil,
      List.map_cons, List.map_nil, List.argmin_concat]
    cases held.argmin byLength with
    | none => simp
    | some path =>
      simp only [Option.getD_some, shorter, decide_eq_true_eq]
      split_ifs <;> rfl
  · have hcompare : compare entry.1 tail ≠ .eq := by
      simpa [Std.compare_eq_iff_eq] using htail
    simp [htail, hcompare, h]

theorem getElem?_foldl_indexTail (entries : List (Text × Text)) (tail : Text) :
    (entries.foldl (fun byTail entry => indexTail byTail entry.1 entry.2)
      ({} : TreeMap Text Text compare))[tail]? =
      ((entries.filter (·.1 = tail)).map Prod.snd).argmin byLength := by
  induction entries using List.reverseRecOn with
  | nil => simp
  | append_singleton entries entry ih =>
    rw [List.foldl_concat, getElem?_indexTail ih, List.filter_append, List.map_append]

/-- The order by length is strict, so the best of some paths depends on which they are only. -/
theorem argmin_congr {paths paths' : List Text} (h : ∀ path, path ∈ paths ↔ path ∈ paths') :
    paths.argmin byLength = paths'.argmin byLength := by
  have hsub {paths paths' : List Text} (h : ∀ path, path ∈ paths ↔ path ∈ paths') {best : Text}
      (hbest : best ∈ paths.argmin byLength) : best ∈ paths'.argmin byLength := by
    have hmem := (h best).mp (List.argmin_mem hbest)
    cases hother : paths'.argmin byLength with
    | none => simp [List.argmin_eq_none.mp hother] at hmem
    | some other =>
      have hle := List.le_of_mem_argmin ((h other).mpr (List.argmin_mem hother)) hbest
      have hge := List.le_of_mem_argmin hmem hother
      have heq : byLength best = byLength other := hle.antisymm hge
      simp only [byLength, EmbeddingLike.apply_eq_iff_eq, Prod.mk.injEq] at heq
      rw [heq.2]
      rfl
  exact Option.ext fun best => ⟨hsub h, hsub fun path => (h path).symm⟩

/-! ## Prefixes -/

theorem prefix_of_le {start path other : Text} (hstart : start <+: path) (hge : start ≤ other)
    (hle : other ≤ path) : start <+: other := by
  induction start generalizing path other with
  | nil => exact List.nil_prefix
  | cons c start ih =>
    obtain ⟨rest, rfl⟩ := hstart
    cases other with
    | nil => exact absurd hge (by simp)
    | cons d other =>
      rw [List.cons_append, ← not_lt, List.cons_lt_cons_iff, not_or, not_lt] at hle
      rw [← not_lt, List.cons_lt_cons_iff, not_or, not_lt] at hge
      obtain rfl : c = d := hge.1.antisymm hle.1
      simp only [true_and, not_lt] at hge hle
      exact List.cons_prefix_cons.mpr ⟨rfl, ih (List.prefix_append start rest) hge.2 hle.2⟩

theorem le_of_startsWith {start path : Text} (h : start <+: path) : start ≤ path := by
  obtain ⟨rest, rfl⟩ := h
  induction start with
  | nil => exact not_lt.mp (List.not_lt_nil rest)
  | cons c start ih => exact List.cons_le_cons c ih

theorem any_getElem?_partitionPoint {paths : List Text} (hsorted : paths.Pairwise (· < ·))
    (start : Text) :
    paths[partitionPoint (· < start) paths]?.any start.isPrefixOf = paths.any start.isPrefixOf := by
  induction paths with
  | nil => rfl
  | cons path paths ih =>
    obtain ⟨hfirst, hrest⟩ := List.pairwise_cons.mp hsorted
    by_cases hless : path < start
    · have hnot : start.isPrefixOf path = false := by
        refine Bool.eq_false_iff.mpr fun hstart => ?_
        exact not_lt.mpr (le_of_startsWith (List.isPrefixOf_iff_prefix.mp hstart)) hless
      rw [List.any_cons, hnot, Bool.false_or, ← ih hrest]
      simp [partitionPoint, hless]
    · have hlater : paths.any start.isPrefixOf → start.isPrefixOf path := by
        intro hany
        obtain ⟨other, hother, hstart⟩ := List.any_eq_true.mp hany
        rw [List.isPrefixOf_iff_prefix] at hstart ⊢
        exact prefix_of_le hstart (not_lt.mp hless) (hfirst other hother).le
      have hpoint : partitionPoint (· < start) (path :: paths) = 0 := by
        simp [partitionPoint, hless]
      rw [hpoint, List.any_cons, List.getElem?_cons_zero, Option.any_some]
      cases hany : paths.any start.isPrefixOf with
      | false => rw [Bool.or_false]
      | true => rw [hlater hany, Bool.or_true]

/-! ## The lookups -/

namespace PathIndex

variable (paths : List Text)

theorem mem_build {path : Text} : path ∈ (build paths).paths ↔ path ∈ paths := by
  rw [build, Sequence.mem_destutter_ne, List.mem_insertionSort]

theorem pairwise_build : (build paths).paths.Pairwise (· < ·) :=
  Sequence.pairwise_lt_destutter_insertionSort paths

/-- Each path of the index, with every tail of its stems. -/
def entries (path : Text) : List (Text × Text) :=
  (moduleStems path).flatMap fun stem =>
    (List.range (stem.splitOn '/').length).map fun start =>
      (['/'].intercalate ((stem.splitOn '/').drop start), path)

theorem mem_entries {path tail other : Text} :
    (tail, other) ∈ entries path ↔ other = path ∧ answers tail path := by
  simp only [entries, List.mem_flatMap, List.mem_map, List.mem_range, Prod.mk.injEq, answers,
    List.any_eq_true, List.isSuffixOf_iff_suffix, ← mem_tails_iff]
  grind

theorem byTail_build : (build paths).byTail = ((build paths).paths.flatMap entries).foldl
    (fun byTail entry => indexTail byTail entry.1 entry.2) {} := by
  simp only [build, List.foldl_flatMap, entries, List.foldl_map, indexTails]

theorem suffixMatch_build (module : Text) :
    (build paths).suffixMatch module = scanSuffix paths module := by
  unfold suffixMatch scanSuffix
  congr 1
  funext tail
  rw [byTail_build, getElem?_foldl_indexTail]
  apply argmin_congr
  intro path
  simp only [List.mem_map, List.mem_filter, List.mem_flatMap, decide_eq_true_eq, Prod.exists,
    mem_entries, mem_build]
  grind

theorem hasPrefix_build (start : Text) :
    (build paths).hasPrefix start = paths.any start.isPrefixOf := by
  rw [hasPrefix, any_getElem?_partitionPoint (pairwise_build paths), Bool.eq_iff_iff,
    List.any_eq_true, List.any_eq_true]
  simp only [mem_build]

theorem find?_beq_congr {paths paths' : List Text} (h : ∀ path, path ∈ paths ↔ path ∈ paths')
    (path : Text) : paths.find? (· == path) = paths'.find? (· == path) := by
  have hfind (paths : List Text) :
      paths.find? (· == path) = if path ∈ paths then some path else none := by
    induction paths with
    | nil => rfl
    | cons other paths ih => grind
  rw [hfind, hfind]
  simp only [h]

theorem get_build (path : Text) : (build paths).get path = paths.find? (· == path) :=
  find?_beq_congr (fun _ => mem_build paths) path

theorem findSome?_candidate {base : Text} (h : paths.any base.isPrefixOf = false) :
    (moduleSuffixes.findSome? fun suffix => paths.find? (· == candidate base suffix)) = none := by
  rw [List.findSome?_eq_none_iff]
  rintro suffix -
  rw [List.find?_eq_none]
  intro path hpath heq
  obtain rfl := beq_iff_eq.mp heq
  rcases eq_or_ne base [] with rfl | hbase
  · exact absurd h (by simpa using ⟨_, hpath⟩)
  · have hstart := List.any_eq_false.mp h _ hpath
    rw [candidate, if_neg hbase, List.isPrefixOf_iff_prefix] at hstart
    exact hstart (List.prefix_append base suffix)

theorem firstCandidate_build (bases : List Text) :
    firstCandidate bases (build paths) = scanCandidate paths bases := by
  unfold firstCandidate scanCandidate
  congr 1
  funext base
  simp only [hasPrefix_build, get_build, Bool.not_eq_true']
  split_ifs with h
  · exact (findSome?_candidate paths h).symm
  · rfl

/-- The index depends on which paths it holds, not on their order or on how often they come. -/
theorem build_congr {paths paths' : List Text} (h : ∀ path, path ∈ paths' ↔ path ∈ paths) :
    build paths' = build paths := by
  have hpaths : (build paths').paths = (build paths).paths := by
    refine (pairwise_build paths').eq_of_mem_iff (pairwise_build paths) fun path => ?_
    rw [mem_build, mem_build, h]
  have htail : (build paths').byTail = (build paths).byTail := by
    rw [byTail_build, byTail_build, hpaths]
  cases hleft : build paths'
  cases hright : build paths
  simp_all

end PathIndex

/-- Whatever order the paths come in, the index answers as a scan of them does: a module by the
components of its tail, a base by the candidates it has, and a prefix by its characters. -/
theorem pathIndex_scans (paths : List Text) :
    (∀ module, (PathIndex.build paths).suffixMatch module = scanSuffix paths module) ∧
      (∀ start, (PathIndex.build paths).hasPrefix start = paths.any start.isPrefixOf) ∧
      (∀ bases, firstCandidate bases (PathIndex.build paths) = scanCandidate paths bases) ∧
      ∀ paths', (∀ path, path ∈ paths' ↔ path ∈ paths) →
        PathIndex.build paths' = PathIndex.build paths :=
  ⟨PathIndex.suffixMatch_build paths, PathIndex.hasPrefix_build paths,
    PathIndex.firstCandidate_build paths, fun _ => PathIndex.build_congr⟩

/-- A prefix that ends inside a component is found by its characters, and no path has it as a
component. -/
theorem hasPrefix_inside_component :
    (PathIndex.build ["ab/c.py".toList]).hasPrefix "a".toList = true ∧
      ["ab/c.py".toList].any (startsWithComponents "a".toList) = false := by
  decide

end Agentless.Graph
