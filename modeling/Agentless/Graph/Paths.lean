import Agentless.Library.Find
import Agentless.Library.Sequence

/-!
# Lexical path normalisation

`normpath` drops empty and `.` parts and lets a `..` part remove the name before it. What it keeps
of a relative path is a run of `..` parts and then names; of an absolute path it keeps names only.
-/

namespace Agentless.Graph

/-- Two slashes for exactly two in front, one slash for one or for three and more. -/
def posixAnchor (path : Text) : Text :=
  if "//".toList.isPrefixOf path ∧ ¬"///".toList.isPrefixOf path then "//".toList
  else if "/".toList.isPrefixOf path then "/".toList
  else []

def isPosixPart (part : Text) : Bool := part ≠ [] ∧ part ≠ ".".toList

def keep (anchor : Text) (kept : List Text) (part : Text) : List Text :=
  if ¬isPosixPart part then kept
  else if part ≠ "..".toList ∨ (anchor = [] ∧ kept = []) ∨ kept.getLast? = some "..".toList then
    kept ++ [part]
  else kept.dropLast

def keptParts (path : Text) : List Text :=
  (path.splitOn '/').foldl (keep (posixAnchor path)) []

def normpath (path : Text) : Text :=
  if path = [] then ".".toList
  else
    let joined := posixAnchor path ++ ['/'].intercalate (keptParts path)
    if joined = [] then ".".toList else joined

/-- The name without its last suffix, which starts at a dot that is neither first nor last. -/
def withoutSuffix (name : Text) : Text :=
  match Find.rsplitOnce '.' name with
  | some (before, after) => if before ≠ [] && after ≠ [] then before else name
  | none => name

/-- The path without the last suffix of its last part. -/
def stem (path : Text) : Text :=
  let kept := (path.splitOn '/').filter isPosixPart
  let stemmed := kept.dropLast ++ (kept.getLast?.map withoutSuffix).toList
  let joined := posixAnchor path ++ ['/'].intercalate stemmed
  if joined = [] then ".".toList else joined

/-! ## What is kept -/

/-- A path as a number of directories to climb and the names to go down then. -/
structure Route where
  climbs : Nat
  names : List Text

namespace Route

/-- The root is its own parent, so an absolute path climbs nowhere. -/
def step (anchored : Bool) (route : Route) (part : Text) : Route :=
  if isPosixPart part then
    if part = "..".toList then
      if route.names = [] then
        if anchored then route else { route with climbs := route.climbs + 1 }
      else { route with names := route.names.dropLast }
    else { route with names := route.names ++ [part] }
  else route

def parts (route : Route) : List Text := List.replicate route.climbs "..".toList ++ route.names

/-- The route of a path. -/
def of (path : Text) : Route := (path.splitOn '/').foldl (step (posixAnchor path ≠ [])) ⟨0, []⟩

structure Proper (anchored : Bool) (route : Route) : Prop where
  climbs : anchored → route.climbs = 0
  names : ∀ name ∈ route.names, isPosixPart name ∧ name ≠ "..".toList ∧ '/' ∉ name

theorem Proper.step {anchored : Bool} {route : Route} {part : Text} (h : Proper anchored route)
    (hslash : '/' ∉ part) : Proper anchored (route.step anchored part) := by
  unfold Route.step
  split_ifs with hpart hup hnames hanchored
  · exact h
  · exact ⟨fun hanchor => absurd hanchor hanchored, h.names⟩
  · exact ⟨h.climbs, fun name hname => h.names name (List.mem_of_mem_dropLast hname)⟩
  · refine ⟨h.climbs, fun name hname => ?_⟩
    rcases List.mem_append.mp hname with hname | hname
    · exact h.names name hname
    · rw [List.mem_singleton.mp hname]
      exact ⟨hpart, hup, hslash⟩
  · exact h

theorem Proper.getLast?_ne {anchored : Bool} {route : Route} (h : Proper anchored route)
    (hnames : route.names ≠ []) : route.parts.getLast? ≠ some "..".toList := by
  rw [parts, List.getLast?_append_of_ne_nil _ hnames]
  intro hlast
  exact (h.names _ (List.mem_of_getLast? hlast)).2.1 rfl

theorem Proper.keep {anchor part : Text} {route : Route} (h : Proper (anchor ≠ []) route) :
    keep anchor route.parts part = (route.step (anchor ≠ []) part).parts := by
  unfold Graph.keep Route.step
  by_cases hpart : isPosixPart part
  swap
  · rw [if_pos hpart, if_neg hpart]
  rw [if_neg (not_not.mpr hpart), if_pos hpart]
  by_cases hup : part = "..".toList
  swap
  · rw [if_pos (.inl hup), if_neg hup]
    simp [parts]
  rw [if_pos hup]
  obtain ⟨climbs, names⟩ := route
  rcases eq_or_ne names [] with rfl | hnames
  · rw [if_pos rfl]
    rcases eq_or_ne anchor [] with rfl | hanchor
    · have hlast : (Route.mk climbs []).parts = [] ∨
          (Route.mk climbs []).parts.getLast? = some "..".toList := by
        cases climbs <;> simp [parts, List.getLast?_replicate]
      rw [if_pos (.inr (hlast.imp (And.intro rfl) id)), if_neg (by simp), hup, parts, parts,
        List.replicate_succ']
      simp
    · obtain rfl : climbs = 0 := h.climbs (by simpa using hanchor)
      rw [if_neg (by simp [hup, hanchor, parts]), if_pos (by simpa using hanchor)]
      rfl
  · have hlast := h.getLast?_ne hnames
    have hne : (Route.mk climbs names).parts ≠ [] := by simp [parts, hnames]
    rw [if_neg hnames, if_neg, parts, List.dropLast_append_of_ne_nil hnames]
    · rfl
    · rintro (hother | ⟨-, hnil⟩ | hend)
      · exact hother hup
      · exact hne hnil
      · exact hlast hend

theorem of_spec (path : Text) :
    Proper (posixAnchor path ≠ []) (of path) ∧ keptParts path = (of path).parts := by
  have hfold : ∀ (pieces : List Text) (route : Route), (∀ piece ∈ pieces, '/' ∉ piece) →
      Proper (posixAnchor path ≠ []) route →
      Proper (posixAnchor path ≠ []) (pieces.foldl (step (posixAnchor path ≠ [])) route) ∧
        pieces.foldl (Graph.keep (posixAnchor path)) route.parts =
          (pieces.foldl (step (posixAnchor path ≠ [])) route).parts := by
    intro pieces
    induction pieces with
    | nil => exact fun route _ hroute => ⟨hroute, rfl⟩
    | cons piece pieces ih =>
      intro route hpieces hroute
      rw [List.foldl_cons, List.foldl_cons, hroute.keep]
      exact ih _ (fun other hother => hpieces other (List.mem_cons_of_mem _ hother))
        (hroute.step (hpieces piece List.mem_cons_self))
  exact hfold _ ⟨0, []⟩ (fun _ => Sequence.notMem_of_mem_splitOn) ⟨fun _ => rfl, by simp⟩

/-! ## Climbing -/

def isName (part : Text) : Bool := isPosixPart part ∧ part ≠ "..".toList

/-- Some first stretch of the path has more parts that climb than names. -/
def Climbs (path : Text) : Prop :=
  ∃ stretch ∈ (path.splitOn '/').inits, stretch.countP isName < stretch.count "..".toList

instance (path : Text) : Decidable (Climbs path) :=
  inferInstanceAs (Decidable (∃ stretch ∈ _, _))

theorem climbs_of_fold (pieces : List Text) :
    let route := pieces.foldl (step false) ⟨0, []⟩
    route.names.length + pieces.count "..".toList = route.climbs + pieces.countP isName ∧
      (route.climbs = 0 ↔ ∀ stretch, stretch <+: pieces →
        stretch.count "..".toList ≤ stretch.countP isName) := by
  induction pieces using List.reverseRecOn with
  | nil => simp
  | append_singleton pieces part ih =>
    simp only [List.foldl_concat, List.prefix_concat_iff, forall_eq_or_imp, List.count_append,
      List.countP_append] at ih ⊢
    obtain ⟨hcount, hclimbs⟩ := ih
    rw [← hclimbs]
    generalize pieces.foldl (step false) ⟨0, []⟩ = route at hcount ⊢
    have hups : [part].count "..".toList = if part = "..".toList then 1 else 0 := by
      simp [List.count_singleton]
    have hnames : [part].countP isName = if isName part then 1 else 0 := by
      simp [List.countP_singleton]
    rw [hups, hnames]
    by_cases hpart : isPosixPart part
    swap
    · have hup : part ≠ "..".toList := by
        rintro rfl
        exact hpart rfl
      have hname : ¬isName part := by simp [isName, hpart]
      rw [step, if_neg hpart, if_neg hup, if_neg hname]
      omega
    by_cases hup : part = "..".toList
    · have hname : ¬isName part := by simp [isName, hup]
      rw [step, if_pos hpart, if_pos hup, if_pos hup, if_neg hname]
      by_cases hempty : route.names = []
      · rw [if_pos hempty, if_neg Bool.false_ne_true]
        rw [hempty, List.length_nil] at hcount ⊢
        dsimp only
        omega
      · have hlength := List.length_pos_of_ne_nil hempty
        rw [if_neg hempty, List.length_dropLast]
        dsimp only
        omega
    · have hname : isName part := decide_eq_true ⟨hpart, hup⟩
      rw [step, if_pos hpart, if_neg hup, if_neg hup, if_pos hname]
      dsimp only
      rw [List.length_append, List.length_singleton]
      omega

theorem climbs_of_iff {path : Text} (h : posixAnchor path = []) :
    (of path).climbs ≠ 0 ↔ Climbs path := by
  have hof : of path = (path.splitOn '/').foldl (step false) ⟨0, []⟩ := by
    rw [of, h]
    rfl
  have hfold := (climbs_of_fold (path.splitOn '/')).2
  rw [hof, ne_eq, hfold, Climbs]
  simp only [List.mem_inits, not_forall, not_le, exists_prop]

end Route

/-! ## The parts of a normalised path -/

section Normpath

variable {path : Text}

theorem posixAnchor_cases (path : Text) :
    posixAnchor path = [] ∨ posixAnchor path = ['/'] ∨ posixAnchor path = ['/', '/'] := by
  unfold posixAnchor
  split_ifs
  · exact .inr (.inr rfl)
  · exact .inr (.inl rfl)
  · exact .inl rfl

theorem posixAnchor_eq_nil_iff : posixAnchor path = [] ↔ path.head? ≠ some '/' := by
  cases path with
  | nil => decide
  | cons c path =>
    by_cases hc : c = '/'
    · subst hc
      have hslash : "/".toList.isPrefixOf ('/' :: path) := rfl
      rw [posixAnchor, if_pos hslash]
      split_ifs <;> simp
    · have hslash : "/".toList.isPrefixOf (c :: path) = false := by
        simp [List.isPrefixOf, Ne.symm hc]
      have hslashes : "//".toList.isPrefixOf (c :: path) = false := by
        simp [List.isPrefixOf, Ne.symm hc]
      rw [posixAnchor, hslash, hslashes]
      simp [hc]

theorem Route.of_part {part : Text} (h : part ∈ (Route.of path).parts) :
    part ≠ [] ∧ '/' ∉ part := by
  rcases List.mem_append.mp h with h | h
  · rw [List.eq_of_mem_replicate h]
    decide
  · obtain ⟨hpart, -, hslash⟩ := (Route.of_spec path).1.names part h
    exact ⟨(of_decide_eq_true hpart).1, hslash⟩

theorem normpath_eq : normpath path =
    if posixAnchor path ++ ['/'].intercalate (Route.of path).parts = [] then ".".toList
    else posixAnchor path ++ ['/'].intercalate (Route.of path).parts := by
  rw [normpath, (Route.of_spec path).2]
  rcases eq_or_ne path [] with rfl | hpath
  · rfl
  · rw [if_neg hpath]

theorem splitOn_normpath (h : (Route.of path).parts ≠ []) :
    (normpath path).splitOn '/' = (posixAnchor path).map (fun _ => []) ++ (Route.of path).parts := by
  have hparts : (['/'].intercalate (Route.of path).parts).splitOn '/' = (Route.of path).parts :=
    List.splitOn_intercalate '/' (fun part hpart => (Route.of_part hpart).2) h
  have hne : ['/'].intercalate (Route.of path).parts ≠ [] := by
    intro hnil
    rw [hnil, List.splitOn_nil] at hparts
    exact (Route.of_part (hparts ▸ List.mem_singleton_self _)).1 rfl
  rw [normpath_eq, if_neg (by simp [hne])]
  rcases posixAnchor_cases path with hanchor | hanchor | hanchor
  · rw [hanchor]
    simpa using hparts
  · rw [hanchor]
    simpa [List.splitOn_cons_eq_if_modifyHead] using hparts
  · rw [hanchor]
    simpa [List.splitOn_cons_eq_if_modifyHead] using hparts

end Normpath

end Agentless.Graph
