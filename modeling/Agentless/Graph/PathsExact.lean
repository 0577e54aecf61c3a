import Agentless.Graph.Paths
import Mathlib.Logic.Relation

/-!
# Normal forms of paths

Which path a path stands for, said of its components: a blank component stands for nothing, a name
and the `..` after it cancel, and the root is its own parent. Nothing else may be rewritten, every
order of the rewrites ends with the same components, and they are what `normpath` writes.
-/

namespace Agentless.Graph

open Relation

/-- One rewrite of the components of a path. -/
inductive Rewrites (anchored : Bool) : List Text → List Text → Prop where
  | blank {before after : List Text} {part : Text} (h : ¬isPosixPart part) :
      Rewrites anchored (before ++ part :: after) (before ++ after)
  | up {before after : List Text} {name : Text} (h : Route.isName name) :
      Rewrites anchored (before ++ name :: "..".toList :: after) (before ++ after)
  | root {after : List Text} (h : anchored) : Rewrites anchored ("..".toList :: after) after

/-- The components that the rewrites lead to when none is left to be made. -/
structure Normal (anchored : Bool) (pieces parts : List Text) : Prop where
  rewrites : ReflTransGen (Rewrites anchored) pieces parts
  stuck : ∀ next, ¬Rewrites anchored parts next

/-- A path of these components. -/
def render (anchor : Text) (parts : List Text) : Text :=
  if anchor ++ ['/'].intercalate parts = [] then ".".toList else anchor ++ ['/'].intercalate parts

namespace Route

section Steps

variable {anchored : Bool} {route : Route} {part : Text}

theorem step_blank (h : ¬isPosixPart part) : route.step anchored part = route := if_neg h

theorem step_name (h : isName part) :
    route.step anchored part = { route with names := route.names ++ [part] } := by
  obtain ⟨hpart, hup⟩ := of_decide_eq_true h
  rw [step, if_pos hpart, if_neg hup]

theorem step_up_names (h : route.names ≠ []) :
    route.step anchored "..".toList = { route with names := route.names.dropLast } := by
  rw [step, if_pos rfl, if_neg h]
  rfl

theorem step_up_nil (climbs : Nat) :
    (Route.mk climbs []).step anchored "..".toList =
      if anchored then ⟨climbs, []⟩ else ⟨climbs + 1, []⟩ := by
  rw [step, if_pos rfl]
  rfl

theorem isName_of_proper (h : Proper anchored route) {name : Text} (hname : name ∈ route.names) :
    isName name := by
  obtain ⟨hpart, hup, -⟩ := h.names name hname
  exact decide_eq_true ⟨hpart, hup⟩

end Steps

theorem foldl_names {anchored : Bool} {climbs : Nat} {names more : List Text}
    (h : ∀ name ∈ more, isName name) :
    more.foldl (step anchored) ⟨climbs, names⟩ = ⟨climbs, names ++ more⟩ := by
  induction more generalizing names with
  | nil => rw [List.append_nil]; rfl
  | cons name more ih =>
    obtain ⟨hname, hmore⟩ := List.forall_mem_cons.mp h
    rw [List.foldl_cons, step_name hname, ih hmore, List.append_assoc, List.singleton_append]

theorem foldl_climbs (climbs start : Nat) :
    (List.replicate climbs "..".toList).foldl (step false) ⟨start, []⟩ = ⟨start + climbs, []⟩ := by
  induction climbs generalizing start with
  | zero => rfl
  | succ climbs ih =>
    rw [List.replicate_succ, List.foldl_cons, step_up_nil, if_neg Bool.false_ne_true, ih]
    simp only [Nat.add_comm climbs, Nat.add_assoc]

theorem Proper.foldl_parts {anchored : Bool} {route : Route} (h : Proper anchored route) :
    route.parts.foldl (Route.step anchored) ⟨0, []⟩ = route := by
  obtain ⟨climbs, names⟩ := route
  have hclimbs : (List.replicate climbs "..".toList).foldl (Route.step anchored) ⟨0, []⟩ =
      ⟨climbs, []⟩ := by
    cases anchored with
    | true =>
      obtain rfl : climbs = 0 := h.climbs rfl
      rfl
    | false =>
      rw [foldl_climbs, Nat.zero_add]
  rw [parts, List.foldl_append, hclimbs, foldl_names fun name hname => isName_of_proper h hname,
    List.nil_append]

end Route

namespace Rewrites

variable {anchored : Bool} {pieces parts : List Text}

theorem foldl_eq (h : Rewrites anchored pieces parts) :
    pieces.foldl (Route.step anchored) ⟨0, []⟩ = parts.foldl (Route.step anchored) ⟨0, []⟩ := by
  cases h with
  | blank hpart => rw [List.foldl_append, List.foldl_append, List.foldl_cons, Route.step_blank hpart]
  | up hname =>
    rw [List.foldl_append, List.foldl_append, List.foldl_cons, List.foldl_cons,
      Route.step_name hname, Route.step_up_names (by simp), List.dropLast_concat]
  | root hanchored => rw [List.foldl_cons, Route.step_up_nil, if_pos hanchored]

theorem length_lt (h : Rewrites anchored pieces parts) : parts.length < pieces.length := by
  cases h <;> simp

theorem subset (h : Rewrites anchored pieces parts) : parts ⊆ pieces := by
  cases h <;> grind

theorem append_right (h : Rewrites anchored pieces parts) (more : List Text) :
    Rewrites anchored (pieces ++ more) (parts ++ more) := by
  cases h with
  | blank hpart =>
    rw [List.append_assoc, List.append_assoc, List.cons_append]
    exact .blank hpart
  | up hname =>
    rw [List.append_assoc, List.append_assoc, List.cons_append, List.cons_append]
    exact .up hname
  | root hanchored => exact .root hanchored

theorem foldl_eq_of_run (h : ReflTransGen (Rewrites anchored) pieces parts) :
    pieces.foldl (Route.step anchored) ⟨0, []⟩ = parts.foldl (Route.step anchored) ⟨0, []⟩ := by
  induction h with
  | refl => rfl
  | tail _ hstep ih => exact ih.trans hstep.foldl_eq

theorem subset_of_run (h : ReflTransGen (Rewrites anchored) pieces parts) : parts ⊆ pieces := by
  induction h with
  | refl => exact List.Subset.refl _
  | tail _ hstep ih => exact List.Subset.trans hstep.subset ih

theorem length_le_of_run (h : ReflTransGen (Rewrites anchored) pieces parts) :
    parts.length ≤ pieces.length := by
  induction h with
  | refl => exact le_refl _
  | tail _ hstep ih => exact hstep.length_lt.le.trans ih

end Rewrites

section Fold

variable {anchored : Bool} {pieces : List Text}

theorem rewrites_step {route : Route} (h : Route.Proper anchored route) (part : Text) :
    ReflTransGen (Rewrites anchored) (route.parts ++ [part]) (route.step anchored part).parts := by
  obtain ⟨climbs, names⟩ := route
  by_cases hblank : isPosixPart part
  swap
  · have hdrop : Rewrites anchored ((Route.mk climbs names).parts ++ [part])
        ((Route.mk climbs names).parts ++ []) := .blank hblank
    rw [List.append_nil] at hdrop
    rw [Route.step_blank hblank]
    exact .single hdrop
  by_cases hup : part = "..".toList
  swap
  · have hname : Route.isName part := decide_eq_true ⟨hblank, hup⟩
    rw [Route.step_name hname, Route.parts, Route.parts, List.append_assoc]
  subst hup
  obtain rfl | ⟨init, last, rfl⟩ := names.eq_nil_or_concat'
  · rw [Route.step_up_nil]
    cases anchored with
    | true =>
      obtain rfl : climbs = 0 := h.climbs rfl
      exact .single (.root rfl)
    | false =>
      rw [if_neg Bool.false_ne_true, Route.parts, Route.parts, List.replicate_succ']
      simp only [List.append_nil]
      exact .refl
  · have hlast : Route.isName last := Route.isName_of_proper h (by simp)
    have hparts : (Route.mk climbs (init ++ [last])).parts ++ ["..".toList] =
        (Route.mk climbs init).parts ++ last :: "..".toList :: [] := by
      simp [Route.parts]
    have hcancel : Rewrites anchored ((Route.mk climbs init).parts ++ last :: "..".toList :: [])
        ((Route.mk climbs init).parts ++ []) := .up hlast
    rw [List.append_nil] at hcancel
    rw [Route.step_up_names (by simp), hparts, List.dropLast_concat]
    exact .single hcancel

theorem rewrites_fold (anchored : Bool) (hpieces : ∀ piece ∈ pieces, '/' ∉ piece) :
    let route := pieces.foldl (Route.step anchored) ⟨0, []⟩
    Route.Proper anchored route ∧ ReflTransGen (Rewrites anchored) pieces route.parts := by
  induction pieces using List.reverseRecOn with
  | nil => exact ⟨⟨fun _ => rfl, by simp⟩, .refl⟩
  | append_singleton pieces part ih =>
    obtain ⟨hproper, hrun⟩ := ih fun piece hpiece => hpieces piece (List.mem_append_left _ hpiece)
    rw [List.foldl_concat]
    refine ⟨hproper.step (hpieces part (by simp)), ?_⟩
    have hmore : ReflTransGen (Rewrites anchored) (pieces ++ [part])
        ((pieces.foldl (Route.step anchored) ⟨0, []⟩).parts ++ [part]) :=
      hrun.lift (· ++ [part]) fun _ _ h => h.append_right [part]
    exact hmore.trans (rewrites_step hproper part)

/-- The parts of a route cannot be rewritten: they would lead along it with fewer parts. -/
theorem Route.Proper.stuck {route : Route} (h : Route.Proper anchored route)
    (hparts : ∀ part ∈ route.parts, '/' ∉ part) (next : List Text) :
    ¬Rewrites anchored route.parts next := by
  intro hstep
  have hfold := hstep.foldl_eq
  rw [h.foldl_parts] at hfold
  have hback : ReflTransGen (Rewrites anchored) next
      (next.foldl (Route.step anchored) ⟨0, []⟩).parts :=
    (rewrites_fold _ fun piece hpiece => hparts piece (hstep.subset hpiece)).2
  rw [← hfold] at hback
  exact absurd (Rewrites.length_le_of_run hback) (not_le.mpr hstep.length_lt)

end Fold

/-- The parts of the route of a path are what the rewrites of its components end with. -/
theorem normal_route (path : Text) :
    Normal (posixAnchor path ≠ []) (path.splitOn '/') (Route.of path).parts := by
  have hproper := (Route.of_spec path).1
  refine ⟨(rewrites_fold _ fun _ => Sequence.notMem_of_mem_splitOn).2, ?_⟩
  exact hproper.stuck fun part hpart => (Route.of_part hpart).2

/-- All rewrites of a path that are not blocked end alike. -/
theorem Normal.unique {anchored : Bool} {pieces parts others : List Text}
    (h : Normal anchored pieces parts) (h' : Normal anchored pieces others)
    (hpieces : ∀ piece ∈ pieces, '/' ∉ piece) : others = parts := by
  have hend {ends : List Text} (hends : Normal anchored pieces ends) :
      ends = (pieces.foldl (Route.step anchored) ⟨0, []⟩).parts := by
    have hslash : ∀ piece ∈ ends, '/' ∉ piece := fun piece hpiece =>
      hpieces piece (Rewrites.subset_of_run hends.rewrites hpiece)
    have hrun := (rewrites_fold anchored hslash).2
    rw [← Rewrites.foldl_eq_of_run hends.rewrites] at hrun
    obtain heq | ⟨next, hnext, -⟩ := hrun.cases_head
    · exact heq
    · exact absurd hnext (hends.stuck next)
  exact (hend h').trans (hend h).symm

/-! ## The normalised path -/

section Normpath

variable {path : Text}

theorem posixAnchor_append {anchor text : Text}
    (hanchor : anchor = [] ∨ anchor = ['/'] ∨ anchor = ['/', '/']) (h : text.head? ≠ some '/') :
    posixAnchor (anchor ++ text) = anchor := by
  cases text with
  | nil => obtain rfl | rfl | rfl := hanchor <;> rfl
  | cons c text =>
    have hc : c ≠ '/' := fun heq => h (congrArg some heq)
    obtain rfl | rfl | rfl := hanchor <;> simp [posixAnchor, List.isPrefixOf, hc.symm]

theorem head?_intercalate {parts : List Text} (h : ∀ part ∈ parts, part ≠ [] ∧ '/' ∉ part) :
    (['/'].intercalate parts).head? ≠ some '/' := by
  cases parts with
  | nil => simp
  | cons part parts =>
    obtain ⟨hne, hslash⟩ := h part List.mem_cons_self
    obtain ⟨c, part, rfl⟩ := List.exists_cons_of_ne_nil hne
    have hhead : (['/'].intercalate ((c :: part) :: parts)).head? = some c := by
      cases parts <;> simp [List.intercalate_cons_cons]
    rw [hhead]
    rintro ⟨⟩
    exact hslash List.mem_cons_self

theorem posixAnchor_normpath (path : Text) : posixAnchor (normpath path) = posixAnchor path := by
  have hhead : (['/'].intercalate (Route.of path).parts).head? ≠ some '/' :=
    head?_intercalate fun _ => Route.of_part
  rw [normpath_eq]
  split_ifs with hempty
  · rw [(List.append_eq_nil_iff.mp hempty).1]
    rfl
  · exact posixAnchor_append (posixAnchor_cases path) hhead

/-- The components of a normalised path are the parts of its route, and blank ones. -/
theorem isPosixPart_of_parts {part : Text} (h : part ∈ (Route.of path).parts) :
    isPosixPart part := by
  obtain h | h := List.mem_append.mp h
  · rw [List.eq_of_mem_replicate h]
    rfl
  · exact ((Route.of_spec path).1.names part h).1

theorem filter_splitOn_normpath (path : Text) :
    ((normpath path).splitOn '/').filter isPosixPart = (Route.of path).parts := by
  rcases eq_or_ne (Route.of path).parts [] with hparts | hparts
  · rw [normpath_eq, hparts]
    obtain h | h | h := posixAnchor_cases path <;> rw [h] <;> rfl
  · have hblank : ((posixAnchor path).map fun _ => ([] : Text)).filter isPosixPart = [] := by
      simp [isPosixPart]
    rw [splitOn_normpath hparts, List.filter_append, hblank, List.nil_append]
    exact List.filter_eq_self.mpr fun part hpart => isPosixPart_of_parts hpart

/-- Blank components lead nowhere. -/
theorem foldl_filter_isPosixPart (anchored : Bool) (pieces : List Text) (route : Route) :
    (pieces.filter isPosixPart).foldl (Route.step anchored) route =
      pieces.foldl (Route.step anchored) route := by
  induction pieces generalizing route with
  | nil => rfl
  | cons piece pieces ih =>
    by_cases hpiece : isPosixPart piece
    · rw [List.filter_cons_of_pos hpiece, List.foldl_cons, List.foldl_cons, ih]
    · rw [List.filter_cons_of_neg hpiece, List.foldl_cons, Route.step_blank hpiece, ih]

theorem route_normpath (path : Text) : Route.of (normpath path) = Route.of path := by
  have hproper := (Route.of_spec path).1
  have hof : Route.of (normpath path) = (((normpath path).splitOn '/').filter isPosixPart).foldl
      (Route.step (posixAnchor path ≠ [])) ⟨0, []⟩ := by
    rw [foldl_filter_isPosixPart, Route.of, posixAnchor_normpath]
  rw [hof, filter_splitOn_normpath, hproper.foldl_parts]

/-- `normpath` writes the normal form of the components, under the same anchor: parts that climb
come first, and none in an absolute path. A normalised path stays as it is. -/
theorem normpath_normal (path : Text) :
    normpath (normpath path) = normpath path ∧ posixAnchor (normpath path) = posixAnchor path ∧
      ∃ climbs names, (posixAnchor path ≠ [] → climbs = 0) ∧ "..".toList ∉ names ∧
        ((normpath path).splitOn '/').filter isPosixPart =
          List.replicate climbs "..".toList ++ names ∧
        normpath path =
          render (posixAnchor path) (List.replicate climbs "..".toList ++ names) ∧
        ∀ parts, Normal (posixAnchor path ≠ []) (path.splitOn '/') parts ↔
          parts = List.replicate climbs "..".toList ++ names := by
  have hproper := (Route.of_spec path).1
  have hnormal := normal_route path
  refine ⟨?_, posixAnchor_normpath path, (Route.of path).climbs, (Route.of path).names,
    fun hanchor => hproper.climbs (decide_eq_true hanchor), fun hup => ?_,
    filter_splitOn_normpath path, normpath_eq, fun parts => ⟨fun hparts => ?_, ?_⟩⟩
  · rw [normpath_eq, posixAnchor_normpath, route_normpath, ← normpath_eq]
  · exact (hproper.names _ hup).2.1 rfl
  · exact hnormal.unique hparts fun _ => Sequence.notMem_of_mem_splitOn
  · rintro rfl
    exact hnormal

end Normpath

end Agentless.Graph
