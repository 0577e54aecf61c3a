import Agentless.Io.Path
import Agentless.Library.Assoc

/-!
# The resolution against the reference

The loop follows every link at most once, so it ends on every tree. The state keeps, for the whole
path and for every link whose mark is on the stack, that the reference resolution of what is left
from here ends where the one of the whole ends. A link that is met while its mark is on the stack
would need fewer links than itself, so no resolution through it ends: where the reference ends, no
link was kept as part of a loop.
-/

namespace Agentless.Io.Contain

open Posix StdPath

/-! ## The path of a place -/

theorem render_injective {place other : Location} (h : render place = render other) :
    place = other := by
  have hpre : place <+: other := startsWith_render.mp (h ▸ startsWith_render.mpr (List.prefix_refl _))
  have hpre' : other <+: place := startsWith_render.mp (h ▸ startsWith_render.mpr (List.prefix_refl _))
  exact hpre.eq_of_length_le hpre'.length_le

theorem rposition_append {byte : UInt8} {before after : Bytes} (h : byte ∉ after) :
    rposition byte (before ++ byte :: after) = some before.length := by
  rw [rposition, Sequence.idxOf?_reverse_append h, Option.map_some, List.length_append,
    List.length_cons]
  congr 1
  omega

theorem toParent_render (place : Location) : toParent (render place) = render place.dropLast := by
  rcases place.eq_nil_or_concat with rfl | ⟨place, name, rfl⟩
  · decide
  · rw [List.concat_eq_append, List.dropLast_concat, render_concat, toParent,
      rposition_append name.slash_notMem]
    rcases eq_or_ne place [] with rfl | hplace
    · simp [body]
    · have hbody : 0 < (body place).length := by
        cases place with
        | nil => exact absurd rfl hplace
        | cons first place => simp [body]
      simp [hbody, render, hplace]

theorem next_eq (here : Location) (name : Name) :
    (if render here ≠ [slash] then render here ++ [slash] else render here) ++ name.bytes =
      render (here ++ [name]) := by
  rcases eq_or_ne here [] with rfl | hhere
  · simp [render, body]
  · rw [if_pos (mt render_eq_slash.mp hhere), render_concat]
    simp [hhere, render]

/-! ## Places that the system finds -/

variable {host : Host}

/-- The system's own resolution of the path of a place, where it ends, does not leave the path. -/
def Clean (tree : Tree) (place : Location) : Prop :=
  ∀ names, names <+: place → ∀ limit there,
    tree.follow true limit [] (names.map Name.bytes) = some there → there = names

theorem Clean.dropLast {tree : Tree} {place : Location} (h : Clean tree place) :
    Clean tree place.dropLast :=
  fun names hnames => h names (hnames.trans (List.dropLast_prefix place))

theorem clean_nil (tree : Tree) : Clean tree [] := by
  intro names hnames limit there h
  rw [List.prefix_nil.mp hnames] at h ⊢
  simpa [eq_comm] using h

theorem Clean.concat {tree : Tree} {place : Location} {name : Name} (h : Clean tree place)
    (hname : ∀ limit there, tree.follow true limit place [name.bytes] = some there →
      there = place ++ [name]) : Clean tree (place ++ [name]) := by
  intro names hnames limit there hthere
  rcases List.prefix_concat_iff.mp hnames with rfl | hnames
  · rw [List.map_append] at hthere
    obtain ⟨between, hbetween, hlast⟩ := Tree.follow_append hthere
    rw [h place (List.prefix_refl _) limit between hbetween] at hlast
    exact hname limit there hlast
  · exact h names hnames limit there hthere

theorem clean_of_directory {tree : Tree} {place : Location}
    (h : tree.node place = some .directory) : Clean tree place := by
  induction place using List.reverseRecOn with
  | nil => exact clean_nil tree
  | append_singleton place name ih =>
    have hentry : (tree.node (place ++ [name])).isSome := by simp [h]
    refine (ih (Tree.node_of_node_concat hentry)).concat fun limit there hthere => ?_
    rw [Tree.follow_down_directory (move_bytes name) h] at hthere
    simpa [eq_comm] using hthere

theorem lstat_eq_node {tree : Tree} {place : Location} (h : Clean tree place) (limit : Nat)
    (name : Name) : tree.lstat limit (render (place ++ [name])) = tree.node (place ++ [name]) := by
  rw [Tree.lstat_render_concat]
  cases hfollow : tree.follow true limit [] (place.map Name.bytes) with
  | some there =>
    rw [h place (List.prefix_refl _) limit there hfollow]
    rfl
  | none =>
    -- An entry lies in a directory, and the names of a directory lead to it.
    cases hnode : tree.node (place ++ [name]) with
    | none => rfl
    | some node =>
      have hentry : (tree.node (place ++ [name])).isSome := by simp [hnode]
      have hplace : tree.follow true limit [] (place.map Name.bytes ++ []) = some place := by
        rw [Tree.follow_directory (Tree.node_of_node_concat hentry), Tree.follow_nil]
      rw [List.append_nil, hfollow] at hplace
      cases hplace

/-! ## What a round keeps -/

/-- The parts that are left, without the marks. -/
def names (pending : List Part) : List Bytes :=
  pending.filterMap fun
    | .name bytes => some bytes
    | .resolved _ => none

@[simp] theorem names_nil : names [] = [] := rfl

@[simp] theorem names_name (bytes : Bytes) (pending : List Part) :
    names (.name bytes :: pending) = bytes :: names pending := rfl

@[simp] theorem names_resolved (link : Bytes) (pending : List Part) :
    names (.resolved link :: pending) = names pending := rfl

@[simp] theorem names_pushParts (pending : List Part) (path : Bytes) :
    names (pushParts pending path) = parts path ++ names pending := by
  simp [names, pushParts, List.filterMap_append, List.filterMap_map]

/-- Wherever the reference resolution of `path` from `here` ends, the one of `path'` from `here'`
ends in the same place. -/
def Leads (tree : Tree) (here : Location) (path : List Bytes) (here' : Location)
    (path' : List Bytes) : Prop :=
  ∀ limit there, tree.follow false limit here path = some there →
    tree.follow false limit here' path' = some there

/-- A link whose mark is on the stack above `before`: the reference needs one link fewer for what
is left of its target than for the link. -/
def Opened (tree : Tree) (here : Location) (link : Bytes) (before : List Part) : Prop :=
  ∃ place name target, link = render (place ++ [name]) ∧
    tree.node (place ++ [name]) = some (.link target) ∧
    ∀ limit there, tree.follow false (limit + 1) place [name.bytes] = some there →
      tree.follow false limit here (names before) = some there

/-- A link whose target is resolved. -/
def Closed (tree : Tree) (place : Location) (name : Name) (target : Bytes) : Prop :=
  ∃ there, target = render there ∧ Clean tree there ∧
    ∀ limit other, tree.follow false limit place [name.bytes] = some other → other = there

/-- The state of the loop at `here`, in the resolution of `path` from `first`. -/
structure Invariant (tree : Tree) (first : Location) (path : List Bytes) (s : State)
    (here : Location) : Prop where
  resolved : s.resolved = render here
  clean : Clean tree here
  slashless : ∀ bytes, .name bytes ∈ s.pending → slash ∉ bytes
  leads : Leads tree first path here (names s.pending)
  opened : ∀ link before after, s.pending = before ++ .resolved link :: after →
    Opened tree here link before
  marked : ∀ link, s.seen.lookup link = some none → .resolved link ∈ s.pending
  closed : ∀ place name target, s.seen.lookup (render (place ++ [name])) = some (some target) →
    Closed tree place name target

section Rounds

variable {tree : Tree} {first here here' : Location} {path : List Bytes} {resolved part link : Bytes}
  {pending : List Part} {seen : Seen}

theorem Invariant.lead (h : Invariant tree first path ⟨resolved, .name part :: pending, seen⟩ here)
    (hclean : Clean tree here') (hleads : ∀ rest, Leads tree here (part :: rest) here' rest) :
    Invariant tree first path ⟨render here', pending, seen⟩ here' where
  resolved := rfl
  clean := hclean
  slashless bytes hbytes := h.slashless bytes (List.mem_cons_of_mem _ hbytes)
  leads limit there hthere := hleads _ limit there (h.leads limit there hthere)
  opened link before after hpending := by
    obtain ⟨place, name, target, hlink, hnode, hfollow⟩ :=
      h.opened link (.name part :: before) after (congrArg (List.cons _) hpending)
    exact ⟨place, name, target, hlink, hnode, fun limit there hthere =>
      hleads _ limit there (hfollow limit there hthere)⟩
  marked link hlink := by simpa using h.marked link hlink
  closed := h.closed

/-- No resolution through a link that is met again before its mark ends. -/
theorem Invariant.follow_eq_none {name : Name} (limit : Nat)
    (h : Invariant tree first path ⟨resolved, .name name.bytes :: pending, seen⟩ here)
    (hseen : seen.lookup (render (here ++ [name])) = some none) :
    tree.follow false limit here [name.bytes] = none := by
  obtain ⟨before, after, hpending⟩ := List.append_of_mem (h.marked _ hseen)
  obtain ⟨place, name', target, hlink, hnode, hfollow⟩ := h.opened _ before after hpending
  obtain ⟨rfl, rfl⟩ : here = place ∧ name = name' := by simpa using render_injective hlink
  cases before with
  | nil => cases hpending
  | cons top before =>
    obtain rfl : .name name.bytes = top := (List.cons.inj hpending).1
    rw [names_name] at hfollow
    induction limit with
    | zero => exact Tree.follow_link_zero (move_bytes name) hnode
    | succ limit ih =>
      rw [Option.eq_none_iff_forall_ne_some] at ih ⊢
      intro there hthere
      have hshort := hfollow limit there hthere
      rw [← List.singleton_append] at hshort
      obtain ⟨between, hbetween, -⟩ := Tree.follow_append hshort
      exact ih between hbetween

theorem Invariant.close (h : Invariant tree first path ⟨resolved, .resolved link :: pending, seen⟩ here) :
    Invariant tree first path ⟨resolved, pending, (link, some resolved) :: seen⟩ here where
  resolved := h.resolved
  clean := h.clean
  slashless bytes hbytes := h.slashless bytes (List.mem_cons_of_mem _ hbytes)
  leads := h.leads
  opened link' before after hpending :=
    h.opened link' (.resolved link :: before) after (congrArg (List.cons _) hpending)
  marked link' hlink' := by
    dsimp only at hlink'
    rw [Assoc.lookup_cons_eq] at hlink'
    split_ifs at hlink' with heq
    · cases hlink'
    · have hmem := h.marked link' hlink'
      simpa [heq] using hmem
  closed place name target htarget := by
    dsimp only at htarget
    rw [Assoc.lookup_cons_eq] at htarget
    split_ifs at htarget with heq
    · obtain rfl : resolved = target := by simpa using htarget
      obtain ⟨place', name', target', hlink, hnode, hfollow⟩ := h.opened link [] pending rfl
      dsimp only at heq
      rw [hlink] at heq
      obtain ⟨rfl, rfl⟩ : place = place' ∧ name = name' := by simpa using render_injective heq
      refine ⟨here, h.resolved, h.clean, fun limit other hother => ?_⟩
      cases limit with
      | zero => cases (Tree.follow_link_zero (move_bytes name) hnode).symm.trans hother
      | succ limit => simpa [eq_comm] using hfollow limit other hother
    · exact h.closed place name target htarget

theorem mark_of_map_append {bytes : List Bytes} {before after : List Part}
    (h : bytes.map Part.name ++ pending = before ++ .resolved link :: after) :
    ∃ below, before = bytes.map Part.name ++ below ∧ pending = below ++ .resolved link :: after := by
  induction bytes generalizing before with
  | nil => exact ⟨before, rfl, h⟩
  | cons byte bytes ih =>
    cases before with
    | nil => cases h
    | cons top before =>
      obtain ⟨htop, hrest⟩ := List.cons.inj h
      obtain ⟨below, rfl, hpending⟩ := ih hrest
      exact ⟨below, by rw [← htop]; rfl, hpending⟩

theorem leads_link {name : Name} {target : Bytes}
    (hnode : tree.node (here ++ [name]) = some (.link target)) (rest : List Bytes) :
    Leads tree here (name.bytes :: rest) (Tree.start here target) (parts target ++ rest) := by
  intro limit there hthere
  cases limit with
  | zero => cases (Tree.follow_link_zero (move_bytes name) hnode).symm.trans hthere
  | succ limit =>
    rw [Tree.follow_link (move_bytes name) hnode] at hthere
    exact Tree.follow_mono (Nat.le_succ _) hthere

theorem Invariant.follow {name : Name} {target : Bytes}
    (h : Invariant tree first path ⟨resolved, .name name.bytes :: pending, seen⟩ here)
    (hnode : tree.node (here ++ [name]) = some (.link target)) :
    Invariant tree first path
      ⟨render (Tree.start here target),
        pushParts (.resolved (render (here ++ [name])) :: pending) target,
        (render (here ++ [name]), none) :: seen⟩ (Tree.start here target) where
  resolved := rfl
  clean := by
    unfold Tree.start
    split_ifs
    · exact clean_nil tree
    · exact h.clean
  slashless bytes hbytes := by
    simp only [pushParts, List.mem_append, List.mem_map, Part.name.injEq, exists_eq_right,
      List.mem_cons, reduceCtorEq, false_or] at hbytes
    rcases hbytes with hbytes | hbytes
    · exact Sequence.notMem_of_mem_splitOn hbytes
    · exact h.slashless bytes (List.mem_cons_of_mem _ hbytes)
  leads limit there hthere := by
    dsimp only
    rw [names_pushParts, names_resolved]
    exact leads_link hnode _ limit there (h.leads limit there hthere)
  opened link before after hpending := by
    obtain ⟨below, rfl, hbelow⟩ := mark_of_map_append hpending
    cases below with
    | nil =>
      obtain rfl : render (here ++ [name]) = link := by simpa using (List.cons.inj hbelow).1
      refine ⟨here, name, target, rfl, hnode, fun limit there hthere => ?_⟩
      rw [Tree.follow_link (move_bytes name) hnode] at hthere
      simpa [pushParts, names, List.filterMap_map] using hthere
    | cons top below =>
      obtain ⟨rfl, hrest⟩ := List.cons.inj hbelow
      obtain ⟨place, name', target', hlink, hnode', hfollow⟩ :=
        h.opened link (.name name.bytes :: below) after (congrArg (List.cons _) hrest)
      refine ⟨place, name', target', hlink, hnode', fun limit there hthere => ?_⟩
      have hlead := leads_link hnode _ limit there (hfollow limit there hthere)
      change Tree.follow _ _ _ _ (names (pushParts (_ :: below) target)) = _
      rwa [names_pushParts, names_resolved]
  marked link hlink := by
    dsimp only at hlink
    rw [Assoc.lookup_cons_eq] at hlink
    split_ifs at hlink with heq
    · rw [heq]
      simp [pushParts]
    · have hmem := h.marked link hlink
      simp only [List.mem_cons, reduceCtorEq, false_or] at hmem
      simp [pushParts, hmem]
  closed place name' target' htarget := by
    dsimp only at htarget
    rw [Assoc.lookup_cons_eq] at htarget
    split_ifs at htarget with heq
    · cases htarget
    · exact h.closed place name' target' htarget

theorem leads_stay (hpart : move part = .stay) (rest : List Bytes) :
    Leads tree here (part :: rest) here rest :=
  fun _ _ hthere => (Tree.follow_stay hpart).symm.trans hthere

theorem leads_up (hpart : move part = .up) (rest : List Bytes) :
    Leads tree here (part :: rest) here.dropLast rest :=
  fun _ _ hthere => (Tree.follow_up hpart).symm.trans hthere

theorem leads_down {name : Name}
    (hnode : ∀ target, tree.node (here ++ [name]) ≠ some (.link target)) (rest : List Bytes) :
    Leads tree here (name.bytes :: rest) (here ++ [name]) rest :=
  fun _ _ hthere => (Tree.follow_down (move_bytes name) hnode).symm.trans hthere

/-- A link leads to the place that was remembered for it. -/
theorem Closed.leads {name : Name} {there : Location}
    (h : ∀ limit other, tree.follow false limit here [name.bytes] = some other → other = there)
    (rest : List Bytes) : Leads tree here (name.bytes :: rest) there rest := by
  intro limit other hother
  rw [← List.singleton_append] at hother
  obtain ⟨between, hbetween, hrest⟩ := Tree.follow_append hother
  rwa [h limit between hbetween] at hrest

theorem Invariant.leads_loop {name : Name}
    (h : Invariant tree first path ⟨resolved, .name name.bytes :: pending, seen⟩ here)
    (hseen : seen.lookup (render (here ++ [name])) = some none) (rest : List Bytes) :
    Leads tree here (name.bytes :: rest) (here ++ [name]) rest := by
  intro limit there hthere
  rw [← List.singleton_append] at hthere
  obtain ⟨between, hbetween, -⟩ := Tree.follow_append hthere
  cases (h.follow_eq_none limit hseen).symm.trans hbetween

/-- A place that the reference does not leave on its last part is one that the system finds. -/
theorem Clean.concat_of_follow {name : Name} (h : Clean tree here)
    (hname : ∀ limit there, tree.follow false limit here [name.bytes] = some there →
      there = here ++ [name]) : Clean tree (here ++ [name]) :=
  h.concat fun limit there hthere => hname limit there (Tree.follow_of_strict hthere)

end Rounds

/-! ## Rounds -/

section Advance

variable {host : Host} {first here : Location} {path : List Bytes} {resolved part : Bytes}
  {pending : List Part} {seen : Seen}

theorem step_name (name : Name) :
    step host ⟨render here, pending, seen⟩ name.bytes =
      match link host (render (here ++ [name])) seen with
      | .keep => ⟨render (here ++ [name]), pending, seen⟩
      | .cached target => ⟨target, pending, seen⟩
      | .follow target =>
        ⟨render (Tree.start here target),
          pushParts (.resolved (render (here ++ [name])) :: pending) target,
          (render (here ++ [name]), none) :: seen⟩ := by
  have hproper : ¬ (name.bytes = [] ∨ name.bytes = dot) := not_or.mpr ⟨name.ne_nil, name.ne_dot⟩
  rw [step, if_neg hproper, if_neg name.ne_dotdot]
  dsimp only
  rw [next_eq]
  cases link host (render (here ++ [name])) seen with
  | keep => rfl
  | cached target => rfl
  | follow target =>
    dsimp only
    rw [Tree.start, apply_ite render, render_nil]

theorem link_of_no_link {name : Name} (h : Clean host.tree here)
    (hnode : ∀ target, host.tree.node (here ++ [name]) ≠ some (.link target)) :
    link host (render (here ++ [name])) seen = .keep := by
  rw [link, lstat_eq_node h]
  split
  · exact absurd ‹_› (hnode _)
  · rfl

theorem link_of_link {name : Name} {target : Bytes} (h : Clean host.tree here)
    (hnode : host.tree.node (here ++ [name]) = some (.link target)) :
    link host (render (here ++ [name])) seen =
      match seen.lookup (render (here ++ [name])) with
      | some (some cached) => .cached cached
      | some none => .keep
      | none => .follow target := by
  rewrite [link, lstat_eq_node h, hnode]
  rfl

/-- A part either leads to another place, with the rest of the stack left as it is, or it is a link
that is met for the first time. -/
theorem Invariant.step_cases
    (h : Invariant host.tree first path ⟨resolved, .name part :: pending, seen⟩ here) :
    (∃ here', (∀ rest, Leads host.tree here (part :: rest) here' rest) ∧ Clean host.tree here' ∧
      step host ⟨resolved, pending, seen⟩ part = ⟨render here', pending, seen⟩) ∨
    (∃ name target, part = name.bytes ∧
      host.tree.node (here ++ [name]) = some (.link target) ∧
      seen.lookup (render (here ++ [name])) = none ∧
      step host ⟨resolved, pending, seen⟩ part =
        ⟨render (Tree.start here target),
          pushParts (.resolved (render (here ++ [name])) :: pending) target,
          (render (here ++ [name]), none) :: seen⟩) := by
  obtain rfl : resolved = render here := h.resolved
  by_cases hstay : part = [] ∨ part = dot
  · exact .inl ⟨here, leads_stay (dif_pos hstay), h.clean, if_pos hstay⟩
  by_cases hup : part = dotdot
  · refine .inl ⟨here.dropLast, leads_up ?_, h.clean.dropLast, ?_⟩
    · rw [move, dif_neg hstay, dif_pos hup]
    · rw [step, if_neg hstay, if_pos hup, toParent_render]
  obtain ⟨name, rfl⟩ : ∃ name : Name, part = name.bytes :=
    ⟨⟨part, fun h => hstay (.inl h), fun h => hstay (.inr h), hup,
      h.slashless part List.mem_cons_self⟩, rfl⟩
  rw [step_name]
  by_cases hlink : ∃ target, host.tree.node (here ++ [name]) = some (.link target)
  · obtain ⟨target, hnode⟩ := hlink
    rw [link_of_link h.clean hnode]
    cases hseen : seen.lookup (render (here ++ [name])) with
    | none => exact .inr ⟨name, target, rfl, hnode, hseen, rfl⟩
    | some found =>
      cases found with
      | none =>
        -- The link is part of a loop: it stays as written, and no resolution goes through it.
        refine .inl ⟨here ++ [name], h.leads_loop hseen, h.clean.concat_of_follow ?_, rfl⟩
        intro limit there hthere
        cases (h.follow_eq_none limit hseen).symm.trans hthere
      | some cached =>
        obtain ⟨there, rfl, hclean, hsame⟩ := h.closed here name cached hseen
        exact .inl ⟨there, Closed.leads hsame, hclean, rfl⟩
  · have hnode : ∀ target, host.tree.node (here ++ [name]) ≠ some (.link target) :=
      fun target htarget => hlink ⟨target, htarget⟩
    rw [link_of_no_link h.clean hnode]
    refine .inl ⟨here ++ [name], leads_down hnode, h.clean.concat_of_follow ?_, rfl⟩
    intro limit there hthere
    rw [Tree.follow_down (move_bytes name) hnode] at hthere
    simpa [eq_comm] using hthere

/-- What is left to do: the stack, and what the links that were never met can put on it. -/
def remaining (tree : Tree) (s : State) : Nat :=
  s.pending.length + ((tree.entries.filter fun entry =>
    (s.seen.lookup (render entry.1)).isNone).map weight).sum

theorem sum_filter_le (entries : List (Location × Node)) {p q : Location × Node → Bool}
    (hqp : ∀ entry, q entry → p entry) :
    ((entries.filter q).map weight).sum ≤ ((entries.filter p).map weight).sum :=
  ((List.monotone_filter_right entries hqp).map weight).sum_le_sum (by simp)

theorem sum_filter_add_le {entries : List (Location × Node)} {entry : Location × Node}
    {p q : Location × Node → Bool} (hentry : entry ∈ entries) (hp : p entry) (hq : q entry = false)
    (hqp : ∀ other, q other → p other) :
    ((entries.filter q).map weight).sum + weight entry ≤ ((entries.filter p).map weight).sum := by
  obtain ⟨before, after, rfl⟩ := List.append_of_mem hentry
  have hbefore := sum_filter_le before hqp
  have hafter := sum_filter_le after hqp
  simp only [List.filter_append, List.filter_cons, hp, hq, if_true, Bool.false_eq_true, if_false,
    List.map_append, List.map_cons, List.sum_append, List.sum_cons]
  omega

/-- An entry that is met is seen from then on. -/
theorem isNone_of_isNone_cons {seen : Seen} {key other : Bytes} {value : Option Bytes}
    (h : (List.lookup other ((key, value) :: seen)).isNone) : (seen.lookup other).isNone := by
  rw [Assoc.lookup_cons_eq] at h
  split_ifs at h
  · cases h
  · exact h

/-- Every round keeps the invariant and leaves less to do. -/
theorem Invariant.advance {part : Part}
    (h : Invariant host.tree first path ⟨resolved, part :: pending, seen⟩ here) :
    (∃ here', Invariant host.tree first path
      (advance host ⟨resolved, pending, seen⟩ part) here') ∧
    remaining host.tree (Contain.advance host ⟨resolved, pending, seen⟩ part) <
      remaining host.tree ⟨resolved, part :: pending, seen⟩ := by
  cases part with
  | resolved link =>
    refine ⟨⟨here, h.close⟩, ?_⟩
    have hunseen := sum_filter_le host.tree.entries
      (p := fun entry => (seen.lookup (render entry.1)).isNone)
      (q := fun entry => (List.lookup (render entry.1) ((link, some resolved) :: seen)).isNone)
      fun _ => isNone_of_isNone_cons
    simp only [remaining, Contain.advance, List.length_cons]
    omega
  | name part =>
    rcases h.step_cases with ⟨here', hleads, hclean, hstep⟩ | ⟨name, target, rfl, hnode, hseen, hstep⟩
    · rw [Contain.advance, hstep]
      refine ⟨⟨here', h.lead hclean hleads⟩, ?_⟩
      simp [remaining]
    · rw [Contain.advance, hstep]
      refine ⟨⟨_, h.follow hnode⟩, ?_⟩
      have hunseen := sum_filter_add_le (Tree.mem_entries_of_node (by simp) hnode)
        (p := fun entry => (seen.lookup (render entry.1)).isNone)
        (q := fun entry =>
          (List.lookup (render entry.1) ((render (here ++ [name]), none) :: seen)).isNone)
        (by simp [hseen]) (by simp) fun _ => isNone_of_isNone_cons
      simp only [remaining, pushParts, weight, List.length_append, List.length_map,
        List.length_cons] at hunseen ⊢
      omega

theorem Invariant.loop_nil (h : Invariant host.tree first path ⟨resolved, [], seen⟩ here)
    (rounds : Nat) :
    ∃ there, loop host rounds ⟨resolved, [], seen⟩ = some (render there) ∧ Clean host.tree there ∧
      ∀ limit other, host.tree.follow false limit first path = some other → other = there := by
  have hresolved : resolved = render here := h.resolved
  refine ⟨here, by rw [Contain.loop, hresolved], h.clean, fun limit other hother => ?_⟩
  simpa [eq_comm] using h.leads limit other hother

/-- The loop ends, in the place where the reference ends if it does. -/
theorem Invariant.loop {s : State} (h : Invariant host.tree first path s here) (rounds : Nat)
    (hrounds : remaining host.tree s ≤ rounds) :
    ∃ there, loop host rounds s = some (render there) ∧ Clean host.tree there ∧
      ∀ limit other, host.tree.follow false limit first path = some other → other = there := by
  induction rounds generalizing s here with
  | zero =>
    obtain ⟨resolved, pending, seen⟩ := s
    cases pending with
    | nil => exact h.loop_nil 0
    | cons part pending =>
      simp only [remaining, List.length_cons] at hrounds
      omega
  | succ rounds ih =>
    obtain ⟨resolved, pending, seen⟩ := s
    cases pending with
    | nil => exact h.loop_nil (rounds + 1)
    | cons part pending =>
      obtain ⟨⟨here', hnext⟩, hless⟩ := h.advance
      obtain ⟨there, hloop, hthere⟩ := ih hnext (by omega)
      exact ⟨there, by rw [Contain.loop, hloop], hthere⟩

end Advance

theorem invariant_start {tree : Tree} {first : Location}
    (h : tree.node first = some .directory) (path : Bytes) :
    Invariant tree first (parts path) ⟨render first, pushParts [] path, []⟩ first where
  resolved := rfl
  clean := clean_of_directory h
  slashless bytes hbytes := by
    simp only [pushParts, List.append_nil, List.mem_map, Part.name.injEq, exists_eq_right] at hbytes
    exact Sequence.notMem_of_mem_splitOn hbytes
  leads limit there hthere := by simpa using hthere
  opened link before after hpending := by
    obtain ⟨below, -, hbelow⟩ := mark_of_map_append hpending
    simp at hbelow
  marked link hlink := by cases hlink
  closed place name target htarget := by cases htarget

/-- The place from which a path is resolved. -/
def Host.first (host : Host) (path : Bytes) : Option Location :=
  if isAbsolute path then some [] else host.cwd

theorem Host.directory_of_first {host : Host} {path : Bytes} {first : Location}
    (h : host.first path = some first) : host.tree.node first = some .directory := by
  unfold Host.first at h
  split_ifs at h
  · cases h
    rfl
  · exact host.directory_of_cwd first h

theorem resolve_of_first_eq_none {host : Host} {path : Bytes} (hpath : 0 ∉ path)
    (hfirst : host.first path = none) : resolve host path = .error .noWorkingDirectory := by
  unfold Host.first at hfirst
  rw [resolve, if_neg hpath, hfirst]

/-- The resolution of a path that can be named ends, and in the reference's place. -/
theorem resolve_spec {host : Host} {path : Bytes} {first : Location} (hpath : 0 ∉ path)
    (hfirst : host.first path = some first) :
    ∃ there, resolve host path = .ok (render there) ∧ Clean host.tree there ∧
      ∀ limit other, host.tree.follow false limit first (parts path) = some other →
        other = there := by
  have hstart := invariant_start (Host.directory_of_first hfirst) path
  obtain ⟨there, hloop, hthere⟩ := hstart.loop (rounds host path) (by
    simp [remaining, rounds, pushParts])
  refine ⟨there, ?_, hthere⟩
  unfold Host.first at hfirst
  rw [resolve, if_neg hpath, hfirst]
  dsimp only
  rw [hloop]

theorem resolve_ne_endless (host : Host) (path : Bytes) : resolve host path ≠ .error .endless := by
  by_cases hpath : 0 ∈ path
  · simp [resolve, hpath]
  · cases hfirst : host.first path with
    | none => simp [resolve_of_first_eq_none hpath hfirst]
    | some first =>
      obtain ⟨there, hresolve, -⟩ := resolve_spec hpath hfirst
      simp [hresolve]

/-- A path that is resolved can be named, and it has a place to start from. -/
theorem first_of_resolve {host : Host} {path resolved : Bytes}
    (h : resolve host path = .ok resolved) :
    0 ∉ path ∧ ∃ first, host.first path = some first := by
  by_cases hpath : 0 ∈ path
  · simp [resolve, hpath] at h
  · cases hfirst : host.first path with
    | none => cases (resolve_of_first_eq_none hpath hfirst).symm.trans h
    | some first => exact ⟨hpath, first, rfl⟩

theorem exists_render_of_resolve {host : Host} {path resolved : Bytes}
    (h : resolve host path = .ok resolved) : ∃ place, resolved = render place := by
  obtain ⟨hpath, first, hfirst⟩ := first_of_resolve h
  obtain ⟨there, hresolve, -⟩ := resolve_spec hpath hfirst
  exact ⟨there, Except.ok.inj (h.symm.trans hresolve)⟩

theorem containedPath_eq_ok {host : Host} {root candidate inside : Bytes}
    (h : containedPath host root candidate = .ok inside) :
    ∃ base place, resolve host root = .ok (render base) ∧ inside = render place ∧ base <+: place := by
  unfold containedPath at h
  split at h
  · cases h
  · rename_i resolvedRoot hroot
    dsimp only at h
    split at h
    · cases h
    · rename_i resolved hresolved
      split_ifs at h with hinside
      cases h
      obtain ⟨base, rfl⟩ := exists_render_of_resolve hroot
      obtain ⟨place, rfl⟩ := exists_render_of_resolve hresolved
      exact ⟨base, place, hroot, rfl, startsWith_render.mp hinside⟩

/-- The resolution ends on every tree. Where the reference resolution ends, after any number of
links, it is the same, and its result has no `.`, no `..` and no link on its way. What
`containedPath` accepts lies under the resolved root. -/
theorem resolve_follows_reference (host : Host) :
    (∀ path, resolve host path ≠ .error .endless) ∧
    (∀ path, isAbsolute path → 0 ∉ path → ∃ resolved, resolve host path = .ok resolved) ∧
    (∀ path limit there, isAbsolute path → 0 ∉ path →
      host.tree.follow false limit [] (parts path) = some there →
      resolve host path = .ok (render there) ∧
      (∀ component ∈ components (render there), component ≠ .curDir ∧ component ≠ .parentDir) ∧
      host.tree.Straight there) ∧
    (∀ root candidate inside, containedPath host root candidate = .ok inside →
      ∃ base place, resolve host root = .ok (render base) ∧ inside = render place ∧
        base <+: place) := by
  have hfirst {path : Bytes} (hpath : isAbsolute path) : host.first path = some [] := if_pos hpath
  refine ⟨resolve_ne_endless host, ?_, ?_, fun _ _ _ => containedPath_eq_ok⟩
  · intro path habsolute hpath
    obtain ⟨there, hresolve, -⟩ := resolve_spec hpath (hfirst habsolute)
    exact ⟨render there, hresolve⟩
  · intro path limit there habsolute hpath hthere
    obtain ⟨there', hresolve, -, hsame⟩ := resolve_spec hpath (hfirst habsolute)
    obtain rfl := hsame limit there hthere
    refine ⟨hresolve, ?_, Tree.straight_nil.follow hthere⟩
    rw [components_render]
    intro component hcomponent
    rcases List.mem_cons.mp hcomponent with rfl | hcomponent
    · simp
    · obtain ⟨name, -, rfl⟩ := List.mem_map.mp hcomponent
      simp

/-! ## Containment where the links form no loop

There every resolution is the reference's, so a candidate that is accepted has a place below the
root, and the names that lead from the root to that place are accepted and lead to it again. -/

variable {host : Host} {root candidate inside : Bytes} {base names : Location}

theorem resolve_loopless {path resolved : Bytes} (hloops : host.tree.Loopless)
    (h : resolve host path = .ok resolved) :
    ∃ first limit there, host.first path = some first ∧ resolved = render there ∧
      0 ∉ path ∧ host.tree.Straight there ∧
      host.tree.follow false limit first (parts path) = some there := by
  obtain ⟨hpath, first, hfirst⟩ := first_of_resolve h
  have hdirectory := Host.directory_of_first hfirst
  obtain ⟨limit, there, hthere⟩ := hloops.follow_directory hdirectory (parts path)
  obtain ⟨there', hresolve, -, hsame⟩ := resolve_spec hpath hfirst
  obtain rfl := hsame limit there hthere
  exact ⟨first, limit, there, hfirst, Except.ok.inj (h.symm.trans hresolve), hpath,
    (Tree.straight_of_directory hdirectory).follow hthere, hthere⟩

theorem resolve_of_follow {path : Bytes} {limit : Nat} {there : Location}
    (habsolute : isAbsolute path) (hpath : 0 ∉ path)
    (h : host.tree.follow false limit [] (parts path) = some there) :
    resolve host path = .ok (render there) := by
  obtain ⟨there', hresolve, -, hsame⟩ := resolve_spec hpath (if_pos habsolute)
  rw [hresolve, hsame limit there h]

/-- A place without links on its way is its own resolution. -/
theorem resolve_render {place : Location} (hplace : host.tree.Straight place)
    (hnul : 0 ∉ render place) : resolve host (render place) = .ok (render place) := by
  have hfollow : host.tree.follow false 0 [] (parts (render place)) = some place := by
    rcases eq_or_ne place [] with rfl | hne
    · rfl
    · rw [parts_render hne, Tree.follow_stay move_nil, ← List.append_nil (place.map _),
        hplace.follow_names, Tree.follow_nil]
  exact resolve_of_follow (isAbsolute_render place) hnul hfollow

/-- The resolution of a relative path joined to a place goes on from the place. -/
theorem follow_join {tree : Tree} {limit : Nat} (hbase : tree.Straight base)
    (hcandidate : isAbsolute candidate = false) :
    tree.follow false limit [] (parts (join (render base) candidate)) =
      tree.follow false limit base (parts candidate) := by
  rw [parts_join_render base hcandidate, List.cons_append, Tree.follow_stay move_nil,
    hbase.follow_names]

/-- The place from which a candidate is resolved. -/
def origin (base : Location) (candidate : Bytes) : Location :=
  if isAbsolute candidate then [] else base

/-- A candidate that is accepted leads to a place below the root. -/
theorem containedPath_lands (hloops : host.tree.Loopless)
    (h : containedPath host root candidate = .ok inside) :
    ∃ base names limit, resolve host root = .ok (render base) ∧ inside = render (base ++ names) ∧
      host.tree.Straight base ∧ host.tree.Straight (base ++ names) ∧ 0 ∉ candidate ∧
      host.tree.follow false limit (origin base candidate) (parts candidate) =
        some (base ++ names) := by
  unfold containedPath at h
  split at h
  · cases h
  · rename_i resolvedRoot hroot
    dsimp only at h
    split at h
    · cases h
    · rename_i resolved hresolved
      split_ifs at h with hinside
      cases h
      obtain ⟨-, -, base, -, rfl, -, hbase, -⟩ := resolve_loopless hloops hroot
      obtain ⟨first, limit, place, hfirst, rfl, hnul, hplace, hfollow⟩ :=
        resolve_loopless hloops hresolved
      obtain ⟨names, rfl⟩ := startsWith_render.mp hinside
      refine ⟨base, names, limit, hroot, rfl, hbase, hplace, ?_⟩
      cases hcandidate : isAbsolute candidate with
      | true =>
        rw [hcandidate, if_pos rfl] at hnul hfollow hfirst
        obtain rfl : [] = first := by simpa [Host.first, hcandidate] using hfirst
        exact ⟨hnul, by rwa [origin, hcandidate, if_pos rfl]⟩
      | false =>
        rw [hcandidate, if_neg Bool.false_ne_true] at hnul hfollow hfirst
        obtain rfl : [] = first := by
          simpa [Host.first, isAbsolute_join_render base hcandidate] using hfirst
        rw [follow_join hbase hcandidate] at hfollow
        refine ⟨fun hmem => hnul ?_, by rwa [origin, hcandidate, if_neg Bool.false_ne_true]⟩
        exact (mem_join hcandidate).mpr (.inr (.inl hmem))

/-- What leads from the root to a place below it, as a candidate. -/
structure Leading (tree : Tree) (base : Location) (candidate : Bytes) (place : Location) : Prop where
  relative : isAbsolute candidate = false
  nul_notMem : 0 ∉ candidate
  follow : tree.follow false 0 base (parts candidate) = some place

theorem containedPath_of_leading (hroot : resolve host root = .ok (render base))
    (hbase : host.tree.Straight base) (hnul : 0 ∉ render base)
    (h : Leading host.tree base candidate (base ++ names)) :
    containedPath host root candidate = .ok (render (base ++ names)) := by
  have hresolve : resolve host (join (render base) candidate) = .ok (render (base ++ names)) := by
    refine resolve_of_follow (isAbsolute_join_render base h.relative) (fun hmem => ?_)
      ((follow_join hbase h.relative).trans h.follow)
    rcases (mem_join h.relative).mp hmem with hmem | hmem | hmem
    · exact hnul hmem
    · exact h.nul_notMem hmem
    · cases hmem.1
  rw [containedPath, hroot]
  dsimp only
  rw [h.relative, if_neg Bool.false_ne_true, hresolve]
  dsimp only
  rw [if_pos (startsWith_render.mpr (List.prefix_append _ _))]

theorem containedPath_render (hroot : resolve host root = .ok (render base))
    (hbase : host.tree.Straight base) (hnul : 0 ∉ render base) :
    containedPath host (render base) candidate = containedPath host root candidate := by
  rw [containedPath, containedPath, hroot, resolve_render hbase hnul]

end Agentless.Io.Contain
