import Agentless.Library.Assoc
import Mathlib.Data.Finset.Card
import Mathlib.Data.List.Nodup

/-!
# Breadth-first search with a map of predecessors

A search from one node for another over labelled steps. A queue holds the nodes that are still to
look at, and a map holds, for each node that was reached, the label of the step that reached it
first. The goal is looked for before a node is taken in, so a search for its own start finds a
cycle.

1. The queue holds the nodes at one distance from the start, then nodes at the next.
2. Walking the map back from the step that found the goal gives a shortest chain to it.
3. A search that finds nothing proves that no chain leads to the goal.
-/

namespace Agentless.Search

variable {ν ε : Type}

/-- The label by which each node was first reached, the latest first, and the nodes to look at. -/
structure Frontier (ν ε : Type) where
  previous : List (ν × ε)
  queue : List ν

section Loop

variable (allow : ν → Bool) (goal : ν)

/-- What a scan puts into a map of predecessors: new children, each once, the latest first. -/
structure Fresh (steps : List (ε × ν)) (previous : List (ν × ε)) (new : List (ν × ε)) : Prop where
  steps : ∀ entry ∈ new, (entry.2, entry.1) ∈ steps
  allow : ∀ entry ∈ new, allow entry.1 = true
  goal : ∀ entry ∈ new, entry.1 ≠ goal
  unseen : ∀ entry ∈ new, entry.1 ∉ previous.map Prod.fst
  nodup : (new.map Prod.fst).Nodup

variable {allow goal}

theorem Fresh.nil (steps : List (ε × ν)) (previous : List (ν × ε)) :
    Fresh allow goal steps previous [] := ⟨nofun, nofun, nofun, nofun, .nil⟩

theorem Fresh.cons {steps : List (ε × ν)} {previous new : List (ν × ε)}
    (h : Fresh allow goal steps previous new) (step : ε × ν) :
    Fresh allow goal (step :: steps) previous new :=
  { h with steps := fun entry hentry => List.mem_cons_of_mem _ (h.steps entry hentry) }

/-- A child that was taken in stays in front of what follows it. -/
theorem Fresh.taken {steps : List (ε × ν)} {previous new : List (ν × ε)} {label : ε} {child : ν}
    (h : Fresh allow goal steps ((child, label) :: previous) new) (hallow : allow child = true)
    (hgoal : child ≠ goal) (hunseen : child ∉ previous.map Prod.fst) :
    Fresh allow goal ((label, child) :: steps) previous (new ++ [(child, label)]) where
  steps := by
    simp only [List.mem_append, List.mem_singleton]
    rintro entry (hentry | rfl)
    · exact List.mem_cons_of_mem _ (h.steps entry hentry)
    · exact List.mem_cons_self
  allow := by
    simp only [List.mem_append, List.mem_singleton]
    rintro entry (hentry | rfl)
    · exact h.allow entry hentry
    · exact hallow
  goal := by
    simp only [List.mem_append, List.mem_singleton]
    rintro entry (hentry | rfl)
    · exact h.goal entry hentry
    · exact hgoal
  unseen := by
    simp only [List.mem_append, List.mem_singleton]
    rintro entry (hentry | rfl)
    · exact fun hmem => h.unseen entry hentry (List.mem_cons_of_mem _ hmem)
    · exact hunseen
  nodup := by
    rw [List.map_append, List.nodup_append]
    refine ⟨h.nodup, List.nodup_singleton _, ?_⟩
    rintro node hnode other hother rfl
    obtain ⟨entry, hentry, rfl⟩ := List.mem_map.mp hnode
    obtain rfl : entry.1 = child := by simpa using hother
    exact h.unseen entry hentry List.mem_cons_self

variable [DecidableEq ν]

theorem lookup_isNone {previous : List (ν × ε)} {node : ν} :
    (previous.lookup node).isNone = true ↔ node ∉ previous.map Prod.fst := by
  rw [Option.isNone_iff_eq_none, List.lookup_eq_none_iff, List.mem_map]
  constructor
  · rintro h ⟨entry, hentry, rfl⟩
    simpa using h entry hentry
  · intro h entry hentry
    exact bne_iff_ne.mpr fun heq => h ⟨entry, hentry, heq.symm⟩

theorem taken_iff {previous : List (ν × ε)} {child : ν} :
    (allow child && (previous.lookup child).isNone) = true ↔
      allow child = true ∧ child ∉ previous.map Prod.fst := by
  rw [Bool.and_eq_true, lookup_isNone]

variable (allow goal) in
/-- Looks at the steps of one node in order: the label of the first one that comes to the goal, with
the map as it is then, or the frontier with every admitted child that is new. -/
def scan : List (ε × ν) → Frontier ν ε → (ε × List (ν × ε)) ⊕ Frontier ν ε
  | [], frontier => .inr frontier
  | (label, child) :: steps, frontier =>
    if child = goal then .inl (label, frontier.previous)
    else if allow child && (frontier.previous.lookup child).isNone then
      scan steps ⟨(child, label) :: frontier.previous, frontier.queue ++ [child]⟩
    else scan steps frontier

/-- A scan that finds the goal took in new children of the steps before it. -/
theorem scan_inl {steps : List (ε × ν)} {frontier : Frontier ν ε} {label : ε}
    {previous : List (ν × ε)} (h : scan allow goal steps frontier = .inl (label, previous)) :
    (label, goal) ∈ steps ∧
      ∃ new, Fresh allow goal steps frontier.previous new ∧ previous = new ++ frontier.previous := by
  fun_induction scan allow goal steps frontier with
  | case1 => cases h
  | case2 label' steps frontier =>
    cases h
    exact ⟨List.mem_cons_self, [], .nil _ _, rfl⟩
  | case3 label' child steps frontier hgoal htaken ih =>
    obtain ⟨hmem, new, hnew, rfl⟩ := ih h
    rw [taken_iff] at htaken
    exact ⟨List.mem_cons_of_mem _ hmem, _, hnew.taken htaken.1 hgoal htaken.2, by simp⟩
  | case4 label' child steps frontier hgoal hskipped ih =>
    obtain ⟨hmem, new, hnew, heq⟩ := ih h
    exact ⟨List.mem_cons_of_mem _ hmem, new, hnew.cons _, heq⟩

/-- A scan that does not find the goal has every admitted child in the map. -/
theorem scan_inr {steps : List (ε × ν)} {frontier next : Frontier ν ε}
    (h : scan allow goal steps frontier = .inr next) :
    (∀ step ∈ steps, step.2 ≠ goal ∧
      (allow step.2 = true → step.2 ∈ next.previous.map Prod.fst)) ∧
      ∃ new, Fresh allow goal steps frontier.previous new ∧
        next.previous = new ++ frontier.previous ∧
        next.queue = frontier.queue ++ (new.map Prod.fst).reverse := by
  fun_induction scan allow goal steps frontier with
  | case1 frontier =>
    cases h
    exact ⟨nofun, [], .nil _ _, by simp⟩
  | case2 => cases h
  | case3 label child steps frontier hgoal htaken ih =>
    obtain ⟨hall, new, hnew, hprevious, hqueue⟩ := ih h
    rw [taken_iff] at htaken
    refine ⟨List.forall_mem_cons.mpr ⟨⟨hgoal, fun _ => ?_⟩, hall⟩, _,
      hnew.taken htaken.1 hgoal htaken.2, by simp [hprevious], by simp [hqueue]⟩
    simp [hprevious]
  | case4 label child steps frontier hgoal hskipped ih =>
    obtain ⟨hall, new, hnew, hprevious, hqueue⟩ := ih h
    refine ⟨List.forall_mem_cons.mpr ⟨⟨hgoal, fun hallow => ?_⟩, hall⟩, new, hnew.cons _,
      hprevious, hqueue⟩
    rw [taken_iff] at hskipped
    have hmem : child ∈ frontier.previous.map Prod.fst := by
      by_contra hnot
      exact hskipped ⟨hallow, hnot⟩
    rw [hprevious, List.map_append]
    exact List.mem_append_right _ hmem

/-- The nodes of a pool that were not reached yet. -/
def unreached (pool : Finset ν) (previous : List (ν × ε)) : Nat :=
  (pool.filter (· ∉ previous.map Prod.fst)).card

/-- Each new child leaves the pool of unreached nodes. -/
theorem unreached_add_le {pool : Finset ν} {steps : List (ε × ν)} {previous new : List (ν × ε)}
    (hpool : ∀ step ∈ steps, step.2 ∈ pool) (hnew : Fresh allow goal steps previous new) :
    unreached pool (new ++ previous) + new.length ≤ unreached pool previous := by
  have hcard : new.length = (new.map Prod.fst).toFinset.card := by
    rw [List.toFinset_card_of_nodup hnew.nodup, List.length_map]
  unfold unreached
  rw [hcard, ← Finset.card_union_of_disjoint]
  · refine Finset.card_le_card fun node hnode => ?_
    rw [Finset.mem_union, Finset.mem_filter, List.mem_toFinset] at hnode
    rw [Finset.mem_filter]
    obtain ⟨hmem, hunseen⟩ | hmem := hnode
    · refine ⟨hmem, fun hold => hunseen ?_⟩
      rw [List.map_append]
      exact List.mem_append_right _ hold
    · obtain ⟨entry, hentry, rfl⟩ := List.mem_map.mp hmem
      exact ⟨hpool _ (hnew.steps entry hentry), hnew.unseen entry hentry⟩
  · rw [Finset.disjoint_left]
    intro node hnode hmem
    rw [Finset.mem_filter, List.map_append] at hnode
    exact hnode.2 (List.mem_append_left _ (List.mem_toFinset.mp hmem))

variable (allow goal)

/-- Takes node after node off the queue until a step comes to the goal or the queue is empty. Every
child lies in a finite pool. -/
def search (steps : ν → List (ε × ν)) (pool : Finset ν)
    (hpool : ∀ node, ∀ step ∈ steps node, step.2 ∈ pool) :
    Frontier ν ε → Option (ε × List (ν × ε))
  | ⟨_, []⟩ => none
  | ⟨previous, node :: queue⟩ =>
    match _hscan : scan allow goal (steps node) ⟨previous, queue⟩ with
    | .inl found => some found
    | .inr next => search steps pool hpool next
termination_by frontier => unreached pool frontier.previous + frontier.queue.length
decreasing_by
  obtain ⟨-, new, hnew, hprevious, hnext⟩ := scan_inr _hscan
  have hle := unreached_add_le (hpool node) hnew
  dsimp only at hprevious hnext hle ⊢
  rw [hprevious, hnext, List.length_append, List.length_reverse, List.length_map,
    List.length_cons]
  omega

end Loop

/-- Walks the map back from a node to the start. The chain grows at its front; a node that the map
does not hold, or a walk that is longer than `fuel`, gives none. -/
def back [DecidableEq ν] (origin : ε → ν) (start : ν) (previous : List (ν × ε)) :
    Nat → ν → List ε → Option (List ε)
  | fuel, source, chain =>
    if source = start then some chain
    else match fuel with
      | 0 => none
      | fuel + 1 => (previous.lookup source).bind fun label =>
          back origin start previous fuel (origin label) (label :: chain)

/-! ## Distances -/

section Distance

variable (steps : ν → List (ε × ν)) (allow : ν → Bool) (start : ν)

/-- The nodes that a chain may pass. -/
def Passable (node : ν) : Prop := node = start ∨ allow node = true

/-- A chain of that many steps through passable nodes leads from the start to the node. -/
def ReachedIn : Nat → ν → Prop
  | 0, node => node = start
  | count + 1, node =>
    Passable allow start node ∧ ∃ source label, ReachedIn count source ∧ (label, node) ∈ steps source

def Distance (node : ν) (count : Nat) : Prop :=
  ReachedIn steps allow start count node ∧
    ∀ other, ReachedIn steps allow start other node → count ≤ other

/-- The labels of a chain of steps from one node to another. -/
def Links : ν → List ε → ν → Prop
  | source, [], target => source = target
  | source, label :: labels, target =>
    ∃ child, (label, child) ∈ steps source ∧ Links child labels target

variable {steps allow start}

theorem links_concat_iff {source target : ν} {labels : List ε} {label : ε} :
    Links steps source (labels ++ [label]) target ↔
      ∃ middle, Links steps source labels middle ∧ (label, target) ∈ steps middle := by
  induction labels generalizing source with
  | nil => simp [Links]
  | cons first labels ih =>
    simp only [List.cons_append, Links, ih]
    constructor
    · rintro ⟨child, hfirst, middle, hrest, hstep⟩
      exact ⟨middle, ⟨child, hfirst, hrest⟩, hstep⟩
    · rintro ⟨middle, ⟨child, hfirst, hrest⟩, hstep⟩
      exact ⟨child, hfirst, middle, hrest, hstep⟩

/-- A chain whose nodes are all passable reaches its end in as many steps. -/
theorem Links.reachedIn {source target : ν} {labels : List ε} {count : Nat}
    (h : Links steps source labels target) (hsource : ReachedIn steps allow start count source)
    (hpassable : ∀ node, Passable allow start node) :
    ReachedIn steps allow start (count + labels.length) target := by
  induction labels generalizing source count with
  | nil =>
    obtain rfl := h
    exact hsource
  | cons label labels ih =>
    obtain ⟨child, hstep, hrest⟩ := h
    rw [List.length_cons, Nat.add_comm labels.length, ← Nat.add_assoc]
    exact ih hrest ⟨hpassable child, source, label, hsource, hstep⟩

theorem Distance.unique {node : ν} {count other : Nat} (h : Distance steps allow start node count)
    (hother : Distance steps allow start node other) : count = other :=
  Nat.le_antisymm (h.2 other hother.1) (hother.2 count h.1)

theorem exists_distance {node : ν} {count : Nat} (h : ReachedIn steps allow start count node) :
    ∃ least ≤ count, Distance steps allow start node least := by
  classical
  have hexists : ∃ other, ReachedIn steps allow start other node := ⟨count, h⟩
  exact ⟨Nat.find hexists, Nat.find_min' hexists h, Nat.find_spec hexists,
    fun other hother => Nat.find_min' hexists hother⟩

theorem distance_start : Distance steps allow start start 0 := ⟨rfl, fun _ _ => Nat.zero_le _⟩

end Distance

/-! ## The tree of predecessors -/

section Tree

variable (steps : ν → List (ε × ν)) (allow : ν → Bool) (origin : ε → ν) (start : ν)

def Seen (previous : List (ν × ε)) (node : ν) : Prop := node = start ∨ node ∈ previous.map Prod.fst

/-- Each entry of the map is a step from a node that was seen before and is one nearer. -/
structure Tree (previous : List (ν × ε)) : Prop where
  parent : ∀ entry ∈ previous, (entry.2, entry.1) ∈ steps (origin entry.2) ∧
    Seen start previous (origin entry.2) ∧
    ∃ count, Distance steps allow start (origin entry.2) count ∧
      Distance steps allow start entry.1 (count + 1)
  depth_le : ∀ node count, Seen start previous node → Distance steps allow start node count →
    count ≤ previous.length

variable {steps allow origin start}

theorem Tree.nil : Tree steps allow origin start [] where
  parent := nofun
  depth_le := by
    rintro node count (rfl | hnode) hcount
    · exact (hcount.unique distance_start).le
    · cases hnode

/-- A tree keeps growing by children of a node that it holds. -/
theorem Tree.grow {previous new : List (ν × ε)} (h : Tree steps allow origin start previous)
    {node : ν} {count : Nat} (hseen : Seen start previous node)
    (hnode : Distance steps allow start node count)
    (hnew : ∀ entry ∈ new, (entry.2, entry.1) ∈ steps node ∧ origin entry.2 = node ∧
      Distance steps allow start entry.1 (count + 1)) :
    Tree steps allow origin start (new ++ previous) := by
  have hgrow : ∀ other, Seen start previous other → Seen start (new ++ previous) other := by
    intro other hother
    refine hother.imp_right fun hmem => ?_
    rw [List.map_append]
    exact List.mem_append_right _ hmem
  refine ⟨fun entry hentry => ?_, fun other depth hother hdepth => ?_⟩
  · obtain hentry | hentry := List.mem_append.mp hentry
    · obtain ⟨hstep, horigin, hdistance⟩ := hnew entry hentry
      rw [horigin]
      exact ⟨hstep, hgrow node hseen, count, hnode, hdistance⟩
    · obtain ⟨hstep, hparent, hdistance⟩ := h.parent entry hentry
      exact ⟨hstep, hgrow _ hparent, hdistance⟩
  · rw [List.length_append]
    rw [Seen, List.map_append, List.mem_append, or_left_comm] at hother
    obtain hother | hother := hother
    · obtain ⟨entry, hentry, rfl⟩ := List.mem_map.mp hother
      have hdistance := (hnew entry hentry).2.2
      have hle := h.depth_le node count hseen hnode
      have hpos := List.length_pos_of_mem hentry
      rw [hdepth.unique hdistance]
      omega
    · have hle := h.depth_le other depth hother hdepth
      omega

/-- Walking back from a node of a tree gives a chain from the start to it. Its steps start at nodes
one after another in distance. -/
theorem Tree.back [DecidableEq ν] {previous : List (ν × ε)} (h : Tree steps allow origin start previous)
    {fuel count : Nat} {source : ν} (hseen : Seen start previous source)
    (hcount : Distance steps allow start source count) (hfuel : count ≤ fuel) (chain : List ε) :
    ∃ labels, back origin start previous fuel source chain = some (labels ++ chain) ∧
      labels.length = count ∧ Links steps start labels source ∧
      ∀ position label, labels[position]? = some label →
        Distance steps allow start (origin label) position := by
  induction fuel generalizing source count chain with
  | zero =>
    obtain rfl : count = 0 := by omega
    obtain rfl : source = start := hcount.1
    exact ⟨[], by simp [Search.back], rfl, rfl, by simp⟩
  | succ fuel ih =>
    by_cases hstart : source = start
    · subst hstart
      obtain rfl := hcount.unique distance_start
      exact ⟨[], by simp [Search.back], rfl, rfl, by simp⟩
    · have hmem := hseen.resolve_left hstart
      obtain ⟨label, hlabel⟩ : ∃ label, previous.lookup source = some label := by
        rw [← Option.isSome_iff_exists, ← Option.not_isNone, Bool.not_eq_true', ← Bool.not_eq_true,
          lookup_isNone]
        exact not_not_intro hmem
      obtain ⟨before, after, rfl, -⟩ := List.lookup_eq_some_iff.mp hlabel
      have hentry : (source, label) ∈ before ++ (source, label) :: after := by simp
      obtain ⟨hstep, hparent, count', hcount', hnext⟩ := h.parent _ hentry
      obtain rfl := hcount.unique hnext
      obtain ⟨labels, hback, hlength, hlinks, hdistances⟩ :=
        ih hparent hcount' (by omega) (label :: chain)
      refine ⟨labels ++ [label], ?_, by simp [hlength], links_concat_iff.mpr ⟨_, hlinks, hstep⟩, ?_⟩
      · rw [Search.back, if_neg hstart]
        simp [hlabel, hback]
      · intro position other hother
        rw [List.getElem?_append] at hother
        split_ifs at hother with hlt
        · exact hdistances position other hother
        · obtain ⟨hzero, rfl⟩ : position - labels.length = 0 ∧ label = other := by
            simpa [List.getElem?_singleton] using hother
          obtain rfl : position = count' := by omega
          exact hcount'

end Tree

/-! ## Levels -/

section Levels

variable (steps : ν → List (ε × ν)) (allow : ν → Bool) (origin : ε → ν) (start goal : ν)

/-- Between two rounds the queue holds the nodes at one distance that are still to look at, then the
ones of the next distance. The goal is no child of a node that was looked at. -/
structure Levels (depth : Nat) (near far : List ν) (previous : List (ν × ε)) : Prop extends
    Tree steps allow origin start previous where
  near_seen : ∀ node ∈ near, Seen start previous node
  near_distance : ∀ node ∈ near, Distance steps allow start node depth
  far_distance : ∀ node ∈ far, Distance steps allow start node (depth + 1)
  far_seen : ∀ node ∈ far, Seen start previous node
  seen : ∀ node, Seen start previous node →
    (∃ count ≤ depth, Distance steps allow start node count) ∨ node ∈ far
  complete : ∀ node, ∀ count ≤ depth, ReachedIn steps allow start count node →
    Seen start previous node
  looked : ∀ node, ∀ count ≤ depth, Distance steps allow start node count → node ∉ near →
    ∀ step ∈ steps node, step.2 ≠ goal ∧
      (Passable allow start step.2 → Seen start previous step.2)

variable {steps allow origin start goal} {depth : Nat} {near far : List ν} {node : ν}
  {previous : List (ν × ε)}

theorem levels_start : Levels steps allow origin start goal 0 [start] [] ([] : List (ν × ε)) where
  toTree := .nil
  near_seen := by simp [Seen]
  near_distance := by
    intro node hnode
    rw [List.mem_singleton.mp hnode]
    exact distance_start
  far_distance := nofun
  far_seen := nofun
  seen := by
    rintro node (rfl | hnode)
    · exact .inl ⟨0, le_rfl, distance_start⟩
    · cases hnode
  complete := by
    intro node count hcount hreached
    obtain rfl := Nat.le_zero.mp hcount
    exact .inl hreached
  looked := by
    intro node count hcount hdistance hnear
    obtain rfl := Nat.le_zero.mp hcount
    obtain rfl : node = start := hdistance.1
    simp at hnear

/-- When a distance is used up, the next one is looked at. -/
theorem Levels.next (h : Levels steps allow origin start goal depth [] far previous) :
    Levels steps allow origin start goal (depth + 1) far [] previous := by
  have hcomplete : ∀ node, ∀ count ≤ depth + 1, ReachedIn steps allow start count node →
      Seen start previous node := by
    intro node count hcount hreached
    obtain hlt | rfl := hcount.lt_or_eq
    · exact h.complete node count (by omega) hreached
    · obtain ⟨hpassable, source, label, hsource, hstep⟩ := hreached
      obtain ⟨least, hleast, hdistance⟩ := exists_distance hsource
      exact (h.looked source least hleast hdistance nofun _ hstep).2 hpassable
  exact { h with
    near_seen := h.far_seen
    near_distance := h.far_distance
    far_distance := nofun
    far_seen := nofun
    seen := by
      intro node hnode
      obtain ⟨count, hcount, hdistance⟩ | hfar := h.seen node hnode
      · exact .inl ⟨count, by omega, hdistance⟩
      · exact .inl ⟨depth + 1, le_rfl, h.far_distance node hfar⟩
    complete := hcomplete
    looked := by
      intro node count hcount hdistance hfar
      obtain hlt | rfl := hcount.lt_or_eq
      · exact h.looked node count (by omega) hdistance nofun
      · -- a node at the next distance is still to look at
        obtain ⟨least, hleast, hless⟩ | hmem := h.seen node (hcomplete node _ le_rfl hdistance.1)
        · have := hdistance.unique hless
          omega
        · exact absurd hmem hfar }

/-- A child that is taken in is one step farther than its parent. -/
theorem Levels.distance_new (h : Levels steps allow origin start goal depth (node :: near) far previous)
    (hstart : allow start = true → start = goal) {new : List (ν × ε)}
    (hnew : Fresh allow goal (steps node) previous new) {entry : ν × ε} (hentry : entry ∈ new) :
    Distance steps allow start entry.1 (depth + 1) := by
  have hallow := hnew.allow entry hentry
  refine ⟨⟨.inr hallow, node, entry.2, (h.near_distance node List.mem_cons_self).1,
    hnew.steps entry hentry⟩, fun other hother => ?_⟩
  by_contra hlt
  obtain heq | hmem := h.complete entry.1 other (by omega) hother
  · exact hnew.goal entry hentry (heq.trans (hstart (heq ▸ hallow)))
  · exact hnew.unseen entry hentry hmem

/-- The map stays a tree while the steps of a node are looked at. -/
theorem Levels.grow (h : Levels steps allow origin start goal depth (node :: near) far previous)
    (hstart : allow start = true → start = goal)
    (horigin : ∀ node, ∀ step ∈ steps node, origin step.1 = node) {new : List (ν × ε)}
    (hnew : Fresh allow goal (steps node) previous new) :
    Tree steps allow origin start (new ++ previous) := by
  refine h.toTree.grow (h.near_seen node List.mem_cons_self) (h.near_distance node List.mem_cons_self)
    fun entry hentry => ?_
  have hstep := hnew.steps entry hentry
  exact ⟨hstep, horigin node _ hstep, h.distance_new hstart hnew hentry⟩

theorem seen_append {new : List (ν × ε)} {other : ν} :
    Seen start (new ++ previous) other ↔ Seen start previous other ∨ other ∈ new.map Prod.fst := by
  rw [Seen, Seen, List.map_append, List.mem_append, or_assoc]
  tauto

/-- A round that does not find the goal keeps the levels. -/
theorem Levels.round (h : Levels steps allow origin start goal depth (node :: near) far previous)
    (hstart : allow start = true → start = goal)
    (horigin : ∀ node, ∀ step ∈ steps node, origin step.1 = node) {new : List (ν × ε)}
    (hnew : Fresh allow goal (steps node) previous new)
    (hall : ∀ step ∈ steps node, step.2 ≠ goal ∧
      (allow step.2 = true → step.2 ∈ (new ++ previous).map Prod.fst)) :
    Levels steps allow origin start goal depth near (far ++ (new.map Prod.fst).reverse)
      (new ++ previous) := by
  have hmono {other : ν} (hother : Seen start previous other) : Seen start (new ++ previous) other :=
    seen_append.mpr (.inl hother)
  exact {
    toTree := h.grow hstart horigin hnew
    near_seen := fun other hother => hmono (h.near_seen other (List.mem_cons_of_mem _ hother))
    near_distance := fun other hother => h.near_distance other (List.mem_cons_of_mem _ hother)
    far_distance := by
      intro other hother
      obtain hfar | hmem := List.mem_append.mp hother
      · exact h.far_distance other hfar
      · obtain ⟨entry, hentry, rfl⟩ := List.mem_map.mp (List.mem_reverse.mp hmem)
        exact h.distance_new hstart hnew hentry
    far_seen := by
      intro other hother
      obtain hfar | hmem := List.mem_append.mp hother
      · exact hmono (h.far_seen other hfar)
      · exact seen_append.mpr (.inr (List.mem_reverse.mp hmem))
    seen := by
      intro other hother
      rw [List.mem_append, List.mem_reverse, ← or_assoc]
      exact (seen_append.mp hother).imp_left (h.seen other)
    complete := fun other count hcount hreached => hmono (h.complete other count hcount hreached)
    looked := by
      intro other count hcount hdistance hnear step hstep
      by_cases heq : other = node
      · subst heq
        refine ⟨(hall step hstep).1, fun hpassable => ?_⟩
        exact hpassable.imp_right (hall step hstep).2
      · have hnot : other ∉ node :: near := by simp [heq, hnear]
        obtain ⟨hgoal, hseen⟩ := h.looked other count hcount hdistance hnot step hstep
        exact ⟨hgoal, fun hpassable => hmono (hseen hpassable)⟩ }

end Levels

/-! ## What a search finds -/

section Found

variable {steps : ν → List (ε × ν)} {allow : ν → Bool} {origin : ε → ν} {start goal : ν}

/-- A chain that a search found: it leads to the goal, no other one is shorter, and the nodes that
its steps leave from are one after another in distance. -/
structure Shortest (steps : ν → List (ε × ν)) (allow : ν → Bool) (origin : ε → ν) (start goal : ν)
    (chain : List ε) : Prop where
  ne_nil : chain ≠ []
  links : Links steps start chain goal
  distance : ∀ position label, chain[position]? = some label →
    Distance steps allow start (origin label) position
  le : ∀ count source label, ReachedIn steps allow start count source →
    (label, goal) ∈ steps source → chain.length ≤ count + 1

/-- A shortest chain leaves no node twice. -/
theorem Shortest.nodup {chain : List ε} (h : Shortest steps allow origin start goal chain) :
    (chain.map origin).Nodup := by
  rw [List.nodup_iff_getElem?_ne_getElem?]
  intro first second hlt hsecond heq
  rw [List.length_map] at hsecond
  have hfirst := hlt.trans hsecond
  rw [List.getElem?_map, List.getElem?_map, List.getElem?_eq_getElem hfirst,
    List.getElem?_eq_getElem hsecond, Option.map_some, Option.map_some, Option.some_inj] at heq
  have hdistance := h.distance first _ (List.getElem?_eq_getElem hfirst)
  rw [heq] at hdistance
  exact hlt.ne (hdistance.unique (h.distance second _ (List.getElem?_eq_getElem hsecond)))

/-- No chain leads to the goal. -/
def Unreachable (steps : ν → List (ε × ν)) (allow : ν → Bool) (start goal : ν) : Prop :=
  ∀ count source label, ReachedIn steps allow start count source → (label, goal) ∉ steps source

variable {depth : Nat} {near far : List ν} {previous : List (ν × ε)} {node : ν}

theorem Levels.found [DecidableEq ν]
    (h : Levels steps allow origin start goal depth (node :: near) far previous)
    (hstart : allow start = true → start = goal)
    (horigin : ∀ node, ∀ step ∈ steps node, origin step.1 = node) {new : List (ν × ε)}
    (hnew : Fresh allow goal (steps node) previous new) {label : ε}
    (hgoal : (label, goal) ∈ steps node) :
    ∃ chain, back origin start (new ++ previous) (new ++ previous).length (origin label) [label] =
        some chain ∧
      Shortest steps allow origin start goal chain := by
  have htree := h.grow hstart horigin hnew
  have hdistance := h.near_distance node List.mem_cons_self
  have hseen : Seen start (new ++ previous) node :=
    seen_append.mpr (.inl (h.near_seen node List.mem_cons_self))
  rw [horigin node _ hgoal]
  obtain ⟨labels, hback, hlength, hlinks, hdistances⟩ :=
    htree.back hseen hdistance (htree.depth_le node depth hseen hdistance) [label]
  refine ⟨labels ++ [label], hback, by simp, links_concat_iff.mpr ⟨node, hlinks, hgoal⟩, ?_, ?_⟩
  · intro position other hother
    rw [List.getElem?_append] at hother
    split_ifs at hother with hlt
    · exact hdistances position other hother
    · obtain ⟨hzero, rfl⟩ : position - labels.length = 0 ∧ label = other := by
        simpa [List.getElem?_singleton] using hother
      obtain rfl : position = depth := by omega
      rw [horigin node _ hgoal]
      exact hdistance
  · intro count source other hreached hstep
    rw [List.length_append, hlength, List.length_singleton]
    by_contra hlt
    obtain ⟨least, hleast, hnearest⟩ := exists_distance hreached
    -- a nearer node was looked at, so the goal is not one of its children
    have hnot : source ∉ node :: near := by
      intro hmem
      have := hnearest.unique (h.near_distance source hmem)
      omega
    exact (h.looked source least (by omega) hnearest hnot _ hstep).1 rfl

theorem Levels.exhausted (h : Levels steps allow origin start goal depth [] [] previous) :
    Unreachable steps allow start goal := by
  have hall : ∀ count source, ReachedIn steps allow start count source →
      ∃ least ≤ depth, Distance steps allow start source least := by
    intro count
    induction count with
    | zero =>
      rintro source rfl
      exact ⟨0, Nat.zero_le _, distance_start⟩
    | succ count ih =>
      rintro node ⟨hpassable, source, label, hsource, hstep⟩
      obtain ⟨least, hleast, hdistance⟩ := ih source hsource
      have hseen := (h.looked source least hleast hdistance nofun _ hstep).2 hpassable
      exact (h.seen node hseen).resolve_right nofun
  intro count source label hreached hstep
  obtain ⟨least, hleast, hdistance⟩ := hall count source hreached
  exact (h.looked source least hleast hdistance nofun _ hstep).1 rfl

/-- The first node of the queue is at the nearest distance that is not used up. -/
theorem Levels.take (h : Levels steps allow origin start goal depth near far previous)
    {queue : List ν} (hqueue : near ++ far = node :: queue) :
    ∃ depth near' far', queue = near' ++ far' ∧
      Levels steps allow origin start goal depth (node :: near') far' previous := by
  cases near with
  | nil =>
    obtain rfl : far = node :: queue := hqueue
    exact ⟨depth + 1, queue, [], by simp, h.next⟩
  | cons first near =>
    obtain ⟨rfl, rfl⟩ := List.cons.inj hqueue
    exact ⟨depth, near, far, rfl, h⟩

variable [DecidableEq ν] {pool : Finset ν}
  {hpool : ∀ node, ∀ step ∈ steps node, step.2 ∈ pool}

/-- What a search finds from any entry of its loop. -/
theorem Levels.search (h : Levels steps allow origin start goal depth near far previous)
    (hstart : allow start = true → start = goal)
    (horigin : ∀ node, ∀ step ∈ steps node, origin step.1 = node) :
    match search allow goal steps pool hpool ⟨previous, near ++ far⟩ with
    | some (label, previous) => ∃ chain,
        back origin start previous previous.length (origin label) [label] = some chain ∧
          Shortest steps allow origin start goal chain
    | none => Unreachable steps allow start goal := by
  generalize hfrontier : (⟨previous, near ++ far⟩ : Frontier ν ε) = frontier
  fun_induction Search.search allow goal steps pool hpool frontier
    generalizing depth near far previous with
  | case1 previous' =>
    obtain ⟨rfl, hqueue⟩ := Frontier.mk.inj hfrontier
    obtain ⟨rfl, rfl⟩ := List.append_eq_nil_iff.mp hqueue
    exact h.exhausted
  | case2 previous' node queue found hscan =>
    obtain ⟨rfl, hqueue⟩ := Frontier.mk.inj hfrontier
    obtain ⟨depth, near', far', -, h⟩ := h.take hqueue
    obtain ⟨hgoal, new, hnew, hprevious⟩ := scan_inl hscan
    dsimp only at hprevious ⊢
    rw [hprevious]
    exact h.found hstart horigin hnew hgoal
  | case3 previous' node queue next hscan ih =>
    obtain ⟨rfl, hqueue⟩ := Frontier.mk.inj hfrontier
    obtain ⟨depth, near', far', rfl, h⟩ := h.take hqueue
    obtain ⟨hall, new, hnew, hprevious, hnext⟩ := scan_inr hscan
    rw [hprevious] at hall
    refine ih (h.round hstart horigin hnew hall) ?_
    cases next
    simp_all

/-- A search from the start finds a shortest chain, or there is none. -/
theorem search_spec (hstart : allow start = true → start = goal)
    (horigin : ∀ node, ∀ step ∈ steps node, origin step.1 = node) :
    match search allow goal steps pool hpool ⟨[], [start]⟩ with
    | some (label, previous) => ∃ chain,
        back origin start previous previous.length (origin label) [label] = some chain ∧
          Shortest steps allow origin start goal chain
    | none => Unreachable steps allow start goal :=
  (levels_start (ε := ε)).search hstart horigin

end Found

end Agentless.Search
