import Agentless.Graph.ShortestPathPruned
import Agentless.Library.Search

/-!
# A shortest path is found

1. A path is made of usable edges, walked both ways, and the hops of a node are just those that may
   follow it.
2. A search over all hops goes level by level, so what it finds is a shortest path, and when it ends
   without one there is none.
3. The search that tries each ambiguous name once gives the same.
-/

namespace Agentless.Graph.Path

open Std

/-! ## The paths of a graph -/

section Usable

variable (graph : SymbolGraph) (policy : PathPolicy)

/-- An edge that a path may walk: a bound one that the policy admits, or one that an ambiguous
reference stands for. -/
def Usable (edge : SymbolEdge) : Prop :=
  (edge ∈ graph.edges ∧ (edge.tier = .unique → policy.includeUnique = true)) ∨
    (policy.includeAmbiguous = true ∧
      ∃ reference ∈ graph.ambiguous, edge ∈ graph.ambiguousEdges reference)

/-- Hops over usable edges, each from the node that the one before it comes to. -/
def Leads : Text → List Hop → Text → Prop
  | node, [], target => node = target
  | node, hop :: hops, target =>
    Usable graph policy hop.edge ∧ hop.origin.node = node ∧ Leads hop.arrival.node hops target

variable {graph policy} {node : Text} {hop : Hop}

theorem mem_boundHops : hop ∈ boundHops graph policy node ↔
    hop.edge ∈ graph.edges ∧ (hop.edge.tier = .unique → policy.includeUnique = true) ∧
      hop.origin.node = node := by
  constructor
  · intro h
    obtain ⟨⟨at_, forward⟩, hheld, hhop⟩ := List.mem_filterMap.mp h
    rw [undirected, Collect.getD_pushAll] at hheld
    obtain ⟨entry, hentry, heq⟩ := List.mem_map.mp hheld
    obtain ⟨hmem, hnode⟩ := List.mem_filter.mp hentry
    obtain ⟨⟨edge, i⟩, hedge, hpair⟩ := List.mem_flatMap.mp hmem
    have hget := List.mem_zipIdx_iff_getElem?.mp hedge
    dsimp only at hpair hget
    split_ifs at hpair with hunique
    · cases hpair
    have hadmitted : edge.tier = .unique → policy.includeUnique = true := by
      simpa using not_and.mp hunique
    rw [List.mem_cons, List.mem_singleton] at hpair
    dsimp only at hhop
    rcases hpair with rfl | rfl
    all_goals
      cases heq
      rw [hget] at hhop
      cases hhop
      exact ⟨List.mem_of_getElem? hget, hadmitted, by simpa [Hop.origin] using hnode⟩
  · rintro ⟨hedge, hunique, rfl⟩
    obtain ⟨i, hi⟩ := List.mem_iff_getElem?.mp hedge
    have hadmitted : ¬(hop.edge.tier = .unique ∧ policy.includeUnique = false) := by
      simpa using hunique
    refine List.mem_filterMap.mpr ⟨(i, hop.forward), ?_, by simp [hi]⟩
    rw [undirected, Collect.getD_pushAll]
    refine List.mem_map.mpr ⟨(hop.origin.node, i, hop.forward), List.mem_filter.mpr
      ⟨List.mem_flatMap.mpr ⟨(hop.edge, i), List.mem_zipIdx_iff_getElem?.mpr hi, ?_⟩, by simp⟩, rfl⟩
    dsimp only
    rw [if_neg hadmitted]
    cases hforward : hop.forward <;> simp [Hop.origin, hforward]

theorem mem_candidates (h : NamesIndexed graph.candidateNames graph.candidates) {name : Text}
    {target : Endpoint} :
    (name, target) ∈ graph.candidates.flatMap (fun entry => entry.2.map (entry.1, ·)) ↔
      target ∈ graph.candidatesOf name := by
  have hfilter := congrArg ((name, target) ∈ ·) (filter_candidates h name)
  simpa [List.mem_filter] using hfilter

theorem mem_leavingHops (h : SortedByNode graph) :
    hop ∈ (graph.referencesFrom node).flatMap (leaving graph) ↔
      hop.forward = true ∧ hop.origin.node = node ∧
        ∃ reference ∈ graph.ambiguous, hop.edge ∈ graph.ambiguousEdges reference := by
  rw [referencesFrom_eq h, List.mem_flatMap]
  constructor
  · rintro ⟨reference, hreference, hhop⟩
    rw [List.mem_filter, decide_eq_true_eq] at hreference
    obtain ⟨edge, hedge, rfl⟩ := List.mem_map.mp hhop
    refine ⟨rfl, ?_, reference, hreference.1, hedge⟩
    obtain ⟨target, -, -, rfl⟩ := mem_ambiguousEdges.mp hedge
    exact hreference.2
  · rintro ⟨hforward, rfl, reference, hreference, hedge⟩
    refine ⟨reference, List.mem_filter.mpr ⟨hreference, ?_⟩, List.mem_map.mpr ⟨hop.edge, hedge, ?_⟩⟩
    · obtain ⟨target, -, -, heq⟩ := mem_ambiguousEdges.mp hedge
      simp [Hop.origin, hforward, heq]
    · rw [← hforward]

theorem mem_arrivingHops (h : NamesIndexed graph.candidateNames graph.candidates) :
    hop ∈ arrivingAt graph node ↔
      hop.forward = false ∧ hop.origin.node = node ∧
        ∃ reference ∈ graph.ambiguous, hop.edge ∈ graph.ambiguousEdges reference := by
  simp only [mem_arrivingAt, candidatesAt_eq, referencesNamed_eq, List.mem_filter,
    decide_eq_true_eq, mem_candidates h]
  constructor
  · rintro ⟨name, target, ⟨htarget, rfl⟩, reference, ⟨hreference, rfl⟩, hne, rfl⟩
    exact ⟨rfl, rfl, reference, hreference, mem_ambiguousEdges.mpr ⟨target, htarget, hne, rfl⟩⟩
  · rintro ⟨hforward, rfl, reference, hreference, hedge⟩
    obtain ⟨target, htarget, hne, heq⟩ := mem_ambiguousEdges.mp hedge
    refine ⟨reference.name, target, ⟨htarget, ?_⟩, reference, ⟨hreference, rfl⟩, hne, ?_⟩
    · simp [Hop.origin, hforward, heq]
    · rw [← heq, ← hforward]

theorem mem_allHops (hsorted : SortedByNode graph)
    (hnames : NamesIndexed graph.candidateNames graph.candidates) :
    hop ∈ allHops graph policy node ↔ Usable graph policy hop.edge ∧ hop.origin.node = node := by
  unfold allHops Usable
  split_ifs with hambiguous
  · rw [List.mem_insertionSort, List.mem_append, List.mem_append, mem_boundHops,
      mem_arrivingHops hnames, mem_leavingHops hsorted]
    cases hop.forward <;> simp [hambiguous] <;> tauto
  · rw [mem_boundHops]
    simp [hambiguous, and_assoc]

end Usable

/-! ## A search over all hops -/

section Levels

variable {graph : SymbolGraph} {policy : PathPolicy} {source target : Text}

variable (graph policy) in
/-- The hops of a node, labelled by the node that they leave. -/
def steps (node : Text) : List ((Text × Hop) × Text) :=
  (allHops graph policy node).map fun hop => ((node, hop), hop.arrival.node)

theorem origin_of_mem_steps {node : Text} {step : (Text × Hop) × Text}
    (h : step ∈ steps graph policy node) : step.1.1 = node := by
  obtain ⟨hop, -, rfl⟩ := List.mem_map.mp h
  rfl

/-- The source and the nodes of the map are what was seen, each once, and the target is not. -/
structure Tracked (source target : Text) (search : Search) : Prop where
  seen : ∀ node, node ∈ search.seen ↔ Search.Seen source search.previous node
  nodup : search.seen.Nodup
  target : target ∉ search.seen

theorem expand_scan (node : Text) (hops : List Hop) (following : List Text) {search : Search}
    (h : Tracked source target search) :
    match Search.scan (· ≠ source) target (hops.map fun hop => ((node, hop), hop.arrival.node))
        ⟨search.previous, following⟩ with
    | .inl (label, previous) => ∃ after following',
        expand target node hops search following = (true, after, following') ∧
          after.previous = (target, label) :: previous
    | .inr next => ∃ after, expand target node hops search following = (false, after, next.queue) ∧
        after.previous = next.previous ∧ Tracked source target after := by
  induction hops generalizing search following with
  | nil => exact ⟨search, rfl, rfl, h⟩
  | cons hop hops ih =>
    rw [List.map_cons, Search.scan, expand]
    dsimp only
    by_cases hgoal : hop.arrival.node = target
    · rw [if_pos hgoal, if_neg (hgoal ▸ h.target), if_pos hgoal, hgoal]
      exact ⟨_, _, rfl, rfl⟩
    · have htake :=
        @Search.taken_iff Text (Text × Hop) (· ≠ source) _ search.previous hop.arrival.node
      rw [if_neg hgoal]
      by_cases hmem : hop.arrival.node ∈ search.seen
      · have hskipped : ¬(decide (hop.arrival.node ≠ source) = true ∧
            hop.arrival.node ∉ search.previous.map Prod.fst) := by
          rw [decide_eq_true_eq, ← not_or]
          exact not_not.mpr ((h.seen _).mp hmem)
        rw [if_neg (mt htake.mp hskipped), if_pos hmem]
        exact ih following h
      · have htaken : decide (hop.arrival.node ≠ source) = true ∧
            hop.arrival.node ∉ search.previous.map Prod.fst := by
          rw [decide_eq_true_eq, ← not_or]
          exact fun hseen => hmem ((h.seen _).mpr hseen)
        rw [if_pos (htake.mpr htaken), if_neg hmem, if_neg hgoal]
        refine @ih _ { search with
          previous := (hop.arrival.node, node, hop) :: search.previous
          seen := hop.arrival.node :: search.seen }
          ⟨fun other => ?_, List.nodup_cons.mpr ⟨hmem, h.nodup⟩, ?_⟩
        · rw [List.mem_cons, h.seen, Search.Seen, Search.Seen, List.map_cons, List.mem_cons,
            or_left_comm]
        · rw [List.mem_cons, not_or]
          exact ⟨Ne.symm hgoal, h.target⟩

theorem length_expand {node : Text} {hops : List Hop} {search after : Search}
    {following following' : List Text}
    (h : expand target node hops search following = (false, after, following')) :
    after.seen.length + following.length = search.seen.length + following'.length := by
  induction hops generalizing search following with
  | nil =>
    cases h
    rfl
  | cons hop hops ih =>
    rw [expand] at h
    dsimp only at h
    split_ifs at h
    · exact ih h
    · cases h
    · have hrest := ih h
      simp only [List.length_cons, List.length_append, List.length_nil] at hrest
      omega

theorem unwind_back {previous : List (Text × Text × Hop)} {label : Text × Hop} {fuel : Nat}
    {node : Text} {chain found : List (Text × Hop)} (htarget : target ∉ previous.map Prod.fst)
    (h : Search.back Prod.fst source previous fuel node chain = some found) :
    unwind source ((target, label) :: previous) fuel node (chain.reverse.map Prod.snd) =
      some (found.map Prod.snd) := by
  induction fuel generalizing node chain with
  | zero =>
    rw [Search.back] at h
    rw [unwind]
    split_ifs at h ⊢
    cases h
    simp
  | succ fuel ih =>
    rw [Search.back] at h
    rw [unwind]
    split_ifs at h ⊢
    · cases h
      simp
    · dsimp only at h ⊢
      obtain ⟨parent, hlookup, hback⟩ := Option.bind_eq_some_iff.mp h
      have hne : node ≠ target := by
        rintro rfl
        have hnone := Search.lookup_isNone.mpr htarget
        rw [hlookup] at hnone
        cases hnone
      have hsame : ((target, label) :: previous).lookup node = some parent := by
        have hbeq : (List.instBEq : BEq Text) = instBEqOfDecidableEq := lawful_beq_subsingleton _ _
        rw [List.lookup_cons, beq_eq_false_iff_ne.mpr hne, hbeq]
        exact hlookup
      rw [hsame]
      simpa using ih hback

end Levels

/-! ## What a search answers -/

section Answers

variable {graph : SymbolGraph} {policy : PathPolicy} {source target : Text}

/-- A path to the target, and no other one is shorter. -/
structure Shortest (graph : SymbolGraph) (policy : PathPolicy) (source target : Text)
    (hops : List Hop) : Prop where
  leads : Leads graph policy source hops target
  le : ∀ other, Leads graph policy source other target → hops.length ≤ other.length

theorem Leads.of_links (hsorted : SortedByNode graph)
    (hnames : NamesIndexed graph.candidateNames graph.candidates) {labels : List (Text × Hop)}
    (h : Search.Links (steps graph policy) source labels target) :
    Leads graph policy source (labels.map Prod.snd) target := by
  induction labels generalizing source with
  | nil => exact h
  | cons label labels ih =>
    obtain ⟨child, hstep, hrest⟩ := h
    obtain ⟨hop, hhop, heq⟩ := List.mem_map.mp hstep
    cases heq
    obtain ⟨husable, horigin⟩ := (mem_allHops hsorted hnames).mp hhop
    exact ⟨husable, horigin, ih hrest⟩

theorem Leads.links (hsorted : SortedByNode graph)
    (hnames : NamesIndexed graph.candidateNames graph.candidates) {hops : List Hop}
    (h : Leads graph policy source hops target) :
    ∃ labels, Search.Links (steps graph policy) source labels target ∧
      labels.length = hops.length := by
  induction hops generalizing source with
  | nil => exact ⟨[], h, rfl⟩
  | cons hop hops ih =>
    obtain ⟨husable, horigin, hrest⟩ := h
    obtain ⟨labels, hlinks, hlength⟩ := ih hrest
    have hmem := (mem_allHops hsorted hnames).mpr ⟨husable, horigin⟩
    have hstep : ((source, hop), hop.arrival.node) ∈ steps graph policy source :=
      List.mem_map.mpr ⟨hop, hmem, rfl⟩
    exact ⟨(source, hop) :: labels, ⟨_, hstep, hlinks⟩, by simp [hlength]⟩

theorem Leads.last (hsorted : SortedByNode graph)
    (hnames : NamesIndexed graph.candidateNames graph.candidates) (hne : source ≠ target)
    {hops : List Hop} (h : Leads graph policy source hops target) :
    ∃ count middle label,
      Search.ReachedIn (steps graph policy) (· ≠ source) source count middle ∧
        (label, target) ∈ steps graph policy middle ∧ count + 1 = hops.length := by
  obtain ⟨labels, hlinks, hlength⟩ := h.links hsorted hnames
  rcases labels.eq_nil_or_concat with rfl | ⟨front, label, rfl⟩
  · exact absurd hlinks hne
  · rw [List.concat_eq_append, Search.links_concat_iff] at hlinks
    obtain ⟨middle, hfront, hstep⟩ := hlinks
    have hpassable (node : Text) : Search.Passable (· ≠ source) source node := by
      by_cases hnode : node = source
      · exact .inl hnode
      · exact .inr (decide_eq_true hnode)
    have hreached : Search.ReachedIn (steps graph policy) (· ≠ source) source (0 + front.length)
        middle := hfront.reachedIn rfl hpassable
    exact ⟨_, middle, label, hreached, hstep, by simpa using hlength⟩

theorem Leads.concat {node : Text} {hops : List Hop} {hop : Hop}
    (h : Leads graph policy source hops node) (husable : Usable graph policy hop.edge)
    (horigin : hop.origin.node = node) :
    Leads graph policy source (hops ++ [hop]) hop.arrival.node := by
  induction hops generalizing source with
  | nil =>
    obtain rfl : source = node := h
    exact ⟨husable, horigin, rfl⟩
  | cons first hops ih =>
    obtain ⟨hfirst, hsource, hrest⟩ := h
    exact ⟨hfirst, hsource, ih hrest⟩

theorem Leads.of_reachedIn (hsorted : SortedByNode graph)
    (hnames : NamesIndexed graph.candidateNames graph.candidates) {count : Nat} {node : Text}
    (h : Search.ReachedIn (steps graph policy) (· ≠ source) source count node) :
    ∃ hops, Leads graph policy source hops node := by
  induction count generalizing node with
  | zero => exact ⟨[], Eq.symm h⟩
  | succ count ih =>
    obtain ⟨-, middle, label, hmiddle, hstep⟩ := h
    obtain ⟨hops, hleads⟩ := ih hmiddle
    obtain ⟨hop, hhop, heq⟩ := List.mem_map.mp hstep
    cases heq
    obtain ⟨husable, horigin⟩ := (mem_allHops hsorted hnames).mp hhop
    exact ⟨hops ++ [hop], hleads.concat husable horigin⟩

/-- What was seen can be reached. -/
theorem exists_leads (hsorted : SortedByNode graph)
    (hnames : NamesIndexed graph.candidateNames graph.candidates) {depth : Nat}
    {near far : List Text} {previous : List (Text × Text × Hop)} {node : Text}
    (h : Search.Levels (steps graph policy) (· ≠ source) Prod.fst source target depth near far
      previous)
    (hseen : Search.Seen source previous node) : ∃ hops, Leads graph policy source hops node := by
  rcases h.seen node hseen with ⟨count, -, hdistance⟩ | hfar
  · exact Leads.of_reachedIn hsorted hnames hdistance.1
  · exact Leads.of_reachedIn hsorted hnames (h.far_distance node hfar).1

variable {σ : Type}

/-- More nodes can be reached than a search may look at. -/
def OutOfRoom (graph : SymbolGraph) (policy : PathPolicy) (bounds : PathBounds σ)
    (source : Text) : Prop :=
  ∃ nodes : List Text, nodes.Nodup ∧ bounds.maxVisited < nodes.length ∧
    ∀ node ∈ nodes, ∃ hops, Leads graph policy source hops node

/-- A search gives up out of room only, and else finds a shortest path when there is one. -/
def Answers (graph : SymbolGraph) (policy : PathPolicy) (bounds : PathBounds σ)
    (source target : Text) (result : PathResult) : Prop :=
  if result.exhausted then result.found = false ∧ OutOfRoom graph policy bounds source
  else if result.found then Shortest graph policy source target result.hops
  else ∀ hops, ¬Leads graph policy source hops target

theorem level_levels (hsorted : SortedByNode graph)
    (hnames : NamesIndexed graph.candidateNames graph.candidates) (bounds : PathBounds σ)
    (hne : source ≠ target) {depth : Nat} {near far : List Text} {search : Search}
    (hlevels : Search.Levels (steps graph policy) (· ≠ source) Prod.fst source target depth near far
      search.previous)
    (htracked : Tracked source target search)
    (hcount : search.visited + near.length + far.length = search.seen.length) :
    match level (everyHop graph policy) target bounds near search far with
    | .error stop => ∃ count, bounds.checks count = .error stop
    | .ok (.exhausted _) => OutOfRoom graph policy bounds source
    | .ok (.found after) => ∃ chain,
        unwind source after.previous after.previous.length target [] = some (chain.map Prod.snd) ∧
          Search.Shortest (steps graph policy) (· ≠ source) Prod.fst source target chain
    | .ok (.next after following) =>
        Search.Levels (steps graph policy) (· ≠ source) Prod.fst source target depth [] following
            after.previous ∧ Tracked source target after ∧
          after.visited + following.length = after.seen.length := by
  induction near generalizing search far with
  | nil => exact ⟨hlevels, htracked, hcount⟩
  | cons node near ih =>
    have hstart : decide (source ≠ source) = true → source = target := by simp
    have htracked' : Tracked source target { search with visited := search.visited + 1 } :=
      ⟨htracked.seen, htracked.nodup, htracked.target⟩
    have hscan := expand_scan node (allHops graph policy node) far htracked'
    rw [level]
    cases hcheck : bounds.checks search.visited with
    | error stop => exact ⟨_, hcheck⟩
    | ok _ =>
      dsimp only [everyHop] at hscan ⊢
      by_cases hmax : bounds.maxVisited < search.visited + 1
      · rw [if_pos hmax]
        rw [List.length_cons] at hcount
        exact ⟨search.seen, htracked.nodup, by omega, fun other hother =>
          exists_leads hsorted hnames hlevels ((htracked.seen other).mp hother)⟩
      rw [if_neg hmax]
      cases hstep : Search.scan (· ≠ source) target
          ((allHops graph policy node).map fun hop => ((node, hop), hop.arrival.node))
          ⟨search.previous, far⟩ with
      | inl found =>
        obtain ⟨label, previous⟩ := found
        rw [hstep] at hscan
        obtain ⟨after, following, heq, hprevious⟩ := hscan
        rw [heq]
        dsimp only
        obtain ⟨hgoal, new, hnew, rfl⟩ := Search.scan_inl hstep
        obtain ⟨chain, hback, hshortest⟩ :=
          hlevels.found hstart (fun _ _ => origin_of_mem_steps) hnew hgoal
        refine ⟨chain, ?_, hshortest⟩
        have hunseen : target ∉ (new ++ search.previous).map Prod.fst := by
          rw [List.map_append, List.mem_append, not_or]
          refine ⟨fun hmem => ?_, fun hmem => htracked.target ((htracked.seen _).mpr (.inr hmem))⟩
          obtain ⟨entry, hentry, hsame⟩ := List.mem_map.mp hmem
          exact hnew.goal entry hentry hsame
        rw [hprevious, List.length_cons, unwind, if_neg hne.symm]
        simpa using unwind_back hunseen hback
      | inr next =>
        rw [hstep] at hscan
        obtain ⟨after, heq, hprevious, htracked⟩ := hscan
        rw [heq]
        obtain ⟨hall, new, hnew, hnext, hqueue⟩ := Search.scan_inr hstep
        have hlength := length_expand heq
        have hvisited := (expand_keeps target node (allHops graph policy node)
          { search with visited := search.visited + 1 } far).1
        rw [heq] at hvisited
        rw [hnext] at hall
        have hround := hlevels.round hstart (fun _ _ => origin_of_mem_steps) hnew hall
        dsimp only at hnext hqueue
        rw [← hnext, ← hprevious, ← hqueue] at hround
        rw [List.length_cons] at hcount
        dsimp only at hlength hvisited
        exact ih hround htracked (by omega)

variable {bounds : PathBounds σ}

theorem run_answers (hsorted : SortedByNode graph)
    (hnames : NamesIndexed graph.candidateNames graph.candidates) (hne : source ≠ target)
    {depth : Nat} {frontier : List Text} {search : Search}
    (hlevels : Search.Levels (steps graph policy) (· ≠ source) Prod.fst source target depth
      frontier [] search.previous)
    (htracked : Tracked source target search)
    (hcount : search.visited + frontier.length = search.seen.length) :
    match run (everyHop graph policy) source target bounds search frontier with
    | .error stop => ∃ count, bounds.checks count = .error stop
    | .ok result => ∃ found, result = some found ∧
        Answers graph policy bounds source target found := by
  fun_induction run (everyHop graph policy) source target bounds search frontier
    generalizing depth with
  | case1 search =>
    refine ⟨_, rfl, fun hops hleads => ?_⟩
    obtain ⟨count, middle, label, hreached, hstep, -⟩ := hleads.last hsorted hnames hne
    exact hlevels.exhausted count middle label hreached hstep
  | case2 search frontier hfrontier stop hlevel =>
    have hround := level_levels hsorted hnames bounds hne hlevels htracked hcount
    rw [hlevel] at hround
    exact hround
  | case3 search frontier hfrontier after hlevel =>
    have hround := level_levels hsorted hnames bounds hne hlevels htracked hcount
    rw [hlevel] at hround
    obtain ⟨chain, hunwind, hshortest⟩ := hround
    rw [hunwind]
    refine ⟨_, rfl, .of_links hsorted hnames hshortest.links, fun other hleads => ?_⟩
    obtain ⟨count, middle, label, hreached, hstep, hlength⟩ := hleads.last hsorted hnames hne
    have hle := hshortest.le count middle label hreached hstep
    simpa using hle.trans hlength.le
  | case4 search frontier hfrontier after hlevel =>
    have hround := level_levels hsorted hnames bounds hne hlevels htracked hcount
    rw [hlevel] at hround
    exact ⟨_, rfl, rfl, hround⟩
  | case5 search frontier hfrontier after following hlevel ih =>
    have hround := level_levels hsorted hnames bounds hne hlevels htracked hcount
    rw [hlevel] at hround
    exact ih hround.1.next hround.2.1 hround.2.2

end Answers

/-- The search of the built graph finds a shortest path over the usable edges, walked both ways, or
none leads to the target. It stops early at a failed check, or when more nodes can be reached than it
may look at. -/
theorem shortestPath_answers (scopes : Scopes) {σ : Type} (source target : Text)
    (policy : PathPolicy) (bounds : PathBounds σ) :
    match shortestPath (SymbolGraph.build scopes) source target policy bounds with
    | .error stop => ∃ count, bounds.checks count = .error stop
    | .ok result => ∃ found, result = some found ∧
        Answers (SymbolGraph.build scopes) policy bounds source target found := by
  rw [shortestPath_eq_plainPath, plainPath]
  split_ifs with hsame
  · exact ⟨_, rfl, hsame, fun _ _ => Nat.zero_le _⟩
  · refine run_answers (build_sortedByNode scopes) (build_namesIndexed scopes) hsame
      Search.levels_start ⟨fun node => ?_, List.nodup_singleton source, ?_⟩ rfl
    · simp [Search.Seen]
    · simpa using Ne.symm hsame

end Agentless.Graph.Path
