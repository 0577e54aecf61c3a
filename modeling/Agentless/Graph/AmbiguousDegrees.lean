import Agentless.Graph.AmbiguousExact
import Agentless.Library.Collect

/-!
# Counting ambiguous edges

The ambiguous edges at a node are listed by expanding references against candidates, and counted
name by name without expanding one: a reference leaves its node once for each candidate that is
elsewhere, and a candidate is reached once by each reference that is made elsewhere. The counts are
those of the lists.
-/

namespace Agentless.Graph

open Std

/-- How many ambiguous edges arrive at and leave each node; a node with none is absent. -/
structure AmbiguousDegrees where
  arriving : TreeMap Text Nat compare := {}
  leaving : TreeMap Text Nat compare := {}

def AmbiguousDegrees.arrivingAt (degrees : AmbiguousDegrees) (node : Text) : Nat :=
  degrees.arriving[node]?.getD 0

def AmbiguousDegrees.leavingFrom (degrees : AmbiguousDegrees) (node : Text) : Nat :=
  degrees.leaving[node]?.getD 0

/-- The number of the first items that `p` accepts. -/
def partitionPoint {α : Type} (p : α → Bool) (items : List α) : Nat := (items.takeWhile p).length

/-- A subtraction that has no result below zero. -/
def checkedSub (x y : Nat) : Option Nat := if y ≤ x then some (x - y) else none

def ambiguousEdge (reference : AmbiguousReference) (target : Endpoint) : Option SymbolEdge :=
  SymbolEdge.new reference.source target reference.name reference.relation .ambiguous

namespace SymbolGraph

variable (graph : SymbolGraph)

/-- The positions of the ambiguous references, by name. -/
def byName : TreeMap Text (List Nat) compare :=
  Collect.pushAll (fun entry => entry.1.name) Prod.snd graph.ambiguous.zipIdx

/-- Each candidate with the name it answers, by its node. -/
def candidatesByNode : TreeMap Text (List (Text × Endpoint)) compare :=
  Collect.pushAll (fun entry => entry.2.node) id
    (graph.candidates.flatMap fun (name, targets) => targets.map (name, ·))

def candidatesAt (node : Text) : List (Text × Endpoint) := graph.candidatesByNode[node]?.getD []

/-- The references that `node` makes, as a slice of the sorted ones. -/
def referencesFrom (node : Text) : List AmbiguousReference :=
  let start := partitionPoint (fun item => (compare item.source.node node).isLT) graph.ambiguous
  let stop := partitionPoint (fun item => (compare item.source.node node).isLE) graph.ambiguous
  (graph.ambiguous.drop start).take (stop - start)

def referencesNamed (name : Text) : List AmbiguousReference :=
  (graph.byName[name]?.getD []).filterMap (graph.ambiguous[·]?)

def ambiguousFrom (node : Text) : List SymbolEdge :=
  (graph.referencesFrom node).flatMap graph.ambiguousEdges

def ambiguousInto (node : Text) : List SymbolEdge :=
  (graph.candidatesAt node).flatMap fun (name, target) =>
    (graph.referencesNamed name).filterMap (ambiguousEdge · target)

def addLeaving (width : Nat) (atNode : TreeMap Text Nat compare) (leaving : TreeMap Text Nat compare)
    (reference : AmbiguousReference) : Option (TreeMap Text Nat compare) :=
  (checkedSub width (atNode[reference.source.node]?.getD 0)).map
    (Collect.add leaving reference.source.node)

def addArriving (spelled : Nat) (sources : TreeMap Text Nat compare)
    (arriving : TreeMap Text Nat compare) (entry : Text × Nat) : Option (TreeMap Text Nat compare) :=
  (checkedSub spelled (sources[entry.1]?.getD 0)).map fun others =>
    Collect.add arriving entry.1 (entry.2 * others)

/-- Adds the edges of one name, or nothing when a subtraction goes below zero. -/
def countName (degrees : AmbiguousDegrees) (name : Text) : Option AmbiguousDegrees :=
  let targets := graph.candidatesOf name
  let atNode := Collect.tally (targets.map Endpoint.node)
  let references := graph.referencesNamed name
  let sources := Collect.tally (references.map fun reference => reference.source.node)
  match references.foldlM (addLeaving targets.length atNode) degrees.leaving,
    atNode.toList.foldlM (addArriving references.length sources) degrees.arriving with
  | some leaving, some arriving => some ⟨arriving, leaving⟩
  | _, _ => none

def ambiguousDegrees : Option AmbiguousDegrees := graph.byName.keys.foldlM graph.countName {}

end SymbolGraph

/-! ## The references by name and by node -/

section References

variable {graph : SymbolGraph}

theorem referencesNamed_eq (name : Text) :
    graph.referencesNamed name = graph.ambiguous.filter (·.name = name) := by
  rw [SymbolGraph.referencesNamed, SymbolGraph.byName, Collect.getD_pushAll, List.filterMap_map]
  have hget : ∀ entry ∈ graph.ambiguous.zipIdx.filter (·.1.name = name),
      ((graph.ambiguous[·]?) ∘ Prod.snd) entry = some entry.1 := fun entry hentry =>
    List.mem_zipIdx_iff_getElem?.mp (List.mem_of_mem_filter hentry)
  rw [List.filterMap_congr hget, List.filterMap_eq_map']
  have hfilter := List.filter_map (p := fun reference : AmbiguousReference => decide (reference.name = name))
    (f := Prod.fst) (l := graph.ambiguous.zipIdx)
  rw [List.zipIdx_map_fst] at hfilter
  exact hfilter.symm

theorem mem_byName {name : Text} :
    name ∈ graph.byName.keys ↔ ∃ reference ∈ graph.ambiguous, reference.name = name := by
  rw [TreeMap.mem_keys, SymbolGraph.byName, Collect.mem_pushAll]
  constructor
  · rintro ⟨entry, hentry, rfl⟩
    exact ⟨entry.1, List.fst_mem_of_mem_zipIdx hentry, rfl⟩
  · rintro ⟨reference, hreference, rfl⟩
    obtain ⟨i, hi⟩ := List.mem_iff_getElem?.mp hreference
    exact ⟨(reference, i), List.mem_zipIdx_iff_getElem?.mpr hi, rfl⟩

theorem candidatesAt_eq (node : Text) :
    graph.candidatesAt node = (graph.candidates.flatMap fun entry =>
      entry.2.map (entry.1, ·)).filter (·.2.node = node) := by
  rw [SymbolGraph.candidatesAt, SymbolGraph.candidatesByNode, Collect.getD_pushAll, List.map_id]

end References

/-! ## The counts -/

section Counts

variable {graph : SymbolGraph} {node : Text}

theorem foldlM_some {α β : Type} {f : β → α → Option β} {g : β → α → β} {items : List α}
    (h : ∀ held, ∀ item ∈ items, f held item = some (g held item)) (held : β) :
    items.foldlM f held = some (items.foldl g held) := by
  induction items generalizing held with
  | nil => rfl
  | cons item items ih =>
    rw [List.foldlM_cons, h held item List.mem_cons_self]
    exact ih (fun held other hother => h held other (List.mem_cons_of_mem _ hother)) _

theorem checkedSub_tally (nodes : List Text) (node : Text) :
    checkedSub nodes.length ((Collect.tally nodes)[node]?.getD 0) =
      some (nodes.countP (· ≠ node)) := by
  have hsplit : nodes.length = nodes.countP (· = node) + nodes.countP (· ≠ node) := by
    simpa using nodes.length_eq_countP_add_countP (· = node)
  rw [Collect.getD_tally, checkedSub, if_pos (by omega)]
  congr 1
  omega

variable (graph) in
/-- What one name adds to the edges that leave a node. -/
def leavingOf (name node : Text) : Nat :=
  ((graph.ambiguous.filter (·.name = name)).map fun reference =>
    if reference.source.node = node then
      (graph.candidatesOf name).countP (·.node ≠ reference.source.node) else 0).sum

variable (graph) in
/-- What one name adds to the edges that arrive at a node. -/
def arrivingOf (name node : Text) : Nat :=
  (graph.candidatesOf name).countP (·.node = node) *
    (graph.ambiguous.filter (·.name = name)).countP (·.source.node ≠ node)

/-- One name is counted without going below zero. -/
theorem countName_spec (degrees : AmbiguousDegrees) (name : Text) :
    ∃ degrees', graph.countName degrees name = some degrees' ∧ ∀ node,
      degrees'.leavingFrom node = degrees.leavingFrom node + leavingOf graph name node ∧
      degrees'.arrivingAt node = degrees.arrivingAt node + arrivingOf graph name node := by
  have hleaving : (graph.referencesNamed name).foldlM (SymbolGraph.addLeaving
      (graph.candidatesOf name).length (Collect.tally ((graph.candidatesOf name).map Endpoint.node)))
      degrees.leaving = some ((graph.referencesNamed name).foldl (fun leaving reference =>
        Collect.add leaving reference.source.node
          ((graph.candidatesOf name).countP (·.node ≠ reference.source.node))) degrees.leaving) := by
    refine foldlM_some (fun leaving reference _ => ?_) _
    have hsub := checkedSub_tally ((graph.candidatesOf name).map Endpoint.node) reference.source.node
    rw [List.length_map] at hsub
    rw [SymbolGraph.addLeaving, hsub, List.countP_map]
    rfl
  have harriving : (Collect.tally ((graph.candidatesOf name).map Endpoint.node)).toList.foldlM
      (SymbolGraph.addArriving (graph.referencesNamed name).length (Collect.tally
        ((graph.referencesNamed name).map fun reference => reference.source.node))) degrees.arriving =
      some ((Collect.tally ((graph.candidatesOf name).map Endpoint.node)).toList.foldl
        (fun arriving entry => Collect.add arriving entry.1 (entry.2 *
          (graph.referencesNamed name).countP (·.source.node ≠ entry.1))) degrees.arriving) := by
    refine foldlM_some (fun arriving entry _ => ?_) _
    have hsub := checkedSub_tally
      ((graph.referencesNamed name).map fun reference => reference.source.node) entry.1
    rw [List.length_map] at hsub
    rw [SymbolGraph.addArriving, hsub, List.countP_map]
    rfl
  rw [SymbolGraph.countName, hleaving, harriving]
  refine ⟨_, rfl, fun node => ⟨?_, ?_⟩⟩
  · rw [AmbiguousDegrees.leavingFrom]
    dsimp only
    rw [Collect.getD_foldl_add, referencesNamed_eq]
    rfl
  · rw [AmbiguousDegrees.arrivingAt]
    dsimp only
    rw [Collect.getD_foldl_add, Collect.sum_toList, referencesNamed_eq]
    have hcount : (Collect.tally ((graph.candidatesOf name).map Endpoint.node))[node]?.getD 0 =
        (graph.candidatesOf name).countP (·.node = node) := by
      rw [Collect.getD_tally, List.countP_map]
      rfl
    rw [arrivingOf, ← hcount, AmbiguousDegrees.arrivingAt]
    cases (Collect.tally ((graph.candidatesOf name).map Endpoint.node))[node]? <;> simp

theorem foldlM_countName (names : List Text) (degrees : AmbiguousDegrees) :
    ∃ degrees', names.foldlM graph.countName degrees = some degrees' ∧ ∀ node,
      degrees'.leavingFrom node =
        degrees.leavingFrom node + (names.map (leavingOf graph · node)).sum ∧
      degrees'.arrivingAt node =
        degrees.arrivingAt node + (names.map (arrivingOf graph · node)).sum := by
  induction names generalizing degrees with
  | nil => exact ⟨degrees, rfl, by simp⟩
  | cons name names ih =>
    obtain ⟨between, hname, hbetween⟩ := countName_spec degrees name
    obtain ⟨degrees', hnames, hdegrees⟩ := ih between
    refine ⟨degrees', by rw [List.foldlM_cons, hname]; exact hnames, fun node => ?_⟩
    obtain ⟨hleaving, harriving⟩ := hbetween node
    obtain ⟨hleaving', harriving'⟩ := hdegrees node
    rw [List.map_cons, List.map_cons, List.sum_cons, List.sum_cons]
    omega

end Counts

/-! ## The lists -/

theorem take_takeWhile_eq_filter {α : Type} {q : α → Bool} {items : List α}
    (hcut : items.Pairwise fun x y => q y → q x) :
    items.take (items.takeWhile q).length = items.filter q := by
  induction items with
  | nil => rfl
  | cons x items ih =>
    rw [List.pairwise_cons] at hcut
    by_cases hq : q x = true
    · simp [hq, ih hcut.2]
    · have hnone : ∀ y ∈ items, ¬q y = true := fun y hy => mt (hcut.1 y hy) hq
      rw [List.filter_eq_nil_iff.mpr (List.forall_mem_cons.mpr ⟨hq, hnone⟩)]
      simp [hq]

theorem slice_eq_filter {α : Type} {p q : α → Bool} {items : List α}
    (hcut : items.Pairwise fun x y => (p y → p x) ∧ (q y → q x)) (hpq : ∀ x, p x → q x) :
    (items.drop (partitionPoint p items)).take (partitionPoint q items - partitionPoint p items) =
      items.filter fun x => q x && !p x := by
  induction items with
  | nil => rfl
  | cons x items ih =>
    rw [List.pairwise_cons] at hcut
    by_cases hp : p x = true
    · simp only [partitionPoint, List.takeWhile_cons, hp, hpq x hp, if_true, List.length_cons,
        List.drop_succ_cons, Nat.succ_sub_succ]
      rw [List.filter_cons, if_neg (by simp [hp])]
      exact ih hcut.2
    · -- nothing from here on is accepted by `p`
      have hnone : ∀ y ∈ x :: items, p y = false := by
        rw [List.forall_mem_cons]
        exact ⟨by simpa using hp, fun y hy => by simpa using mt (hcut.1 y hy).1 hp⟩
      have hstart : partitionPoint p (x :: items) = 0 := by simp [partitionPoint, hp]
      have hrest : (x :: items).filter (fun y => q y && !p y) = (x :: items).filter q :=
        List.filter_congr fun y hy => by simp [hnone y hy]
      rw [hstart, List.drop_zero, Nat.sub_zero, hrest, partitionPoint]
      exact take_takeWhile_eq_filter (List.pairwise_cons.mpr
        ⟨fun y hy => (hcut.1 y hy).2, hcut.2.imp fun h => h.2⟩)

section Lists

variable {graph : SymbolGraph} {node : Text}

theorem length_ambiguousEdges (reference : AmbiguousReference) :
    (graph.ambiguousEdges reference).length =
      (graph.candidatesOf reference.name).countP (·.node ≠ reference.source.node) := by
  rw [SymbolGraph.ambiguousEdges, List.length_filterMap_eq_countP]
  refine List.countP_congr fun target _ => ?_
  by_cases h : reference.source.node = target.node
  · simp [SymbolEdge.new, h]
  · simp [SymbolEdge.new, h, Ne.symm h]

/-- The references are sorted by the node that makes them. -/
def SortedByNode (graph : SymbolGraph) : Prop :=
  graph.ambiguous.Pairwise fun x y => (compare x.source.node y.source.node).isLE

theorem slice_key_eq_filter {α : Type} {key : α → Text} {items : List α}
    (h : items.Pairwise fun x y => (compare (key x) (key y)).isLE) (node : Text) :
    (items.drop (partitionPoint (fun item => (compare (key item) node).isLT) items)).take
        (partitionPoint (fun item => (compare (key item) node).isLE) items -
          partitionPoint (fun item => (compare (key item) node).isLT) items) =
      items.filter (key · = node) := by
  rw [slice_eq_filter]
  · refine List.filter_congr fun item _ => ?_
    have heq : compare (key item) node = .eq ↔ key item = node := Std.compare_eq_iff_eq
    rw [Bool.eq_iff_iff, decide_eq_true_eq, ← heq]
    cases compare (key item) node <;> simp
  · refine List.Pairwise.imp (fun {x y} hxy => ⟨fun hy => ?_, fun hy => ?_⟩) h
    · exact Ordering.isLT_iff_eq_lt.mpr
        (TransCmp.lt_of_isLE_of_lt hxy (Ordering.isLT_iff_eq_lt.mp hy))
    · exact TransOrd.isLE_trans hxy hy
  · intro item h
    cases hcompare : compare (key item) node <;> simp_all

theorem referencesFrom_eq (h : SortedByNode graph) (node : Text) :
    graph.referencesFrom node = graph.ambiguous.filter (·.source.node = node) :=
  slice_key_eq_filter h node

/-- The index of names is that of the candidates' own names. -/
def NamesIndexed (names : TreeMap Text Nat compare) (candidates : List (Text × List Endpoint)) :
    Prop :=
  ∀ (name : Text) (at_ : Nat), names[name]? = some at_ ↔ ∃ targets, candidates[at_]? = some (name, targets)

theorem NamesIndexed.nodup {names : TreeMap Text Nat compare}
    {candidates : List (Text × List Endpoint)} (h : NamesIndexed names candidates) :
    (candidates.map Prod.fst).Nodup := by
  refine List.nodup_iff_getElem?_ne_getElem?.mpr fun i j hij hj hsame => ?_
  rw [List.length_map] at hj
  rw [List.getElem?_map, List.getElem?_map, List.getElem?_eq_getElem hj,
    List.getElem?_eq_getElem (hij.trans hj)] at hsame
  have hname : candidates[i].1 = candidates[j].1 := Option.some.inj hsame
  have hi : names[candidates[i].1]? = some i :=
    (h _ i).mpr ⟨_, List.getElem?_eq_getElem (hij.trans hj)⟩
  have hj' : names[candidates[j].1]? = some j := (h _ j).mpr ⟨_, List.getElem?_eq_getElem hj⟩
  rw [hname] at hi
  exact hij.ne (Option.some.inj (hi.symm.trans hj'))

theorem flatMap_eq_of_mem {γ : Type} {entries : List (Text × List Endpoint)}
    {f : List Endpoint → List γ} {name : Text} {targets : List Endpoint}
    (hnodup : (entries.map Prod.fst).Nodup) (h : (name, targets) ∈ entries) :
    (entries.flatMap fun entry => if entry.1 = name then f entry.2 else []) = f targets := by
  induction entries with
  | nil => cases h
  | cons entry entries ih =>
    rw [List.map_cons, List.nodup_cons] at hnodup
    rw [List.flatMap_cons]
    rcases List.mem_cons.mp h with rfl | h
    · have hrest : (entries.flatMap fun entry => if entry.1 = name then f entry.2 else []) = [] := by
        refine List.flatMap_eq_nil_iff.mpr fun other hother => if_neg ?_
        intro hname
        exact hnodup.1 (List.mem_map.mpr ⟨other, hother, hname⟩)
      rw [hrest, if_pos rfl, List.append_nil]
    · have hne : entry.1 ≠ name := by
        intro hname
        exact hnodup.1 (List.mem_map.mpr ⟨_, h, hname.symm⟩)
      rw [if_neg hne, ih hnodup.2 h, List.nil_append]

theorem filter_candidates (h : NamesIndexed graph.candidateNames graph.candidates) (name : Text) :
    (graph.candidates.flatMap fun entry => entry.2.map (entry.1, ·)).filter (·.1 = name) =
      (graph.candidatesOf name).map (name, ·) := by
  have hentry (entry : Text × List Endpoint) : (entry.2.map (entry.1, ·)).filter (·.1 = name) =
      if entry.1 = name then entry.2.map (name, ·) else [] := by
    rw [List.filter_map]
    by_cases hname : entry.1 = name
    · simp [hname, Function.comp_def]
    · simp [hname, Function.comp_def]
  rw [List.filter_flatMap, List.flatMap_congr fun entry _ => hentry entry, SymbolGraph.candidatesOf]
  cases hname : graph.candidateNames[name]? with
  | none =>
    refine List.flatMap_eq_nil_iff.mpr fun entry hmem => if_neg ?_
    rintro rfl
    obtain ⟨i, hi⟩ := List.mem_iff_getElem?.mp hmem
    cases hname.symm.trans ((h _ i).mpr ⟨entry.2, hi⟩)
  | some at_ =>
    obtain ⟨targets, htargets⟩ := (h name at_).mp hname
    rw [Option.bind_some, htargets]
    exact flatMap_eq_of_mem h.nodup (List.mem_of_getElem? htargets)

theorem length_ambiguousInto :
    (graph.ambiguousInto node).length = ((graph.candidatesAt node).map fun entry =>
      (graph.ambiguous.filter (·.name = entry.1)).countP (·.source.node ≠ node)).sum := by
  rw [SymbolGraph.ambiguousInto, List.length_flatMap]
  congr 1
  refine List.map_congr_left fun entry hentry => ?_
  rw [candidatesAt_eq] at hentry
  obtain rfl : entry.2.node = node := by simpa using (List.mem_filter.mp hentry).2
  rw [List.length_filterMap_eq_countP, referencesNamed_eq]
  refine List.countP_congr fun reference _ => ?_
  simp [ambiguousEdge, SymbolEdge.new]

end Lists

/-! ## The built graph -/

theorem NamesIndexed.insert {names : TreeMap Text Nat compare}
    {candidates : List (Text × List Endpoint)} (h : NamesIndexed names candidates) {name : Text}
    (hnew : names[name]? = none) (targets : List Endpoint) :
    NamesIndexed (names.insert name candidates.length) (candidates ++ [(name, targets)]) := by
  intro other at_
  have hget (found : List Endpoint) : (candidates ++ [(name, targets)])[at_]? = some (other, found) ↔
      candidates[at_]? = some (other, found) ∨
        at_ = candidates.length ∧ name = other ∧ targets = found := by
    grind
  simp only [hget, exists_or, ← h other at_, TreeMap.getElem?_insert, Std.compare_eq_iff_eq]
  by_cases hname : name = other
  · subst hname
    simp [hnew, eq_comm]
  · simp [hname]

theorem NamesIndexed.link {parts : Parts} (h : NamesIndexed parts.candidateNames parts.candidates)
    (link : Link) :
    NamesIndexed (parts.link link).candidateNames (parts.link link).candidates := by
  unfold Parts.link
  split
  · exact h
  · dsimp only
    split
    · exact h
    · rename_i hknown
      have hnew : parts.candidateNames[link.name]? = none := by
        simpa using hknown
      exact h.insert hnew _

section Built

variable (scopes : Scopes)

theorem NamesIndexed.addFile {parts : Parts} (h : NamesIndexed parts.candidateNames parts.candidates)
    (position : Nat) (file : FileFacts) :
    NamesIndexed (parts.addFile scopes position file).candidateNames
      (parts.addFile scopes position file).candidates := by
  unfold Parts.addFile
  dsimp only
  split_ifs
  · refine List.foldlRecOn (motive := fun parts : Parts =>
      NamesIndexed parts.candidateNames parts.candidates) _ Parts.link ?_ ?_
    · exact h
    · exact fun parts h link _ => h.link link
  · exact h

theorem build_namesIndexed :
    NamesIndexed (SymbolGraph.build scopes).candidateNames (SymbolGraph.build scopes).candidates := by
  refine List.foldlRecOn (motive := fun parts : Parts =>
    NamesIndexed parts.candidateNames parts.candidates) scopes.files.zipIdx _ ?_ ?_
  · intro name at_
    simp
  · exact fun parts h entry _ => h.addFile scopes entry.2 entry.1

instance : TransOrd Relation where
  eq_swap {x y} := by cases x <;> cases y <;> rfl
  isLE_trans {x y z} := by cases x <;> cases y <;> cases z <;> decide

instance : TransCmp AmbiguousReference.cmpTotal :=
  inferInstanceAs (TransCmp (compareLex (compareOn fun reference => reference.source.node)
    (compareLex (compareOn AmbiguousReference.relation) (compareLex (compareOn AmbiguousReference.name)
    (compareLex (compareOn fun reference => reference.source.line)
    (compareLex (compareOn fun reference => reference.source.path)
    (compareLex (compareOn fun reference => reference.source.label)
    (compareOn fun reference => reference.source.isSymbol))))))))

instance : Std.Total fun x y => (AmbiguousReference.cmpTotal x y).isLE = true where
  total x y := by
    rw [← OrientedCmp.isGE_iff_isLE (a := x) (b := y)]
    cases AmbiguousReference.cmpTotal x y <;> decide

instance : IsTrans AmbiguousReference fun x y => (AmbiguousReference.cmpTotal x y).isLE = true where
  trans _ _ _ := TransCmp.isLE_trans

theorem build_sortedByNode : SortedByNode (SymbolGraph.build scopes) := by
  have hsorted (references : List AmbiguousReference) :
      (sortedDistinct AmbiguousReference.cmpTotal references).Pairwise fun x y =>
        (AmbiguousReference.cmpTotal x y).isLE = true :=
    (List.pairwise_insertionSort _ references).sublist (List.destutter_sublist _ _)
  exact (hsorted _).imp fun h => Ordering.isLE_left_of_isLE_then h

end Built

section Degrees

variable {graph : SymbolGraph}

theorem sum_filter {α : Type} (p : α → Bool) (f : α → Nat) (items : List α) :
    ((items.filter p).map f).sum = (items.map fun item => if p item then f item else 0).sum := by
  induction items with
  | nil => rfl
  | cons item items ih => by_cases h : p item = true <;> simp [h, ih]

theorem sum_leavingOf (hsorted : SortedByNode graph) (node : Text) :
    (graph.byName.keys.map (leavingOf graph · node)).sum = (graph.ambiguousFrom node).length := by
  have hname (name : Text) : leavingOf graph name node =
      ((graph.ambiguous.filter (·.name = name)).map fun reference =>
        if reference.source.node = node then (graph.ambiguousEdges reference).length else 0).sum := by
    rw [leavingOf]
    congr 1
    refine List.map_congr_left fun reference hreference => ?_
    have hsame : reference.name = name := by simpa using (List.mem_filter.mp hreference).2
    rw [length_ambiguousEdges, hsame]
  simp only [hname]
  rw [Collect.sum_by_key _ _ TreeMap.nodup_keys fun reference hreference hno =>
    absurd (mem_byName.mpr ⟨reference, hreference, rfl⟩) hno, SymbolGraph.ambiguousFrom, List.length_flatMap,
    referencesFrom_eq hsorted, sum_filter]
  simp

theorem sum_arrivingOf (hindexed : NamesIndexed graph.candidateNames graph.candidates)
    (node : Text) :
    (graph.byName.keys.map (arrivingOf graph · node)).sum = (graph.ambiguousInto node).length := by
  have hname (name : Text) : arrivingOf graph name node =
      (((graph.candidatesAt node).filter (·.1 = name)).map fun entry =>
        (graph.ambiguous.filter (·.name = entry.1)).countP (·.source.node ≠ node)).sum := by
    have hcount : ((graph.candidatesAt node).filter (·.1 = name)).length =
        (graph.candidatesOf name).countP (·.node = node) := by
      rw [candidatesAt_eq, List.filter_comm, filter_candidates hindexed, ← List.countP_eq_length_filter,
        List.countP_map]
      rfl
    have hsame : ∀ entry ∈ (graph.candidatesAt node).filter (·.1 = name),
        (graph.ambiguous.filter (·.name = entry.1)).countP (·.source.node ≠ node) =
          (graph.ambiguous.filter (·.name = name)).countP (·.source.node ≠ node) := by
      intro entry hentry
      have hkey : entry.1 = name := by simpa using (List.mem_filter.mp hentry).2
      rw [hkey]
    rw [List.map_congr_left hsame, List.map_const', List.sum_replicate, hcount, arrivingOf,
      smul_eq_mul]
  -- a candidate whose name nobody spells adds nothing
  have hnone : ∀ entry ∈ graph.candidatesAt node, entry.1 ∉ graph.byName.keys →
      (graph.ambiguous.filter (·.name = entry.1)).countP (·.source.node ≠ node) = 0 := by
    intro entry _ hentry
    rw [List.filter_eq_nil_iff.mpr fun reference hreference hsame =>
      hentry (mem_byName.mpr ⟨reference, hreference, by simpa using hsame⟩)]
    rfl
  rw [length_ambiguousInto, ← Collect.sum_by_key Prod.fst _ TreeMap.nodup_keys hnone]
  simp only [hname]

/-- The counts of ambiguous edges never go below zero, and they are the lengths of the lists. -/
theorem ambiguousDegrees_eq_lengths (scopes : Scopes) :
    ∃ degrees, (SymbolGraph.build scopes).ambiguousDegrees = some degrees ∧ ∀ node,
      degrees.leavingFrom node = ((SymbolGraph.build scopes).ambiguousFrom node).length ∧
      degrees.arrivingAt node = ((SymbolGraph.build scopes).ambiguousInto node).length := by
  obtain ⟨degrees, hdegrees, hcounts⟩ := foldlM_countName (SymbolGraph.build scopes).byName.keys {}
  refine ⟨degrees, hdegrees, fun node => ?_⟩
  obtain ⟨hleaving, harriving⟩ := hcounts node
  rw [hleaving, harriving, sum_leavingOf (build_sortedByNode scopes),
    sum_arrivingOf (build_namesIndexed scopes)]
  simp [AmbiguousDegrees.leavingFrom, AmbiguousDegrees.arrivingAt]

end Degrees

end Agentless.Graph
