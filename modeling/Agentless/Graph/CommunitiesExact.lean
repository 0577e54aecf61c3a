import Agentless.Graph.Communities
import Agentless.Library.Cohesion

/-!
# Local moving raises the modularity

The modularity of a partition is what its labelling joins, when two nodes pull each other by their
edge weight less the weight that their degrees let expect. A node moves only to a community that
pulls it more than its own does.
-/

namespace Agentless.Graph

open Std (TreeMap)
open Metrics Cohesion

/-! ## Cells as a matrix -/

/-- The weight of the cells of one row for one column. -/
def rowWeight (cells : Cells) (column : Nat) : ℚ :=
  ((cells.filter (·.1 = column)).map Prod.snd).sum

def cellWeight (rows : List Cells) (row column : Nat) : ℚ := rowWeight (rows[row]?.getD []) column

theorem rowWeight_cons (cell : Nat × ℚ) (cells : Cells) (column : Nat) :
    rowWeight (cell :: cells) column =
      (if cell.1 = column then cell.2 else 0) + rowWeight cells column := by
  unfold rowWeight
  by_cases h : cell.1 = column <;> simp [h]

theorem sum_filter_cells {count : Nat} {cells : Cells} (hcells : ∀ cell ∈ cells, cell.1 < count)
    (p : Nat → Prop) [DecidablePred p] :
    ((cells.filter fun cell => p cell.1).map Prod.snd).sum =
      ∑ column ∈ Finset.range count, if p column then rowWeight cells column else 0 := by
  induction cells with
  | nil => simp [rowWeight]
  | cons cell cells ih =>
    rw [List.forall_mem_cons] at hcells
    have hfirst : (∑ column ∈ Finset.range count,
        if p column then (if cell.1 = column then cell.2 else 0) else 0) =
        if p cell.1 then cell.2 else 0 := by
      rw [Finset.sum_eq_single cell.1]
      · rw [if_pos rfl]
      · intro column _ hne
        rw [if_neg hne.symm, ite_self]
      · intro hout
        exact absurd (Finset.mem_range.mpr hcells.1) hout
    have hsplit : (∑ column ∈ Finset.range count,
        if p column then rowWeight (cell :: cells) column else 0) =
        (if p cell.1 then cell.2 else 0) +
          ((cells.filter fun cell => p cell.1).map Prod.snd).sum := by
      rw [← hfirst, ih hcells.2, ← Finset.sum_add_distrib]
      refine Finset.sum_congr rfl fun column _ => ?_
      rw [rowWeight_cons]
      split_ifs <;> simp
    rw [hsplit]
    by_cases h : p cell.1 <;> simp [h]

theorem rowWeight_modify {cells : Cells} {held : Nat} {cell : Nat × ℚ} (h : cells[held]? = some cell)
    (weight : ℚ) (column : Nat) :
    rowWeight (cells.modify held fun cell => (cell.1, cell.2 + weight)) column =
      rowWeight cells column + if cell.1 = column then weight else 0 := by
  induction cells generalizing held with
  | nil => cases h
  | cons first cells ih =>
    cases held with
    | zero =>
      obtain rfl : first = cell := by simpa using h
      rw [List.modify_zero_cons, rowWeight_cons, rowWeight_cons]
      split_ifs <;> ring
    | succ held =>
      rw [List.modify_succ_cons, rowWeight_cons, rowWeight_cons, ih (by simpa using h)]
      ring

theorem rowWeight_add (cells : Cells) (other : Nat) (weight : ℚ) (column : Nat) :
    rowWeight (Cells.add cells other weight) column =
      rowWeight cells column + if other = column then weight else 0 := by
  unfold Cells.add
  cases hfound : cells.findIdx? (·.1 == other) with
  | none =>
    by_cases h : other = column <;> simp [rowWeight, h]
  | some held =>
    obtain ⟨hlt, hheld, -⟩ := List.findIdx?_eq_some_iff_getElem.mp hfound
    dsimp only
    rw [rowWeight_modify (List.getElem?_eq_getElem hlt), beq_iff_eq.mp hheld]

/-! ## The undirected view -/

/-- Rows of cells for a symmetric matrix with no negative entry on its diagonal. -/
structure Undirected (count : Nat) (rows : List Cells) : Prop where
  length : rows.length = count
  inside : ∀ cells ∈ rows, ∀ cell ∈ cells, cell.1 < count
  symm : ∀ i j, cellWeight rows i j = cellWeight rows j i
  loop : ∀ i, 0 ≤ cellWeight rows i i

theorem cellWeight_modify {rows : List Cells} {row : Nat} (hrow : row < rows.length) (column : Nat)
    (weight : ℚ) (i j : Nat) :
    cellWeight (rows.modify row fun cells => Cells.add cells column weight) i j =
      cellWeight rows i j + if row = i ∧ column = j then weight else 0 := by
  unfold cellWeight
  rw [List.getElem?_modify]
  by_cases h : row = i
  · subst h
    simp [List.getElem?_eq_getElem hrow, rowWeight_add]
  · simp [h]

theorem mem_add {cells : Cells} {other : Nat} {weight : ℚ} {cell : Nat × ℚ}
    (h : cell ∈ Cells.add cells other weight) : cell.1 = other ∨ ∃ held ∈ cells, held.1 = cell.1 := by
  unfold Cells.add at h
  split at h
  next held hheld =>
    obtain ⟨index, hindex⟩ := List.mem_iff_getElem?.mp h
    rw [List.getElem?_modify] at hindex
    obtain ⟨found, hfound, rfl⟩ := Option.map_eq_some_iff.mp hindex
    refine .inr ⟨found, List.mem_of_getElem? hfound, ?_⟩
    split_ifs <;> rfl
  next =>
    rcases List.mem_append.mp h with hmem | hmem
    · exact .inr ⟨cell, hmem, rfl⟩
    · rw [List.mem_singleton.mp hmem]
      exact .inl rfl

theorem inside_modify {count row column : Nat} {rows : List Cells}
    (h : ∀ cells ∈ rows, ∀ cell ∈ cells, cell.1 < count) (hcolumn : column < count) (weight : ℚ) :
    ∀ cells ∈ rows.modify row fun cells => Cells.add cells column weight, ∀ cell ∈ cells,
      cell.1 < count := by
  intro cells hcells cell hcell
  obtain ⟨index, hindex⟩ := List.mem_iff_getElem?.mp hcells
  rw [List.getElem?_modify] at hindex
  obtain ⟨found, hfound, rfl⟩ := Option.map_eq_some_iff.mp hindex
  have hold := h found (List.mem_of_getElem? hfound)
  split_ifs at hcell
  · rcases mem_add hcell with hsame | ⟨held, hheld, hsame⟩
    · exact hsame ▸ hcolumn
    · exact hsame ▸ hold held hheld
  · exact hold cell hcell

theorem Undirected.edge {graph : FileGraph ℚ≥0} {rows : List Cells}
    (h : Undirected graph.nodes.length rows) {edge : FileEdge ℚ≥0} (hedge : edge ∈ graph.edges) :
    Undirected graph.nodes.length (symmetriseEdge graph rows edge) := by
  have hsource := List.idxOf_lt_length_iff.mpr (graph.ends_mem edge hedge).1
  have htarget := List.idxOf_lt_length_iff.mpr (graph.ends_mem edge hedge).2
  unfold symmetriseEdge
  generalize graph.nodes.idxOf edge.source = source at hsource ⊢
  generalize graph.nodes.idxOf edge.target = target at htarget ⊢
  have hcell (i j : Nat) : cellWeight ((rows.modify source fun cells =>
      Cells.add cells target edge.weight).modify target
        fun cells => Cells.add cells source edge.weight) i j =
      cellWeight rows i j + (if source = i ∧ target = j then (edge.weight : ℚ) else 0) +
        if target = i ∧ source = j then (edge.weight : ℚ) else 0 := by
    rw [cellWeight_modify, cellWeight_modify]
    · rwa [h.length]
    · rwa [List.length_modify, h.length]
  have hweight : (0 : ℚ) ≤ edge.weight := edge.weight.2
  refine ⟨?_, ?_, ?_, ?_⟩
  · rw [List.length_modify, List.length_modify, h.length]
  · exact inside_modify (inside_modify h.inside htarget _) hsource _
  · intro i j
    rw [hcell, hcell, h.symm i j, add_right_comm]
    simp only [and_comm]
  · intro i
    rw [hcell]
    have := h.loop i
    split_ifs <;> positivity

theorem undirected_symmetrise (graph : FileGraph ℚ≥0) :
    Undirected graph.nodes.length (symmetrise graph).adjacency := by
  have hfold (edges : List (FileEdge ℚ≥0)) (hsub : edges ⊆ graph.edges) (rows : List Cells)
      (h : Undirected graph.nodes.length rows) :
      Undirected graph.nodes.length (edges.foldl (symmetriseEdge graph) rows) := by
    induction edges generalizing rows with
    | nil => exact h
    | cons edge edges ih =>
      obtain ⟨hedge, hrest⟩ := List.cons_subset.mp hsub
      exact ih hrest _ (h.edge hedge)
  have hzero (i j : Nat) : cellWeight (List.replicate graph.nodes.length []) i j = 0 := by
    unfold cellWeight
    rw [List.getElem?_replicate]
    split_ifs <;> rfl
  refine hfold graph.edges (List.Subset.refl _) _ ⟨?_, ?_, ?_, ?_⟩
  · simp
  · simp
  · simp [hzero]
  · simp [hzero]

/-! ## One move -/

/-- The community of a node. -/
def memberOf (membership : List Nat) (node : Nat) : Nat := membership[node]?.getD 0

def degreeOf (weighted : Weighted) (node : Nat) : ℚ := weighted.degree[node]?.getD 0

/-- How far the weight between two nodes exceeds what their degrees let expect. -/
def pullOf (weighted : Weighted) (resolution : ℚ) (i j : Nat) : ℚ :=
  cellWeight weighted.adjacency i j / weighted.twoM -
    resolution * (degreeOf weighted i * degreeOf weighted j) / weighted.twoM ^ 2

/-- The modularity of a membership of `count` nodes. -/
def quality (weighted : Weighted) (resolution : ℚ) (count : Nat) (membership : List Nat) : ℚ :=
  joined (Finset.range count) (pullOf weighted resolution) (memberOf membership)

/-- Every community's stored total is the sum of its members' degrees. -/
structure Stored (weighted : Weighted) (count : Nat) (total : List ℚ) (membership : List Nat) :
    Prop where
  length_total : total.length = count
  length : membership.length = count
  bounded : ∀ community ∈ membership, community < count
  total : ∀ community < count, total[community]?.getD 0 =
    ∑ node ∈ Finset.range count,
      if memberOf membership node = community then degreeOf weighted node else 0

/-- What a community other than the node's own holds of the other nodes. -/
def othersSum (amount : Nat → ℚ) (count : Nat) (membership : List Nat) (node community : Nat) : ℚ :=
  ∑ other ∈ (Finset.range count).erase node,
    if memberOf membership other = community then amount other else 0

theorem sum_eq_othersSum {count node : Nat} (hnode : node < count) (amount : Nat → ℚ)
    (membership : List Nat) (community : Nat) :
    (∑ other ∈ Finset.range count,
      if memberOf membership other = community then amount other else 0) =
      othersSum amount count membership node community +
        if memberOf membership node = community then amount node else 0 :=
  (Finset.sum_erase_add _ _ (Finset.mem_range.mpr hnode)).symm

theorem memberOf_set {membership : List Nat} {node : Nat} (hnode : node < membership.length)
    (community : Nat) :
    memberOf (membership.set node community) = Function.update (memberOf membership) node community := by
  funext other
  unfold memberOf
  rw [List.getElem?_set]
  by_cases h : node = other
  · subst h
    simp [hnode]
  · simp [h, Function.update_of_ne (Ne.symm h)]

theorem othersSum_set {count node : Nat} (amount : Nat → ℚ) {membership : List Nat}
    (hnode : node < membership.length) (under community : Nat) :
    othersSum amount count (membership.set node under) node community =
      othersSum amount count membership node community := by
  refine Finset.sum_congr rfl fun other hother => ?_
  rw [memberOf_set hnode, Function.update_of_ne (Finset.ne_of_mem_erase hother)]

section Move

variable {weighted : Weighted} {resolution : ℚ} {count node : Nat} {total : List ℚ}
  {membership : List Nat}

theorem Stored.memberOf_lt (h : Stored weighted count total membership) (hnode : node < count) :
    memberOf membership node < count := by
  have hlt : node < membership.length := h.length.symm ▸ hnode
  rw [memberOf, List.getElem?_eq_getElem hlt]
  exact h.bounded _ (List.getElem_mem hlt)

theorem Stored.getD_left (h : Stored weighted count total membership) (hnode : node < count)
    {community : Nat} (hcommunity : community < count) :
    (total.modify (memberOf membership node) (· - degreeOf weighted node))[community]?.getD 0 =
      othersSum (degreeOf weighted) count membership node community := by
  have hheld := h.total community hcommunity
  rw [sum_eq_othersSum hnode] at hheld
  have hlt : community < total.length := h.length_total.symm ▸ hcommunity
  rw [List.getElem?_eq_getElem hlt, Option.getD_some] at hheld
  rw [List.getElem?_modify, List.getElem?_eq_getElem hlt, hheld]
  split_ifs <;> simp

theorem Stored.join (h : Stored weighted count total membership) (hnode : node < count)
    {under : Nat} (hunder : under < count) :
    Stored weighted count
      ((total.modify (memberOf membership node) (· - degreeOf weighted node)).modify under
        (· + degreeOf weighted node)) (membership.set node under) := by
  have hmember : node < membership.length := h.length.symm ▸ hnode
  refine ⟨?_, ?_, ?_, ?_⟩
  · rw [List.length_modify, List.length_modify, h.length_total]
  · rw [List.length_set, h.length]
  · intro community hcommunity
    rcases List.mem_or_eq_of_mem_set hcommunity with hold | rfl
    · exact h.bounded community hold
    · exact hunder
  · intro community hcommunity
    have hleft := h.getD_left hnode hcommunity
    rw [sum_eq_othersSum hnode, othersSum_set _ hmember, memberOf_set hmember,
      Function.update_self, ← hleft]
    have hlt : community < (total.modify (memberOf membership node)
        (· - degreeOf weighted node)).length := by
      rwa [List.length_modify, h.length_total]
    rw [List.getElem?_modify, List.getElem?_eq_getElem hlt]
    split_ifs <;> simp

theorem getD_neighbourWeights (hrows : Undirected count weighted.adjacency) (community : Nat) :
    (neighbourWeights weighted membership node (memberOf membership node))[community]?.getD 0 =
      ∑ other ∈ Finset.range count, if memberOf membership other = community then
        cellWeight weighted.adjacency node other else 0 := by
  have hcells : ∀ cell ∈ weighted.adjacency[node]?.getD [], cell.1 < count := by
    intro cell hcell
    cases hrow : weighted.adjacency[node]? with
    | none => simp [hrow] at hcell
    | some cells =>
      rw [hrow, Option.getD_some] at hcell
      exact hrows.inside cells (List.mem_of_getElem? hrow) cell hcell
  unfold neighbourWeights
  rw [Collect.getD_foldl_accumulate, TreeMap.getElem?_insert]
  have hfirst : (if compare (memberOf membership node) community = .eq then some (0 : ℚ)
      else (∅ : TreeMap Nat ℚ compare)[community]?).getD 0 = 0 := by
    split_ifs <;> simp
  rw [hfirst, zero_add]
  exact sum_filter_cells hcells fun other => memberOf membership other = community

/-- The score of a community for the node that has left its own. -/
def scoreOf (weighted : Weighted) (resolution : ℚ) (total : List ℚ) (membership : List Nat)
    (node community : Nat) : ℚ :=
  score weighted resolution (total.modify (memberOf membership node) (· - degreeOf weighted node))
    (degreeOf weighted node) (community,
      (neighbourWeights weighted membership node (memberOf membership node))[community]?.getD 0)

theorem score_eq (hrows : Undirected count weighted.adjacency)
    (h : Stored weighted count total membership) (hpos : 0 < weighted.twoM) (hnode : node < count)
    {community : Nat} (hcommunity : community < count) :
    scoreOf weighted resolution total membership node community =
      weighted.twoM * pulled (Finset.range count) (pullOf weighted resolution) (memberOf membership)
          node community +
        if memberOf membership node = community then cellWeight weighted.adjacency node node
        else 0 := by
  have hpulled : pulled (Finset.range count) (pullOf weighted resolution) (memberOf membership) node
      community =
      othersSum (cellWeight weighted.adjacency node) count membership node community /
          weighted.twoM -
        resolution * degreeOf weighted node *
          othersSum (degreeOf weighted) count membership node community / weighted.twoM ^ 2 := by
    unfold pulled othersSum
    rw [Finset.sum_div, Finset.mul_sum, Finset.sum_div, ← Finset.sum_sub_distrib]
    refine Finset.sum_congr rfl fun other _ => ?_
    unfold pullOf
    split_ifs
    · ring
    · simp
  unfold scoreOf score
  dsimp only
  rw [h.getD_left hnode hcommunity, getD_neighbourWeights hrows, sum_eq_othersSum hnode, hpulled]
  have hne := hpos.ne'
  field_simp
  ring

theorem foldl_better (score : Nat × ℚ → ℚ) (first : Nat × ℚ) (entries : List (Nat × ℚ)) :
    entries.foldl (better score) first = first ∨
      first.2 < (entries.foldl (better score) first).2 ∧
        ∃ entry ∈ entries, entries.foldl (better score) first = (entry.1, score entry) := by
  induction entries using List.reverseRecOn with
  | nil => exact .inl rfl
  | append_singleton entries entry ih =>
    have hfloor : 0 < gainFloor := by
      norm_num [gainFloor]
    have hge : first.2 ≤ (entries.foldl (better score) first).2 := by
      rcases ih with heq | ⟨hlt, -⟩
      · rw [heq]
      · exact hlt.le
    rw [List.foldl_concat, better]
    split_ifs with hbetter
    · refine .inr ⟨?_, entry, List.mem_append_right _ List.mem_cons_self, rfl⟩
      dsimp only
      linarith
    · refine ih.imp_right ?_
      rintro ⟨hlt, other, hother, heq⟩
      exact ⟨hlt, other, List.mem_append_left _ hother, heq⟩

theorem mem_neighbourWeights (hrows : Undirected count weighted.adjacency)
    (h : Stored weighted count total membership) (hnode : node < count) {entry : Nat × ℚ}
    (hentry : entry ∈
      (neighbourWeights weighted membership node (memberOf membership node)).toList) :
    entry.1 < count := by
  have hmem : entry.1 ∈ neighbourWeights weighted membership node (memberOf membership node) := by
    rw [← TreeMap.isSome_getElem?_iff_mem, TreeMap.mem_toList_iff_getElem?_eq_some.mp hentry]
    rfl
  rw [neighbourWeights, Collect.mem_foldl_accumulate, TreeMap.mem_insert, Std.compare_eq_iff_eq] at hmem
  rcases hmem with (hsame | hempty) | ⟨cell, hcell, hsame⟩
  · exact hsame ▸ h.memberOf_lt hnode
  · exact absurd hempty TreeMap.not_mem_emptyc
  · cases hrow : weighted.adjacency[node]? with
    | none => simp [hrow] at hcell
    | some cells =>
      rw [hrow, Option.getD_some] at hcell
      exact hsame ▸ h.memberOf_lt (hrows.inside cells (List.mem_of_getElem? hrow) cell hcell)

/-- Where a move takes the node: nowhere, or to a community that pulls it more. -/
structure Moved (weighted : Weighted) (resolution : ℚ) (count : Nat) (state next : Moving) :
    Prop where
  stored : Stored weighted count next.total next.membership
  moved : state.moved ≤ next.moved
  quality : quality weighted resolution count state.membership ≤
    Graph.quality weighted resolution count next.membership
  raised : state.moved < next.moved → Graph.quality weighted resolution count state.membership <
    Graph.quality weighted resolution count next.membership

theorem pullOf_symm (hrows : Undirected count weighted.adjacency) (i j : Nat) :
    pullOf weighted resolution i j = pullOf weighted resolution j i := by
  rw [pullOf, hrows.symm, mul_comm (degreeOf weighted i), pullOf]

/-- A community with a higher score than the node's own raises the modularity. -/
theorem quality_lt_of_score_lt (hrows : Undirected count weighted.adjacency)
    (h : Stored weighted count total membership) (hpos : 0 < weighted.twoM) (hnode : node < count)
    {under : Nat} (hunder : under < count) (hne : under ≠ memberOf membership node)
    (hscore : scoreOf weighted resolution total membership node (memberOf membership node) <
      scoreOf weighted resolution total membership node under) :
    quality weighted resolution count membership <
      quality weighted resolution count (membership.set node under) := by
  have hmember : node < membership.length := h.length.symm ▸ hnode
  rw [score_eq hrows h hpos hnode (h.memberOf_lt hnode), score_eq hrows h hpos hnode hunder, if_pos rfl,
    if_neg hne.symm] at hscore
  have hloop := hrows.loop node
  have hpulled : pulled (Finset.range count) (pullOf weighted resolution) (memberOf membership) node
      (memberOf membership node) <
      pulled (Finset.range count) (pullOf weighted resolution) (memberOf membership) node under := by
    refine lt_of_mul_lt_mul_left ?_ hpos.le
    linarith
  rw [quality, quality, memberOf_set hmember,
    joined_update (pullOf_symm hrows) (Finset.mem_range.mpr hnode)]
  linarith

/-- The community that a move takes the node to, with its score. -/
def bestOf (weighted : Weighted) (resolution : ℚ) (total : List ℚ) (membership : List Nat)
    (node : Nat) : Nat × ℚ :=
  (neighbourWeights weighted membership node (memberOf membership node)).toList.foldl
    (better (score weighted resolution
      (total.modify (memberOf membership node) (· - degreeOf weighted node))
      (degreeOf weighted node)))
    (memberOf membership node,
      scoreOf weighted resolution total membership node (memberOf membership node))

/-- A move takes the node to a community that is its own or has a higher score. -/
theorem bestOf_spec (hrows : Undirected count weighted.adjacency)
    (h : Stored weighted count total membership) (hnode : node < count) :
    (bestOf weighted resolution total membership node).1 < count ∧
      ((bestOf weighted resolution total membership node).1 ≠ memberOf membership node →
        scoreOf weighted resolution total membership node (memberOf membership node) <
          scoreOf weighted resolution total membership node
            (bestOf weighted resolution total membership node).1) := by
  rcases foldl_better _ _ _ with hfirst | ⟨hlt, entry, hentry, hbest⟩
  · rw [bestOf, hfirst]
    exact ⟨h.memberOf_lt hnode, fun hne => absurd rfl hne⟩
  · have hscore : score weighted resolution
        (total.modify (memberOf membership node) (· - degreeOf weighted node))
        (degreeOf weighted node) entry =
        scoreOf weighted resolution total membership node entry.1 := by
      rw [scoreOf, TreeMap.mem_toList_iff_getElem?_eq_some.mp hentry]
      rfl
    rw [hbest, hscore] at hlt
    rw [bestOf, hbest]
    have hcommunity := mem_neighbourWeights hrows h hnode hentry
    exact ⟨hcommunity, fun _ => hlt⟩

theorem moved_moveNode (hrows : Undirected count weighted.adjacency) (hpos : 0 < weighted.twoM)
    {state : Moving} (h : Stored weighted count state.total state.membership) (hnode : node < count) :
    Moved weighted resolution count state (moveNode weighted resolution state node) := by
  have heq : moveNode weighted resolution state node =
      { total := (state.total.modify (memberOf state.membership node)
          (· - degreeOf weighted node)).modify
            (bestOf weighted resolution state.total state.membership node).1
            (· + degreeOf weighted node)
        membership := state.membership.set node
          (bestOf weighted resolution state.total state.membership node).1
        moved := state.moved +
          if (bestOf weighted resolution state.total state.membership node).1 =
            memberOf state.membership node then 0 else 1 } := rfl
  obtain ⟨hunder, hscore⟩ := @bestOf_spec weighted resolution count node _ _ hrows h hnode
  generalize (bestOf weighted resolution state.total state.membership node).1 = under
    at heq hunder hscore
  have hstored := h.join hnode hunder
  rw [heq]
  by_cases hsame : under = memberOf state.membership node
  · have hmember : node < state.membership.length := h.length.symm ▸ hnode
    have hstay : state.membership.set node under = state.membership := by
      rw [hsame, memberOf, List.getElem?_eq_getElem hmember]
      exact List.set_getElem_self hmember
    refine ⟨hstored, Nat.le_add_right _ _, ?_, ?_⟩
    · rw [hstay]
    · simp [hsame]
  · have hlt := quality_lt_of_score_lt hrows h hpos hnode hunder hsame (hscore hsame)
    exact ⟨hstored, Nat.le_add_right _ _, hlt.le, fun _ => hlt⟩

theorem Moved.trans {state next last : Moving} (h : Moved weighted resolution count state next)
    (h' : Moved weighted resolution count next last) :
    Moved weighted resolution count state last := by
  refine ⟨h'.stored, h.moved.trans h'.moved, h.quality.trans h'.quality, fun hmoved => ?_⟩
  rcases Nat.lt_or_ge state.moved next.moved with hlt | hge
  · exact (h.raised hlt).trans_le h'.quality
  · exact h.quality.trans_lt (h'.raised (hge.trans_lt hmoved))

/-- A pass keeps the totals and does not lower the modularity, which a move raises. -/
theorem moved_onePass (hrows : Undirected count weighted.adjacency) (hpos : 0 < weighted.twoM)
    (h : Stored weighted count total membership) :
    Moved weighted resolution count ⟨total, membership, 0⟩
      (onePass weighted resolution total membership) := by
  have hfold (nodes : List Nat) (hnodes : ∀ node ∈ nodes, node < count) (state : Moving)
      (hstate : Stored weighted count state.total state.membership) :
      Moved weighted resolution count state
        (nodes.foldl (moveNode weighted resolution) state) := by
    induction nodes generalizing state with
    | nil => exact ⟨hstate, le_rfl, le_rfl, fun hlt => absurd hlt (lt_irrefl _)⟩
    | cons node nodes ih =>
      rw [List.forall_mem_cons] at hnodes
      have hmove := @moved_moveNode weighted resolution count node hrows hpos state hstate hnodes.1
      exact hmove.trans (ih hnodes.2 _ hmove.stored)
  refine hfold _ (fun node hnode => ?_) _ h
  rw [← h.length]
  exact List.mem_range.mp hnode

end Move

/-! ## The partition's modularity -/

section Partition

variable {weighted : Weighted} {resolution : ℚ} {count : Nat} {membership : List Nat}

/-- The nodes of a community, in order. -/
def nodesOf (membership : List Nat) (community : Nat) : List Nat :=
  (List.range membership.length).filter fun node => memberOf membership node = community

theorem zipIdx_eq_map (membership : List Nat) :
    membership.zipIdx = (List.range membership.length).map fun node =>
      (memberOf membership node, node) := by
  refine List.ext_getElem (by simp) fun node hleft hright => ?_
  have hnode : node < membership.length := by simpa using hleft
  simp [memberOf, List.getElem?_eq_getElem hnode]

theorem mem_grouped {group : Nat × List Nat} :
    group ∈ grouped membership ↔
      group.1 ∈ membership ∧ group.2 = nodesOf membership group.1 := by
  have hheld := Collect.getD_pushAll Prod.fst Prod.snd membership.zipIdx group.1
  have hmem := @Collect.mem_pushAll _ _ _ _ _ _ _ (Prod.fst : Nat × Nat → Nat) Prod.snd
    membership.zipIdx group.1
  have hnodes : (membership.zipIdx.filter (·.1 = group.1)).map Prod.snd =
      nodesOf membership group.1 := by
    rw [zipIdx_eq_map, List.filter_map, List.map_map]
    exact List.map_id' _
  have hkey : (∃ item ∈ membership.zipIdx, item.1 = group.1) ↔ group.1 ∈ membership := by
    have hfst : membership.zipIdx.map Prod.fst = membership := List.zipIdx_map_fst 0 membership
    rw [← List.mem_map, hfst]
  rw [hnodes] at hheld
  rw [hkey, ← TreeMap.isSome_getElem?_iff_mem] at hmem
  rw [grouped, TreeMap.mem_toList_iff_getElem?_eq_some, ← hmem, ← hheld]
  cases (Collect.pushAll Prod.fst Prod.snd membership.zipIdx)[group.1]? with
  | none => simp
  | some held => simp [eq_comm]

theorem sum_nodesOf (f : Nat → ℚ) (community : Nat) :
    ((nodesOf membership community).map f).sum =
      ∑ node ∈ Finset.range membership.length,
        if memberOf membership node = community then f node else 0 := by
  unfold nodesOf
  generalize memberOf membership = label
  induction membership.length with
  | zero => rfl
  | succ length ih =>
    rw [List.range_succ, List.filter_append, List.map_append, List.sum_append, ih,
      Finset.sum_range_succ]
    by_cases h : label length = community <;> simp [h]

theorem sum_internalWeights (hrows : Undirected count weighted.adjacency) (members : List Nat)
    (community : Nat) :
    (internalWeights weighted membership members community).sum =
      (members.map fun member => ∑ other ∈ Finset.range count,
        if memberOf membership other = community then cellWeight weighted.adjacency member other
        else 0).sum := by
  unfold internalWeights
  induction members with
  | nil => rfl
  | cons member members ih =>
    have hcells : ∀ cell ∈ weighted.adjacency[member]?.getD [], cell.1 < count := by
      intro cell hcell
      cases hrow : weighted.adjacency[member]? with
      | none => simp [hrow] at hcell
      | some cells =>
        rw [hrow, Option.getD_some] at hcell
        exact hrows.inside cells (List.mem_of_getElem? hrow) cell hcell
    rw [List.flatMap_cons, List.filter_append, List.map_append, List.sum_append, ih, List.map_cons,
      List.sum_cons]
    congr 1
    exact sum_filter_cells hcells fun other => memberOf membership other = community

/-- The part of one community is what it joins. -/
theorem communityOf_eq (hrows : Undirected count weighted.adjacency) (hpos : 0 < weighted.twoM)
    (hlength : membership.length = count) (nodes : List Text) (community : Nat) :
    (communityOf weighted membership nodes resolution
      (community, nodesOf membership community)).2.1 =
      ∑ i ∈ Finset.range count, if memberOf membership i = community then
        (∑ j ∈ Finset.range count,
          if memberOf membership j = community then pullOf weighted resolution i j else 0) else 0 := by
  unfold communityOf
  dsimp only
  rw [if_pos hpos, compensatedSum_eq, compensatedSum_eq, sum_internalWeights hrows]
  dsimp only
  rw [sum_nodesOf, sum_nodesOf, hlength]
  have hsquare (f : Nat → ℚ) : (∑ i ∈ Finset.range count, f i) * ∑ i ∈ Finset.range count, f i =
      ∑ i ∈ Finset.range count, ∑ j ∈ Finset.range count, f i * f j :=
    Finset.sum_mul_sum ..
  rw [div_mul_div_comm, hsquare, ← pow_two, Finset.sum_div, Finset.sum_div, Finset.mul_sum,
    ← Finset.sum_sub_distrib]
  refine Finset.sum_congr rfl fun i _ => ?_
  split_ifs with hi
  · rw [Finset.sum_div, Finset.sum_div, Finset.mul_sum, ← Finset.sum_sub_distrib]
    refine Finset.sum_congr rfl fun j _ => ?_
    split_ifs
    · rw [pullOf, degreeOf, degreeOf]
      ring
    · simp
  · simp

theorem nodup_grouped (membership : List Nat) : ((grouped membership).map Prod.fst).Nodup :=
  Collect.nodup_map_fst_toList _

theorem mem_map_fst_grouped {community : Nat} :
    community ∈ (grouped membership).map Prod.fst ↔ community ∈ membership := by
  rw [List.mem_map]
  constructor
  · rintro ⟨group, hgroup, rfl⟩
    exact (mem_grouped.mp hgroup).1
  · intro hmem
    exact ⟨(community, nodesOf membership community), mem_grouped.mpr ⟨hmem, rfl⟩, rfl⟩

/-- The modularity of the partition is what its membership joins. -/
theorem modularity_eq (hrows : Undirected count weighted.adjacency) (hpos : 0 < weighted.twoM)
    (hlength : membership.length = count) (nodes : List Text) (converged : Bool) :
    (partition weighted membership nodes resolution converged).modularity =
      quality weighted resolution count membership := by
  have hparts : (partition weighted membership nodes resolution converged).modularity =
      (((grouped membership).map Prod.fst).map fun community =>
        ∑ i ∈ Finset.range count, if memberOf membership i = community then
          (∑ j ∈ Finset.range count,
            if memberOf membership j = community then pullOf weighted resolution i j else 0)
          else 0).sum := by
    unfold partition
    dsimp only
    rw [← List.sum_eq_foldl, List.map_map, List.map_map]
    congr 1
    refine List.map_congr_left fun group hgroup => ?_
    have hmembers := (mem_grouped.mp hgroup).2
    obtain ⟨community, members⟩ := group
    obtain rfl : members = nodesOf membership community := hmembers
    exact communityOf_eq hrows hpos hlength nodes community
  rw [hparts, ← List.sum_toFinset _ (nodup_grouped membership), Finset.sum_comm, quality, joined]
  refine Finset.sum_congr rfl fun i hi => ?_
  have hmem : memberOf membership i ∈ ((grouped membership).map Prod.fst).toFinset := by
    have hlt : i < membership.length := hlength.symm ▸ Finset.mem_range.mp hi
    rw [List.mem_toFinset, mem_map_fst_grouped, memberOf, List.getElem?_eq_getElem hlt]
    exact List.getElem_mem hlt
  rw [Finset.sum_ite_eq, if_pos hmem]
  simp only [eq_comm]

/-- Every node is in exactly one group. -/
theorem perm_grouped (membership : List Nat) :
    ((grouped membership).flatMap Prod.snd).Perm (List.range membership.length) := by
  refine (List.perm_ext_iff_of_nodup ?_ List.nodup_range).mpr fun node => ?_
  · refine List.nodup_flatMap.mpr ⟨fun group hgroup => ?_, ?_⟩
    · rw [(mem_grouped.mp hgroup).2]
      exact List.nodup_range.filter _
    · refine (List.pairwise_map.mp (nodup_grouped membership)).imp_of_mem ?_
      intro group other hgroup hother hne node hnode hnode'
      rw [(mem_grouped.mp hgroup).2, nodesOf, List.mem_filter, decide_eq_true_eq] at hnode
      rw [(mem_grouped.mp hother).2, nodesOf, List.mem_filter, decide_eq_true_eq] at hnode'
      exact hne (hnode.2.symm.trans hnode'.2)
  · rw [List.mem_flatMap]
    constructor
    · rintro ⟨group, hgroup, hnode⟩
      rw [(mem_grouped.mp hgroup).2] at hnode
      exact List.mem_of_mem_filter hnode
    · intro hnode
      have hlt := List.mem_range.mp hnode
      refine ⟨(memberOf membership node, nodesOf membership (memberOf membership node)),
        mem_grouped.mpr ⟨?_, rfl⟩, List.mem_filter.mpr ⟨hnode, by simp⟩⟩
      rw [memberOf, List.getElem?_eq_getElem hlt]
      exact List.getElem_mem hlt

theorem perm_members {nodes : List Text} (hlength : membership.length = nodes.length)
    (converged : Bool) :
    ((partition weighted membership nodes resolution converged).communities.flatMap
      Community.members).Perm nodes := by
  have hnodes : (List.range nodes.length).map (fun node => nodes[node]?.getD []) = nodes := by
    refine List.ext_getElem (by simp) fun node _ hnode => ?_
    simp [List.getElem?_eq_getElem hnode]
  have hmembers : ((grouped membership).map (communityOf weighted membership nodes resolution)).map
      (fun found => found.1.members) =
      (grouped membership).map fun group => group.2.map fun node => nodes[node]?.getD [] := by
    rw [List.map_map]
    rfl
  unfold partition
  dsimp only
  refine ((List.perm_insertionSort Community.before _).flatMap_right _).trans ?_
  rw [List.flatMap_map, List.flatMap_def, hmembers, ← List.flatMap_def, ← List.map_flatMap]
  have hperm := (perm_grouped membership).map fun node => nodes[node]?.getD []
  rwa [hlength, hnodes] at hperm

end Partition

/-! ## Detecting communities -/

/-- The totals and the membership after a number of passes. -/
def afterPasses (weighted : Weighted) (resolution : ℚ) (count : Nat) : Nat → Moving
  | 0 => ⟨weighted.degree, List.range count, 0⟩
  | done + 1 =>
    onePass weighted resolution (afterPasses weighted resolution count done).total
      (afterPasses weighted resolution count done).membership

section Detect

variable (graph : FileGraph ℚ≥0) (resolution : ℚ)

theorem stored_singletons :
    Stored (symmetrise graph) graph.nodes.length (symmetrise graph).degree
      (List.range graph.nodes.length) := by
  refine ⟨?_, List.length_range, fun community => List.mem_range.mp, ?_⟩
  · exact (List.length_map _).trans (undirected_symmetrise graph).length
  · intro community hcommunity
    have hmember {node : Nat} (hnode : node ∈ Finset.range graph.nodes.length) :
        memberOf (List.range graph.nodes.length) node = node := by
      rw [memberOf, List.getElem?_range (Finset.mem_range.mp hnode), Option.getD_some]
    rw [Finset.sum_congr rfl fun node hnode => by rw [hmember hnode], Finset.sum_ite_eq',
      if_pos (Finset.mem_range.mpr hcommunity)]
    rfl

theorem moved_afterPasses (hpos : 0 < (symmetrise graph).twoM) (done : Nat) :
    Stored (symmetrise graph) graph.nodes.length
        (afterPasses (symmetrise graph) resolution graph.nodes.length done).total
        (afterPasses (symmetrise graph) resolution graph.nodes.length done).membership ∧
      Moved (symmetrise graph) resolution graph.nodes.length
        ⟨(afterPasses (symmetrise graph) resolution graph.nodes.length done).total,
          (afterPasses (symmetrise graph) resolution graph.nodes.length done).membership, 0⟩
        (afterPasses (symmetrise graph) resolution graph.nodes.length (done + 1)) := by
  have hrows := undirected_symmetrise graph
  induction done with
  | zero => exact ⟨stored_singletons graph, moved_onePass hrows hpos (stored_singletons graph)⟩
  | succ done ih => exact ⟨ih.2.stored, moved_onePass hrows hpos ih.2.stored⟩

theorem length_afterPasses (weighted : Weighted) (count done : Nat) :
    (afterPasses weighted resolution count done).membership.length = count := by
  have hfold (nodes : List Nat) (state : Moving) :
      (nodes.foldl (moveNode weighted resolution) state).membership.length =
        state.membership.length := by
    induction nodes generalizing state with
    | nil => rfl
    | cons node nodes ih =>
      rw [List.foldl_cons, ih]
      exact List.length_set ..
  induction done with
  | zero => exact List.length_range
  | succ done ih => exact (hfold _ _).trans ih

theorem exists_passes (weighted : Weighted) (count remaining done : Nat) :
    ∃ last ≤ done + remaining,
      (passes weighted resolution remaining (afterPasses weighted resolution count done).total
        (afterPasses weighted resolution count done).membership).1 =
        (afterPasses weighted resolution count last).membership := by
  induction remaining generalizing done with
  | zero => exact ⟨done, le_rfl, rfl⟩
  | succ remaining ih =>
    unfold passes
    dsimp only
    split_ifs
    · exact ⟨done + 1, by omega, rfl⟩
    · obtain ⟨last, hlast, heq⟩ := ih (done + 1)
      exact ⟨last, by omega, heq⟩

/-- The passes run on a graph with weight. Each keeps every community's stored total the sum of its
members' degrees, does not lower the modularity, and raises it when it moved a node. The communities
are those of the last pass and hold every file exactly once. -/
theorem detectCommunities_passes :
    (0 < (symmetrise graph).twoM → ∀ done,
      let before := afterPasses (symmetrise graph) resolution graph.nodes.length done
      let after := afterPasses (symmetrise graph) resolution graph.nodes.length (done + 1)
      let modularity := fun state : Moving =>
        (partition (symmetrise graph) state.membership graph.nodes resolution false).modularity
      Stored (symmetrise graph) graph.nodes.length before.total before.membership ∧
        Stored (symmetrise graph) graph.nodes.length after.total after.membership ∧
        modularity before ≤ modularity after ∧
        (after.moved ≠ 0 → modularity before < modularity after)) ∧
      (∃ last ≤ maxPasses, ∃ converged, detectCommunities graph resolution =
        partition (symmetrise graph)
          (afterPasses (symmetrise graph) resolution graph.nodes.length last).membership graph.nodes
          resolution converged) ∧
      ((detectCommunities graph resolution).communities.flatMap Community.members).Perm
        graph.nodes := by
  have hlast : ∃ last ≤ maxPasses, ∃ converged, detectCommunities graph resolution =
      partition (symmetrise graph)
        (afterPasses (symmetrise graph) resolution graph.nodes.length last).membership graph.nodes
        resolution converged := by
    unfold detectCommunities
    dsimp only
    split_ifs
    · exact ⟨0, Nat.zero_le _, true, rfl⟩
    · obtain ⟨last, hle, heq⟩ := exists_passes resolution (symmetrise graph) graph.nodes.length
        maxPasses 0
      rw [Nat.zero_add] at hle
      refine ⟨last, hle, ?_⟩
      rw [← heq]
      exact ⟨_, rfl⟩
  refine ⟨fun hpos done => ?_, hlast, ?_⟩
  · obtain ⟨hbefore, hmoved⟩ := moved_afterPasses graph resolution hpos done
    have hrows := undirected_symmetrise graph
    dsimp only
    rw [modularity_eq hrows hpos hbefore.length, modularity_eq hrows hpos hmoved.stored.length]
    exact ⟨hbefore, hmoved.stored, hmoved.quality, fun hne => hmoved.raised (Nat.pos_of_ne_zero hne)⟩
  · obtain ⟨last, -, converged, heq⟩ := hlast
    rw [heq]
    exact perm_members (length_afterPasses resolution (symmetrise graph) graph.nodes.length last)
      converged

end Detect

/-- Two files that refer to each other, one of them to itself as well. -/
def mutualPair : FileGraph ℚ≥0 where
  nodes := ["c.py".toList, "d.py".toList]
  edges := [⟨"c.py".toList, "d.py".toList, 3⟩, ⟨"d.py".toList, "c.py".toList, 2⟩,
    ⟨"d.py".toList, "d.py".toList, 1⟩]
  sorted := by decide
  ends_mem := by decide
  distinct := by decide

theorem detectCommunities_passes_pair :
    (partition (symmetrise mutualPair) [0, 1] mutualPair.nodes 1 false).modularity <
      (partition (symmetrise mutualPair)
        (afterPasses (symmetrise mutualPair) 1 2 1).membership mutualPair.nodes 1
        false).modularity := by
  have h := (detectCommunities_passes mutualPair 1).1 (by decide +kernel) 0
  exact h.2.2.2 (by decide +kernel)

end Agentless.Graph
