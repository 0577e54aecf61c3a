import Agentless.Graph.Flood
import Agentless.Metrics.Sum
import Agentless.Text.Word

/-!
# The ranking of the files

Personalized PageRank over the file graph, in exact arithmetic. A pass moves every file's mass
along its edges, and the mass of a file without outgoing weight to the teleport vector, so the
ranks stay a distribution.
-/

namespace Agentless.Graph

open Std (TreeMap)
open Metrics

def damping : ℚ := 85 / 100

def epsilon : ℚ := 1 / 1000000

def maxIterations : Nat := 100

/-- A reference edge also carries half its weight back towards the referrer in the walk. -/
def backflowWeight : ℚ := 1 / 2

/-- A ranking of the graph's files, and whether the power iteration behind it settled. -/
structure PageRank where
  nodes : List Text
  ranks : List ℚ
  support : List Bool
  converged : Bool
deriving DecidableEq

abbrev Cells := List (Nat × ℚ)

def weights (cells : Cells) : List ℚ := cells.map Prod.snd

def uniform (count : Nat) : List ℚ := List.replicate count (1 / count)

/-- The seeds' shares normalised over the graph's files, or one uniform share. -/
def personalization (nodes : List Text) (seeds : TreeMap Text ℚ compare) : List ℚ :=
  if seeds.isEmpty then uniform nodes.length
  else
    let weighted := nodes.map fun node => seeds[node]?.getD 0
    let total := compensatedSum weighted
    if 0 < total then weighted.map (· / total) else uniform nodes.length

/-- A weight added to one cell, which starts from zero. -/
def addCell (collected : List (TreeMap Nat ℚ compare)) (row column : Nat) (weight : ℚ) :
    List (TreeMap Nat ℚ compare) :=
  collected.modify row fun cells => cells.insert column (cells[column]?.getD 0 + weight)

section Walk

variable (graph : FileGraph ℚ) (isPureSource : Text → Bool)

def addEdgeCells (collected : List (TreeMap Nat ℚ compare)) (edge : FileEdge ℚ) :
    List (TreeMap Nat ℚ compare) :=
  let source := graph.nodes.idxOf edge.source
  let target := graph.nodes.idxOf edge.target
  let collected := addCell collected source target edge.weight
  if isPureSource edge.source then collected
  else addCell collected target source (edge.weight * backflowWeight)

/-- Forward edges plus the backflow. -/
def walkAdjacency : List Cells :=
  (graph.edges.foldl (addEdgeCells graph isPureSource)
    (List.replicate graph.nodes.length {})).map (·.toList)

end Walk

/-! ## What the walk can arrive at -/

/-- A node that was not seen yet goes on the stack. -/
def arrive (state : List Bool × List Nat) (cell : Nat × ℚ) : List Bool × List Nat :=
  if state.1[cell.1]? = some false then (state.1.set cell.1 true, cell.1 :: state.2) else state

/-- A node that goes on the stack is unseen no more. -/
theorem count_arrive (state : List Bool × List Nat) (cell : Nat × ℚ) :
    (arrive state cell).1.count false + (arrive state cell).2.length =
      state.1.count false + state.2.length := by
  unfold arrive
  split_ifs with hunseen
  · obtain ⟨hlt, heq⟩ := List.getElem?_eq_some_iff.mp hunseen
    have hcount := List.count_set (b := false) (a := true) hlt
    have hpos : 0 < state.1.count false := List.count_pos_iff.mpr (heq ▸ List.getElem_mem hlt)
    simp [heq] at hcount
    rw [hcount, List.length_cons]
    omega
  · rfl

theorem count_foldl_arrive (cells : Cells) (state : List Bool × List Nat) :
    (cells.foldl arrive state).1.count false + (cells.foldl arrive state).2.length =
      state.1.count false + state.2.length := by
  induction cells generalizing state with
  | nil => rfl
  | cons cell cells ih => rw [List.foldl_cons, ih, count_arrive]

def arriveAll (adjacency : List Cells) (seen : List Bool) (frontier : List Nat) : List Bool :=
  match frontier with
  | [] => seen
  | node :: frontier =>
    let next := (adjacency[node]?.getD []).foldl arrive (seen, frontier)
    arriveAll adjacency next.1 next.2
termination_by seen.count false + frontier.length
decreasing_by
  rw [count_foldl_arrive, List.length_cons]
  exact Nat.lt_succ_self _

def reachable (adjacency : List Cells) (teleport : List ℚ) : List Bool :=
  let seen := teleport.map fun share => decide (0 < share)
  arriveAll adjacency seen ((List.range seen.length).filter (seen[·]?.getD false)).reverse

/-! ## The iteration -/

/-- One file's mass along its cells. -/
def spread (mass total : ℚ) (incoming : List ℚ) (cell : Nat × ℚ) : List ℚ :=
  incoming.modify cell.1 (· + mass * cell.2 / total)

/-- What one file hands on: along its cells, or as dangling mass when it has no outgoing weight. -/
def handOn (state : List ℚ × ℚ) (source : Cells × ℚ × ℚ) : List ℚ × ℚ :=
  let (cells, mass, total) := source
  if total ≤ 0 then (state.1, state.2 + mass)
  else (cells.foldl (spread mass total) state.1, state.2)

/-- One power-iteration pass; a file with no outgoing weight hands its mass to the teleport
vector. -/
def step (adjacency : List Cells) (totals teleport rank : List ℚ) : List ℚ :=
  let (incoming, dangling) :=
    (adjacency.zip (rank.zip totals)).foldl handOn (List.replicate rank.length 0, 0)
  (teleport.zip incoming).map fun entry =>
    (1 - damping) * entry.1 + damping * (entry.2 + dangling * entry.1)

/-- At most `remaining` passes, fewer when one moves the ranks by less than `epsilon`. -/
def iterate (adjacency : List Cells) (totals teleport : List ℚ) : Nat → List ℚ → List ℚ × Bool
  | 0, rank => (rank, false)
  | remaining + 1, rank =>
    let updated := step adjacency totals teleport rank
    let moved := (updated.zip rank).map fun entry => |entry.1 - entry.2|
    if compensatedSum moved < epsilon then (updated, true)
    else iterate adjacency totals teleport remaining updated

def walkTotals (adjacency : List Cells) : List ℚ :=
  adjacency.map fun cells => compensatedSum (weights cells)

/-- Rank the graph's files, teleporting to the seeds, or uniformly when no seed names a file; an
edge out of a pure source carries no weight back into it. -/
def pagerank (graph : FileGraph ℚ) (seeds : TreeMap Text ℚ compare) (isPureSource : Text → Bool) :
    PageRank :=
  if graph.nodes.isEmpty then ⟨graph.nodes, [], [], true⟩
  else
    let teleport := personalization graph.nodes seeds
    let adjacency := walkAdjacency graph isPureSource
    let (ranks, converged) := iterate adjacency (walkTotals adjacency) teleport maxIterations
      (uniform teleport.length)
    ⟨graph.nodes, ranks, reachable adjacency teleport, converged⟩

/-- The ranks after a number of passes. -/
def ranksAfter (graph : FileGraph ℚ) (seeds : TreeMap Text ℚ compare) (isPureSource : Text → Bool)
    (count : Nat) : List ℚ :=
  let adjacency := walkAdjacency graph isPureSource
  (step adjacency (walkTotals adjacency) (personalization graph.nodes seeds))^[count]
    (uniform graph.nodes.length)

/-! ## Mass -/

theorem sum_modify_add {values : List ℚ} {index : Nat} (h : index < values.length) (x : ℚ) :
    (values.modify index (· + x)).sum = values.sum + x := by
  induction values generalizing index with
  | nil => cases h
  | cons value values ih =>
    cases index with
    | zero => simp [add_right_comm]
    | succ index => simp [ih (Nat.lt_of_succ_lt_succ h), add_assoc]

theorem nonneg_modify_add {values : List ℚ} (h : ∀ value ∈ values, 0 ≤ value) (index : Nat) {x : ℚ}
    (hx : 0 ≤ x) : ∀ value ∈ values.modify index (· + x), 0 ≤ value := by
  induction values generalizing index with
  | nil => simp
  | cons value values ih =>
    rw [List.forall_mem_cons] at h
    cases index with
    | zero =>
      rw [List.modify_zero_cons, List.forall_mem_cons]
      exact ⟨add_nonneg h.1 hx, h.2⟩
    | succ index =>
      rw [List.modify_succ_cons, List.forall_mem_cons]
      exact ⟨h.1, ih h.2 index⟩

theorem foldl_spread (mass total : ℚ) {cells : Cells} {incoming : List ℚ}
    (hcells : ∀ cell ∈ cells, cell.1 < incoming.length) :
    (cells.foldl (spread mass total) incoming).length = incoming.length ∧
      (cells.foldl (spread mass total) incoming).sum =
        incoming.sum + mass * (weights cells).sum / total := by
  induction cells generalizing incoming with
  | nil => simp [weights]
  | cons cell cells ih =>
    rw [List.forall_mem_cons] at hcells
    have hlength : (spread mass total incoming cell).length = incoming.length :=
      List.length_modify ..
    obtain ⟨hlen, hsum⟩ := @ih (spread mass total incoming cell) (hlength.symm ▸ hcells.2)
    refine ⟨hlen.trans hlength, ?_⟩
    rw [List.foldl_cons, hsum, spread, sum_modify_add hcells.1]
    simp only [weights, List.map_cons, List.sum_cons]
    ring

theorem nonneg_foldl_spread {mass total : ℚ} (hmass : 0 ≤ mass) (htotal : 0 ≤ total)
    {cells : Cells} (hcells : ∀ cell ∈ cells, 0 ≤ cell.2) {incoming : List ℚ}
    (h : ∀ value ∈ incoming, 0 ≤ value) :
    ∀ value ∈ cells.foldl (spread mass total) incoming, 0 ≤ value := by
  induction cells generalizing incoming with
  | nil => exact h
  | cons cell cells ih =>
    rw [List.forall_mem_cons] at hcells
    exact ih hcells.2 (nonneg_modify_add h _ (div_nonneg (mul_nonneg hmass hcells.1) htotal))

/-- A pass hands on each file with its mass and its total. -/
theorem zip_walkTotals {adjacency : List Cells} {rank : List ℚ}
    (h : adjacency.length = rank.length) :
    adjacency.zip (rank.zip (walkTotals adjacency)) =
      (adjacency.zip rank).map fun entry => (entry.1, entry.2, (weights entry.1).sum) := by
  induction adjacency generalizing rank with
  | nil => rfl
  | cons cells adjacency ih =>
    cases rank with
    | nil => cases h
    | cons mass rank =>
      have hrest := ih (Nat.succ.inj h)
      simp only [walkTotals, compensatedSum_eq] at hrest
      simp [walkTotals, hrest]

theorem foldl_handOn {sources : List (Cells × ℚ)} {state : List ℚ × ℚ}
    (hcells : ∀ source ∈ sources, ∀ cell ∈ source.1, cell.1 < state.1.length) :
    let handed := (sources.map fun entry => (entry.1, entry.2, (weights entry.1).sum)).foldl
      handOn state
    handed.1.length = state.1.length ∧
      handed.1.sum + handed.2 = state.1.sum + state.2 + (sources.map Prod.snd).sum := by
  induction sources generalizing state with
  | nil => simp
  | cons source sources ih =>
    rw [List.forall_mem_cons] at hcells
    obtain ⟨cells, mass⟩ := source
    have hstep : (handOn state (cells, mass, (weights cells).sum)).1.length = state.1.length ∧
        (handOn state (cells, mass, (weights cells).sum)).1.sum +
            (handOn state (cells, mass, (weights cells).sum)).2 =
          state.1.sum + state.2 + mass := by
      unfold handOn
      dsimp only
      split_ifs with htotal
      · exact ⟨rfl, by ring⟩
      · obtain ⟨hlength, hsum⟩ := foldl_spread mass (weights cells).sum hcells.1
        refine ⟨hlength, ?_⟩
        rw [hsum, mul_div_cancel_right₀ _ (not_le.mp htotal).ne']
        ring
    have hrest := @ih (handOn state (cells, mass, (weights cells).sum))
      (hstep.1.symm ▸ hcells.2)
    simp only [List.map_cons, List.foldl_cons, List.sum_cons] at hrest ⊢
    refine ⟨hrest.1.trans hstep.1, ?_⟩
    rw [hrest.2, hstep.2]
    ring

theorem nonneg_foldl_handOn {sources : List (Cells × ℚ)} {state : List ℚ × ℚ}
    (hcells : ∀ source ∈ sources, ∀ cell ∈ source.1, 0 ≤ cell.2)
    (hmass : ∀ source ∈ sources, 0 ≤ source.2)
    (h : (∀ value ∈ state.1, 0 ≤ value) ∧ 0 ≤ state.2) :
    let handed := (sources.map fun entry => (entry.1, entry.2, (weights entry.1).sum)).foldl
      handOn state
    (∀ value ∈ handed.1, 0 ≤ value) ∧ 0 ≤ handed.2 := by
  induction sources generalizing state with
  | nil => exact h
  | cons source sources ih =>
    rw [List.forall_mem_cons] at hcells hmass
    refine ih hcells.2 hmass.2 ?_
    unfold handOn
    dsimp only
    split_ifs with htotal
    · exact ⟨h.1, add_nonneg h.2 hmass.1⟩
    · exact ⟨nonneg_foldl_spread hmass.1 (not_le.mp htotal).le hcells.1 h.1, h.2⟩

theorem sum_teleported {teleport incoming : List ℚ} (h : teleport.length = incoming.length)
    (dangling : ℚ) :
    ((teleport.zip incoming).map fun entry =>
      (1 - damping) * entry.1 + damping * (entry.2 + dangling * entry.1)).sum =
      (1 - damping) * teleport.sum + damping * (incoming.sum + dangling * teleport.sum) := by
  induction teleport generalizing incoming with
  | nil =>
    rw [List.length_nil, eq_comm, List.length_eq_zero_iff] at h
    simp [h]
  | cons share teleport ih =>
    cases incoming with
    | nil => cases h
    | cons arriving incoming =>
      rw [List.zip_cons_cons, List.map_cons, List.sum_cons, ih (Nat.succ.inj h), List.sum_cons,
        List.sum_cons]
      ring

/-! ## The walk's cells -/

/-- Rows of cells that lie in a square of `count` rows and weigh nothing negative. -/
structure Square (count : Nat) (adjacency : List Cells) : Prop where
  length : adjacency.length = count
  inside : ∀ cells ∈ adjacency, ∀ cell ∈ cells, cell.1 < count
  nonneg : ∀ cells ∈ adjacency, ∀ cell ∈ cells, 0 ≤ cell.2

theorem Square.addCell {count row column : Nat} {collected : List (TreeMap Nat ℚ compare)}
    (h : Square count (collected.map (·.toList))) (hcolumn : column < count) {weight : ℚ}
    (hweight : 0 ≤ weight) :
    Square count ((addCell collected row column weight).map (·.toList)) := by
  have hcell : ∀ cells ∈ collected, ∀ cell ∈ cells.toList, cell.1 < count ∧ 0 ≤ cell.2 :=
    fun cells hcells cell hcell => ⟨h.inside _ (List.mem_map_of_mem hcells) cell hcell,
      h.nonneg _ (List.mem_map_of_mem hcells) cell hcell⟩
  have hnew : ∀ cells ∈ Graph.addCell collected row column weight, ∀ cell ∈ cells.toList,
      cell.1 < count ∧ 0 ≤ cell.2 := by
    intro cells hcells cell hmem
    obtain ⟨index, hindex⟩ := List.mem_iff_getElem?.mp hcells
    rw [Graph.addCell, List.getElem?_modify] at hindex
    split_ifs at hindex
    · obtain ⟨held, hheld, rfl⟩ := Option.map_eq_some_iff.mp hindex
      have hold := hcell held (List.mem_of_getElem? hheld)
      rw [TreeMap.mem_toList_iff_getElem?_eq_some, TreeMap.getElem?_insert] at hmem
      simp only [Std.compare_eq_iff_eq] at hmem
      split_ifs at hmem with hsame
      · rw [Option.some.injEq] at hmem
        refine ⟨hsame ▸ hcolumn, hmem ▸ add_nonneg ?_ hweight⟩
        cases hfound : held[column]? with
        | none => exact le_rfl
        | some found =>
          exact (hold (column, found) (TreeMap.mem_toList_iff_getElem?_eq_some.mpr hfound)).2
      · exact hold cell (TreeMap.mem_toList_iff_getElem?_eq_some.mpr hmem)
    · rw [Option.map_eq_map, Option.map_id'] at hindex
      exact hcell cells (List.mem_of_getElem? hindex) cell hmem
  refine ⟨?_, ?_, ?_⟩
  · rw [List.length_map, Graph.addCell, List.length_modify, ← h.length, List.length_map]
  · rw [List.forall_mem_map]
    exact fun cells hcells cell hmem => (hnew cells hcells cell hmem).1
  · rw [List.forall_mem_map]
    exact fun cells hcells cell hmem => (hnew cells hcells cell hmem).2

theorem square_walkAdjacency {graph : FileGraph ℚ} (hweights : ∀ edge ∈ graph.edges, 0 ≤ edge.weight)
    (isPureSource : Text → Bool) :
    Square graph.nodes.length (walkAdjacency graph isPureSource) := by
  have hend {path : Text} (h : path ∈ graph.nodes) : graph.nodes.idxOf path < graph.nodes.length :=
    List.idxOf_lt_length_iff.mpr h
  have hfold (edges : List (FileEdge ℚ)) (hsub : edges ⊆ graph.edges)
      (collected : List (TreeMap Nat ℚ compare))
      (h : Square graph.nodes.length (collected.map (·.toList))) :
      Square graph.nodes.length
        ((edges.foldl (addEdgeCells graph isPureSource) collected).map (·.toList)) := by
    induction edges generalizing collected with
    | nil => exact h
    | cons edge edges ih =>
      obtain ⟨hedge, hrest⟩ := List.cons_subset.mp hsub
      obtain ⟨hsource, htarget⟩ := graph.ends_mem edge hedge
      have hweight := hweights edge hedge
      refine ih hrest _ ?_
      unfold addEdgeCells
      dsimp only
      split_ifs
      · exact h.addCell (hend htarget) hweight
      · refine (h.addCell (hend htarget) hweight).addCell (hend hsource) (mul_nonneg hweight ?_)
        norm_num [backflowWeight]
  refine hfold graph.edges (List.Subset.refl _) _ ⟨?_, ?_, ?_⟩
  · simp
  · simp
  · simp

/-! ## Passes -/

section Passes

variable {adjacency : List Cells} {teleport rank : List ℚ} {count : Nat}

theorem step_eq (hlength : adjacency.length = rank.length) :
    step adjacency (walkTotals adjacency) teleport rank =
      let handed := ((adjacency.zip rank).map fun entry =>
        (entry.1, entry.2, (weights entry.1).sum)).foldl handOn (List.replicate rank.length 0, 0)
      (teleport.zip handed.1).map fun entry =>
        (1 - damping) * entry.1 + damping * (entry.2 + handed.2 * entry.1) := by
  rw [step, zip_walkTotals hlength]

/-- A pass keeps the sum of the ranks. -/
theorem sum_step (hsquare : Square count adjacency) (hteleport : teleport.length = count)
    (hshares : teleport.sum = 1) (hrank : rank.length = count) (hsum : rank.sum = 1) :
    (step adjacency (walkTotals adjacency) teleport rank).length = count ∧
      (step adjacency (walkTotals adjacency) teleport rank).sum = 1 := by
  have hlength : adjacency.length = rank.length := hsquare.length.trans hrank.symm
  rw [step_eq hlength]
  have hcells : ∀ source ∈ adjacency.zip rank, ∀ cell ∈ source.1,
      cell.1 < (List.replicate rank.length (0 : ℚ), (0 : ℚ)).1.length := by
    intro source hsource cell hcell
    rw [List.length_replicate, hrank]
    exact hsquare.inside _ (List.of_mem_zip hsource).1 cell hcell
  have hhanded := foldl_handOn hcells
  have hmasses : ((adjacency.zip rank).map Prod.snd).sum = 1 := by
    rw [List.map_snd_zip hlength.ge, hsum]
  rw [hmasses] at hhanded
  generalize ((adjacency.zip rank).map fun entry =>
    (entry.1, entry.2, (weights entry.1).sum)).foldl handOn (List.replicate rank.length 0, 0) = handed
    at hhanded ⊢
  simp only [List.length_replicate, List.sum_replicate, smul_zero, zero_add] at hhanded
  dsimp only
  refine ⟨?_, ?_⟩
  · rw [List.length_map, List.length_zip, hhanded.1, hteleport, hrank, Nat.min_self]
  · rw [sum_teleported (by rw [hteleport, hhanded.1, hrank]), hshares, mul_one, mul_one,
      hhanded.2]
    ring

theorem nonneg_step (hsquare : Square count adjacency) (hshares : ∀ share ∈ teleport, 0 ≤ share)
    (hrank : rank.length = count) (hmass : ∀ mass ∈ rank, 0 ≤ mass) :
    ∀ mass ∈ step adjacency (walkTotals adjacency) teleport rank, 0 ≤ mass := by
  rw [step_eq (hsquare.length.trans hrank.symm)]
  have hhanded := @nonneg_foldl_handOn (adjacency.zip rank) (List.replicate rank.length 0, 0)
    (fun source hsource => hsquare.nonneg _ (List.of_mem_zip hsource).1)
    (fun source hsource => hmass _ (List.of_mem_zip hsource).2)
    ⟨fun value hvalue => (List.eq_of_mem_replicate hvalue).ge, le_rfl⟩
  dsimp only at hhanded ⊢
  rw [List.forall_mem_map]
  intro entry hentry
  have hshare := hshares _ (List.of_mem_zip hentry).1
  have harriving := hhanded.1 _ (List.of_mem_zip hentry).2
  have hdamping : 0 ≤ damping ∧ damping ≤ 1 := by
    norm_num [damping]
  exact add_nonneg (mul_nonneg (sub_nonneg.mpr hdamping.2) hshare)
    (mul_nonneg hdamping.1 (add_nonneg harriving (mul_nonneg hhanded.2 hshare)))

theorem exists_iterate (totals : List ℚ) (remaining : Nat) (rank : List ℚ) :
    ∃ count ≤ remaining, (iterate adjacency totals teleport remaining rank).1 =
      (step adjacency totals teleport)^[count] rank := by
  induction remaining generalizing rank with
  | zero => exact ⟨0, le_rfl, rfl⟩
  | succ remaining ih =>
    unfold iterate
    dsimp only
    split_ifs
    · exact ⟨1, by omega, rfl⟩
    · obtain ⟨count, hcount, heq⟩ := ih (step adjacency totals teleport rank)
      exact ⟨count + 1, by omega, heq⟩

end Passes

/-! ## The teleport vector -/

theorem length_uniform (count : Nat) : (uniform count).length = count := List.length_replicate ..

theorem sum_uniform {count : Nat} (h : count ≠ 0) : (uniform count).sum = 1 := by
  rw [uniform, List.sum_replicate, nsmul_eq_mul, mul_one_div_cancel (Nat.cast_ne_zero.mpr h)]

theorem nonneg_uniform (count : Nat) : ∀ share ∈ uniform count, 0 ≤ share := by
  intro share hshare
  rw [List.eq_of_mem_replicate hshare]
  positivity

theorem length_personalization (nodes : List Text) (seeds : TreeMap Text ℚ compare) :
    (personalization nodes seeds).length = nodes.length := by
  unfold personalization
  dsimp only
  split_ifs <;> simp [length_uniform]

/-- Whatever the seeds' shares are, the teleport vector's sum up to one. -/
theorem sum_personalization {nodes : List Text} (h : nodes ≠ []) (seeds : TreeMap Text ℚ compare) :
    (personalization nodes seeds).sum = 1 := by
  have huniform := sum_uniform (mt List.length_eq_zero_iff.mp h)
  unfold personalization
  dsimp only
  split_ifs with hempty htotal
  · exact huniform
  · rw [compensatedSum_eq] at htotal ⊢
    simp only [div_eq_mul_inv]
    rw [List.sum_map_mul_right, List.map_id', mul_inv_cancel₀ htotal.ne']
  · exact huniform

/-- No seed has a negative share. -/
def NonnegShares (seeds : TreeMap Text ℚ compare) : Prop :=
  ∀ (path : Text) (share : ℚ), seeds[path]? = some share → 0 ≤ share

theorem nonneg_personalization {seeds : TreeMap Text ℚ compare} (h : NonnegShares seeds)
    (nodes : List Text) :
    ∀ share ∈ personalization nodes seeds, 0 ≤ share := by
  unfold personalization
  dsimp only
  split_ifs with hempty htotal
  · exact nonneg_uniform _
  · simp only [List.map_map, List.forall_mem_map, Function.comp_apply]
    rintro node -
    refine div_nonneg ?_ htotal.le
    cases hfound : seeds[node]? with
    | none => exact le_rfl
    | some share => exact h node share hfound
  · exact nonneg_uniform _

/-- One entry, one vote: an entry's mass is split across the files it resolved to. -/
def seedEntry (weights : TreeMap Text ℚ compare) (paths : List Text) : TreeMap Text ℚ compare :=
  paths.foldl (fun weights path =>
    weights.insert path (weights[path]?.getD 0 + 1 / paths.length)) weights

/-- The shares that a map's focus entries give to the files they resolve to. -/
def seedWeights (resolve : Text → List Text) (focus : List Text) : TreeMap Text ℚ compare :=
  ((focus.map Text.strip).filter (· ≠ [])).foldl (fun weights entry =>
    seedEntry weights (resolve entry)) {}

theorem NonnegShares.insert {seeds : TreeMap Text ℚ compare} (h : NonnegShares seeds) (path : Text)
    {share : ℚ} (hshare : 0 ≤ share) :
    NonnegShares (seeds.insert path (seeds[path]?.getD 0 + share)) := by
  intro other found hfound
  rw [TreeMap.getElem?_insert] at hfound
  split_ifs at hfound
  · rw [← Option.some.inj hfound]
    refine add_nonneg ?_ hshare
    cases hheld : seeds[path]? with
    | none => exact le_rfl
    | some held => exact h path held hheld
  · exact h other found hfound

/-- The shares that the ranking's caller passes are not negative. -/
theorem nonnegShares_seedWeights (resolve : Text → List Text) (focus : List Text) :
    NonnegShares (seedWeights resolve focus) := by
  have hentry (paths : List Text) (share : ℚ) (hshare : 0 ≤ share)
      (seeds : TreeMap Text ℚ compare) (h : NonnegShares seeds) :
      NonnegShares (paths.foldl (fun weights path =>
        weights.insert path (weights[path]?.getD 0 + share)) seeds) := by
    induction paths generalizing seeds with
    | nil => exact h
    | cons path paths ih => exact ih _ (h.insert path hshare)
  have hfocus (entries : List Text) (seeds : TreeMap Text ℚ compare) (h : NonnegShares seeds) :
      NonnegShares (entries.foldl (fun weights entry => seedEntry weights (resolve entry)) seeds) := by
    induction entries generalizing seeds with
    | nil => exact h
    | cons entry entries ih => exact ih _ (hentry _ _ (by positivity) seeds h)
  exact hfocus _ {} fun path share hfound => by simp at hfound

/-! ## The ranks -/

/-- After every pass the ranks of a graph with files sum up to one, dangling files included, and no
rank is negative unless a seed's share is. The ranks of `pagerank` are those of some pass. -/
theorem pagerank_distribution (graph : FileGraph ℚ) (seeds : TreeMap Text ℚ compare)
    (isPureSource : Text → Bool) (hnodes : graph.nodes ≠ [])
    (hweights : ∀ edge ∈ graph.edges, 0 ≤ edge.weight) :
    (∀ count, (ranksAfter graph seeds isPureSource count).length = graph.nodes.length ∧
      (ranksAfter graph seeds isPureSource count).sum = 1) ∧
      (NonnegShares seeds → ∀ count, ∀ rank ∈ ranksAfter graph seeds isPureSource count, 0 ≤ rank) ∧
      ∃ count ≤ maxIterations,
        (pagerank graph seeds isPureSource).ranks = ranksAfter graph seeds isPureSource count := by
  have hsquare := square_walkAdjacency hweights isPureSource
  have hteleport := length_personalization graph.nodes seeds
  have hshares := sum_personalization hnodes seeds
  have hnext (count : Nat) : ranksAfter graph seeds isPureSource (count + 1) =
      step (walkAdjacency graph isPureSource) (walkTotals (walkAdjacency graph isPureSource))
        (personalization graph.nodes seeds) (ranksAfter graph seeds isPureSource count) :=
    Function.iterate_succ_apply' ..
  have hsum (count : Nat) : (ranksAfter graph seeds isPureSource count).length =
      graph.nodes.length ∧ (ranksAfter graph seeds isPureSource count).sum = 1 := by
    induction count with
    | zero => exact ⟨length_uniform _, sum_uniform (mt List.length_eq_zero_iff.mp hnodes)⟩
    | succ count ih =>
      rw [hnext]
      exact sum_step hsquare hteleport hshares ih.1 ih.2
  refine ⟨hsum, fun hseeds count => ?_, ?_⟩
  · induction count with
    | zero => exact nonneg_uniform _
    | succ count ih =>
      rw [hnext]
      exact nonneg_step hsquare (nonneg_personalization hseeds _) (hsum count).1 ih
  · have hempty : ¬ graph.nodes.isEmpty := mt List.isEmpty_iff.mp hnodes
    unfold pagerank
    rw [if_neg hempty]
    dsimp only
    rw [hteleport]
    exact exists_iterate _ _ _

/-- Two files of which the first refers to the second and the second to none. -/
def rankedPair : FileGraph ℚ where
  nodes := ["a.py".toList, "b.py".toList]
  edges := [⟨"a.py".toList, "b.py".toList, 1⟩]
  sorted := by decide
  ends_mem := by decide
  distinct := by decide

theorem pagerank_distribution_pair :
    (ranksAfter rankedPair {} (fun _ => true) 1).sum = 1 ∧
      ∀ rank ∈ ranksAfter rankedPair {} (fun _ => true) 1, 0 ≤ rank := by
  have h := pagerank_distribution rankedPair {} (fun _ => true) (by decide) (by decide)
  exact ⟨(h.1 1).2, h.2.1 (fun path share hfound => by simp at hfound) 1⟩

/-- A negative share makes a rank negative, although the shares sum up to one. -/
theorem pagerank_negative_share :
    rankedPair.nodes ≠ [] ∧ (∀ edge ∈ rankedPair.edges, 0 ≤ edge.weight) ∧
      ∃ rank ∈ ranksAfter rankedPair
        (TreeMap.ofList [("a.py".toList, -9), ("b.py".toList, 10)] compare) (fun _ => true) 1,
        rank < 0 := by
  decide +kernel

end Agentless.Graph
