import Agentless.Graph.Resolver
import Agentless.Library.Levels

/-!
# Following re-exports

The queue of hops that `follow` works off, and what it finds: the hops run through the levels of
`followLevels`, so a pair of a file and a member is visited exactly when a chain within the hop
limit leads to it, and each place that such a chain ends at has one definition.
-/

namespace Agentless.Graph

open Std

variable (scopes : Scopes)

/-- The hops that the file's import scope offers for the member. -/
def onward (pair : Text × Text) : List (Text × Text) :=
  ((scopes.get pair.1).map fun scope => scope.reExports pair.2).getD []

/-- The hops that each pending pair may still take. -/
def hopsLeft (pending : List ((Text × Text) × Nat)) : Multiset Nat :=
  pending.map fun entry => maxImportHops - entry.2

/-- A pair gives way to pairs that may take fewer hops. -/
theorem hopsLeft_lt {pair : Text × Text} {depth : Nat} {rest : List ((Text × Text) × Nat)}
    (hops : List (Text × Text)) (h : depth < maxImportHops) :
    Multiset.IsDershowitzMannaLT (hopsLeft (rest ++ hops.map fun next => (next, depth + 1)))
      (hopsLeft ((pair, depth) :: rest)) := by
  refine ⟨hopsLeft rest, hopsLeft (hops.map fun next => (next, depth + 1)), {maxImportHops - depth},
    Multiset.singleton_ne_zero _, ?_, ?_, ?_⟩
  · simp [hopsLeft]
  · simp [hopsLeft, add_comm]
  · intro left hleft
    simp only [hopsLeft, List.map_map, Multiset.mem_coe, List.mem_map, Function.comp_apply] at hleft
    obtain ⟨next, -, rfl⟩ := hleft
    exact ⟨_, Multiset.mem_singleton_self _, by omega⟩

theorem hopsLeft_lt_cons (entry : (Text × Text) × Nat) (rest : List ((Text × Text) × Nat)) :
    Multiset.IsDershowitzMannaLT (hopsLeft rest) (hopsLeft (entry :: rest)) := by
  refine ⟨hopsLeft rest, 0, {maxImportHops - entry.2}, Multiset.singleton_ne_zero _, ?_, ?_, ?_⟩
  · simp
  · simp [hopsLeft, add_comm]
  · simp

/-- Breadth first over the pending pairs, each with its depth. -/
def followPending (state : Following) (pending : List ((Text × Text) × Nat)) : Following :=
  match pending with
  | [] => state
  | (pair, depth) :: rest =>
    if state.visited.contains pair then followPending state rest
    else
      let defined := definedAt scopes pair.2 pair.1
      let state := { state with visited := pair :: state.visited }.extend defined
      if defined ≠ [] ∨ maxImportHops ≤ depth then followPending state rest
      else followPending state (rest ++ (onward scopes pair).map fun next => (next, depth + 1))
termination_by hopsLeft pending
decreasing_by
  · exact hopsLeft_lt_cons _ _
  · exact hopsLeft_lt_cons _ _
  · exact hopsLeft_lt _ (by omega)

/-- `follow` as it works off its queue. -/
def followQueue (first : List (Text × Text)) : List Definition :=
  ordered (followPending scopes {} (first.map fun pair => (pair, 1))).found

/-! ## The queue in levels -/

section Queue

variable {scopes}

/-- The state after a pair was visited for the first time. -/
def Following.visit (scopes : Scopes) (state : Following) (pair : Text × Text) : Following :=
  { state with visited := pair :: state.visited }.extend (definedAt scopes pair.2 pair.1)

theorem hop_of_mem {state : Following} {pair : Text × Text} (h : pair ∈ state.visited) :
    hop scopes state pair = (state, []) :=
  if_pos (List.contains_iff_mem.mpr h)

theorem hop_of_notMem {state : Following} {pair : Text × Text} (h : pair ∉ state.visited) :
    hop scopes state pair = (state.visit scopes pair,
      if definedAt scopes pair.2 pair.1 = [] then onward scopes pair else []) := by
  rw [hop, if_neg (mt List.contains_iff_mem.mp h)]
  dsimp only
  split_ifs <;> first | rfl | contradiction

theorem followPending_cons (state : Following) (pair : Text × Text) (depth : Nat)
    (rest : List ((Text × Text) × Nat)) :
    followPending scopes state ((pair, depth) :: rest) =
      if maxImportHops ≤ depth then followPending scopes (hop scopes state pair).1 rest
      else followPending scopes (hop scopes state pair).1
        (rest ++ (hop scopes state pair).2.map fun next => (next, depth + 1)) := by
  rw [followPending]
  by_cases hvisited : pair ∈ state.visited
  · rw [hop_of_mem hvisited, if_pos (List.contains_iff_mem.mpr hvisited)]
    simp
  · rw [hop_of_notMem hvisited, if_neg (mt List.contains_iff_mem.mp hvisited)]
    by_cases hdefined : definedAt scopes pair.2 pair.1 = []
    · simp [hdefined, Following.visit]
    · simp [hdefined, Following.visit]

theorem foldl_hop (level next : List (Text × Text)) (state : Following) :
    level.foldl (fun (state, next) pair =>
      let (state, more) := hop scopes state pair
      (state, next ++ more)) (state, next) =
      ((hops scopes state level).1, next ++ (hops scopes state level).2) := by
  unfold hops
  induction level generalizing state next with
  | nil => simp
  | cons pair level ih =>
    rw [List.foldl_cons, List.foldl_cons, ih, ih ([] ++ _)]
    simp

theorem hops_cons (state : Following) (pair : Text × Text) (level : List (Text × Text)) :
    hops scopes state (pair :: level) =
      ((hops scopes (hop scopes state pair).1 level).1,
        (hop scopes state pair).2 ++ (hops scopes (hop scopes state pair).1 level).2) := by
  have h := @foldl_hop scopes level ([] ++ (hop scopes state pair).2) (hop scopes state pair).1
  rw [List.nil_append] at h
  exact h

/-- A pair that may not hop onward adds what it defines. -/
theorem followPending_last (state : Following) (level : List (Text × Text)) :
    followPending scopes state (level.map fun pair => (pair, maxImportHops)) =
      (hops scopes state level).1 := by
  induction level generalizing state with
  | nil => simp [followPending, hops]
  | cons pair level ih =>
    rw [hops_cons, List.map_cons, followPending_cons, if_pos le_rfl, ih]

theorem followPending_level {depth : Nat} (hdepth : depth < maxImportHops) (state : Following)
    (level next : List (Text × Text)) :
    followPending scopes state
        (level.map (fun pair => (pair, depth)) ++ next.map fun pair => (pair, depth + 1)) =
      followPending scopes (hops scopes state level).1
        ((next ++ (hops scopes state level).2).map fun pair => (pair, depth + 1)) := by
  induction level generalizing state next with
  | nil => simp [hops]
  | cons pair level ih =>
    rw [hops_cons, List.map_cons, List.cons_append, followPending_cons, if_neg (by omega),
      List.append_assoc, ← List.map_append, ih, List.append_assoc]

theorem followPending_eq {depth remaining : Nat} (h : depth + remaining = maxImportHops)
    (state : Following) (level : List (Text × Text)) :
    followPending scopes state (level.map fun pair => (pair, depth)) =
      followLevels scopes remaining state level := by
  induction remaining generalizing depth state level with
  | zero =>
    obtain rfl : depth = maxImportHops := h
    exact followPending_last state level
  | succ remaining ih =>
    have hlevel := @followPending_level scopes depth (by omega) state level []
    rw [List.map_nil, List.append_nil, List.nil_append] at hlevel
    rw [hlevel, ih (by omega)]
    rfl

variable (scopes) in
theorem followQueue_eq (first : List (Text × Text)) :
    followQueue scopes first = follow scopes first := by
  rw [followQueue, @followPending_eq scopes 1 (maxImportHops - 1) (by decide)]
  rfl

end Queue

/-! ## Chains of re-exports -/

/-- A file that does not define the member itself leads to what it re-exports under that name. -/
def ReExports (pair next : Text × Text) : Prop :=
  definedAt scopes pair.2 pair.1 = [] ∧ next ∈ onward scopes pair

/-- A chain of at most `count` hops, the first of which is one of `first`, ends where the entry is
defined. -/
def Within (first : List (Text × Text)) (count : Nat) (entry : Definition) : Prop :=
  ∃ pair, Levels.Before (· ∈ first) (ReExports scopes) count pair ∧
    entry ∈ definedAt scopes pair.2 pair.1

def Definition.SamePlace (held entry : Definition) : Prop :=
  held.file.path = entry.file.path ∧ held.symbol.line = entry.symbol.line

variable {scopes} {state : Following}

/-- The definitions that were found, one for each place that a visited pair defines. -/
structure Gathered (scopes : Scopes) (state : Following) : Prop where
  sound : ∀ entry ∈ state.found, ∃ pair ∈ state.visited, entry ∈ definedAt scopes pair.2 pair.1
  complete : ∀ pair ∈ state.visited, ∀ entry ∈ definedAt scopes pair.2 pair.1,
    ∃ held ∈ state.found, held.SamePlace entry
  distinct : state.found.Pairwise fun held entry => ¬ held.SamePlace entry

/-- What one round of `extend` adds. -/
structure Extended (found defined found' : List Definition) : Prop where
  kept : found ⊆ found'
  sound : ∀ entry ∈ found', entry ∈ found ∨ entry ∈ defined
  complete : ∀ entry ∈ defined, ∃ held ∈ found', held.SamePlace entry
  distinct : (found.Pairwise fun held entry => ¬ held.SamePlace entry) →
    found'.Pairwise fun held entry => ¬ held.SamePlace entry

theorem visited_extend (state : Following) (defined : List Definition) :
    (state.extend defined).visited = state.visited := by
  unfold Following.extend
  induction defined generalizing state with
  | nil => rfl
  | cons entry defined ih =>
    rw [List.foldl_cons, ih]
    split_ifs <;> rfl

theorem extended_extend (state : Following) (defined : List Definition) :
    Extended state.found defined (state.extend defined).found := by
  unfold Following.extend
  induction defined generalizing state with
  | nil => exact ⟨List.Subset.refl _, fun _ => .inl, by simp, id⟩
  | cons entry defined ih =>
    rw [List.foldl_cons]
    split_ifs with hheld
    · obtain ⟨held, hmem, hplace⟩ := List.any_eq_true.mp hheld
      have hplace : held.SamePlace entry := by simpa [Definition.SamePlace] using hplace
      have hrest := ih state
      refine ⟨hrest.kept, fun other hother => ?_, fun other hother => ?_, hrest.distinct⟩
      · exact (hrest.sound other hother).imp_right (List.mem_cons_of_mem _)
      · rcases List.mem_cons.mp hother with rfl | hother
        · exact ⟨held, hrest.kept hmem, hplace⟩
        · exact hrest.complete other hother
    · have hrest := ih { state with found := state.found ++ [entry] }
      refine ⟨fun other hother => hrest.kept (List.mem_append_left _ hother), ?_, ?_, ?_⟩
      · intro other hother
        have := hrest.sound other hother
        grind
      · intro other hother
        rcases List.mem_cons.mp hother with rfl | hother
        · exact ⟨other, hrest.kept (List.mem_append_right _ List.mem_cons_self), rfl, rfl⟩
        · exact hrest.complete other hother
      · intro hdistinct
        refine hrest.distinct (List.pairwise_append.mpr ⟨hdistinct, List.pairwise_singleton _ _, ?_⟩)
        intro held hmem other hother hplace
        obtain rfl := List.mem_singleton.mp hother
        refine hheld (List.any_eq_true.mpr ⟨held, hmem, ?_⟩)
        simpa [Definition.SamePlace] using hplace

theorem Gathered.visit (h : Gathered scopes state) (pair : Text × Text) :
    Gathered scopes (state.visit scopes pair) := by
  have hadded := extended_extend { state with visited := pair :: state.visited }
    (definedAt scopes pair.2 pair.1)
  constructor
  · intro entry hentry
    rw [Following.visit, visited_extend]
    rcases hadded.sound entry hentry with hold | hnew
    · obtain ⟨other, hother, hdefined⟩ := h.sound entry hold
      exact ⟨other, List.mem_cons_of_mem _ hother, hdefined⟩
    · exact ⟨pair, List.mem_cons_self, hnew⟩
  · intro other hother entry hentry
    rw [Following.visit, visited_extend] at hother
    rcases List.mem_cons.mp hother with rfl | hother
    · exact hadded.complete entry hentry
    · obtain ⟨held, hheld, hplace⟩ := h.complete other hother entry hentry
      exact ⟨held, hadded.kept hheld, hplace⟩
  · exact hadded.distinct h.distinct

/-- What the pairs of one level add to the state, and the pairs they lead to. -/
structure Hopped (scopes : Scopes) (state : Following) (level : List (Text × Text))
    (state' : Following) (next : List (Text × Text)) : Prop where
  visited : ∀ pair, pair ∈ state'.visited ↔ pair ∈ state.visited ∨ pair ∈ level
  next : ∀ pair, pair ∈ next ↔ ∃ node ∈ level, node ∉ state.visited ∧ ReExports scopes node pair
  kept : state.found ⊆ state'.found
  gathered : Gathered scopes state → Gathered scopes state'

theorem hopped_hops (state : Following) (level : List (Text × Text)) :
    Hopped scopes state level (hops scopes state level).1 (hops scopes state level).2 := by
  induction level generalizing state with
  | nil => constructor <;> simp [hops]
  | cons pair level ih =>
    rw [hops_cons]
    by_cases hmem : pair ∈ state.visited
    · rw [hop_of_mem hmem]
      have hrest := ih state
      refine ⟨fun other => ?_, fun other => ?_, hrest.kept, hrest.gathered⟩
      · rw [hrest.visited]
        grind
      · rw [List.nil_append, hrest.next]
        grind
    · rw [hop_of_notMem hmem]
      have hrest := ih (state.visit scopes pair)
      have hvisited : (state.visit scopes pair).visited = pair :: state.visited := by
        rw [Following.visit, visited_extend]
      have hadded := extended_extend { state with visited := pair :: state.visited }
        (definedAt scopes pair.2 pair.1)
      refine ⟨fun other => ?_, fun other => ?_, fun entry hentry => hrest.kept (hadded.kept hentry),
        fun h => hrest.gathered (h.visit pair)⟩
      · rw [hrest.visited, hvisited]
        grind
      · rw [List.mem_append, hrest.next, hvisited]
        simp only [ReExports]
        grind

/-! ## The levels -/

variable {first : List (Text × Text)} {count : Nat} {level : List (Text × Text)}

/-- The state once the chains of `count` hops were followed, and the pairs that are next. -/
structure Followed (scopes : Scopes) (first : List (Text × Text)) (count : Nat) (state : Following)
    (level : List (Text × Text)) : Prop where
  visited : ∀ pair, pair ∈ state.visited ↔
    Levels.Before (· ∈ first) (ReExports scopes) count pair
  sound : ∀ pair ∈ level, Levels.Walk (· ∈ first) (ReExports scopes) count pair
  complete : ∀ pair, Levels.Distance (· ∈ first) (ReExports scopes) count pair → pair ∈ level
  gathered : Gathered scopes state
  nearer : ∀ fewer ≤ count, ∀ entry, Within scopes first fewer entry →
    ∃ held ∈ state.found, Within scopes first fewer held ∧ held.SamePlace entry

theorem followed_first (scopes : Scopes) (first : List (Text × Text)) :
    Followed scopes first 0 {} first := by
  have hnone (pair : Text × Text) : ¬ Levels.Before (· ∈ first) (ReExports scopes) 0 pair := by
    rintro ⟨fewer, hfewer, -⟩
    exact absurd hfewer (Nat.not_lt_zero fewer)
  constructor
  · exact fun pair => iff_of_false List.not_mem_nil (hnone pair)
  · exact fun pair hpair => .start hpair
  · exact fun pair hpair => Levels.distance_zero_iff.mp hpair
  · exact ⟨by simp, by simp, .nil⟩
  · rintro fewer hfewer entry ⟨pair, hbefore, -⟩
    exact absurd (Nat.le_zero.mp hfewer ▸ hbefore) (hnone pair)

theorem Followed.next {state' : Following} {next : List (Text × Text)}
    (h : Followed scopes first count state level) (hnext : Hopped scopes state level state' next) :
    Followed scopes first (count + 1) state' next := by
  have hvisited (pair : Text × Text) : pair ∈ state'.visited ↔
      Levels.Before (· ∈ first) (ReExports scopes) (count + 1) pair := by
    rw [hnext.visited, h.visited]
    constructor
    · rintro (hbefore | hlevel)
      · exact Levels.before_succ_iff.mpr (.inl hbefore)
      · exact ⟨count, Nat.lt_succ_self count, h.sound pair hlevel⟩
    · intro hbefore
      exact (Levels.before_succ_iff.mp hbefore).imp_right (h.complete pair)
  have hgathered := hnext.gathered h.gathered
  refine ⟨hvisited, ?_, ?_, hgathered, ?_⟩
  · intro pair hpair
    obtain ⟨node, hnode, -, hstep⟩ := (hnext.next pair).mp hpair
    exact .next (h.sound node hnode) hstep
  · intro pair hpair
    obtain ⟨⟨node, hnode, hstep⟩, -⟩ := Levels.distance_succ_iff.mp hpair
    exact (hnext.next pair).mpr
      ⟨node, h.complete node hnode, fun hmem => hnode.2 ((h.visited node).mp hmem), hstep⟩
  · intro fewer hfewer entry hentry
    rcases Nat.lt_or_eq_of_le hfewer with hlt | rfl
    · obtain ⟨held, hheld, hwithin, hplace⟩ := h.nearer fewer (Nat.le_of_lt_succ hlt) entry hentry
      exact ⟨held, hnext.kept hheld, hwithin, hplace⟩
    · -- everything found so far is within this many hops
      obtain ⟨pair, hbefore, hdefined⟩ := hentry
      obtain ⟨held, hheld, hplace⟩ := hgathered.complete pair ((hvisited pair).mpr hbefore) entry
        hdefined
      obtain ⟨other, hother, hsame⟩ := hgathered.sound held hheld
      exact ⟨held, hheld, ⟨other, (hvisited other).mp hother, hsame⟩, hplace⟩

theorem Followed.levels (h : Followed scopes first count state level) (remaining : Nat) :
    ∃ next, Followed scopes first (count + remaining + 1)
      (followLevels scopes remaining state level) next := by
  induction remaining generalizing count state level with
  | zero => exact ⟨_, h.next (hopped_hops state level)⟩
  | succ remaining ih =>
    obtain ⟨next, hnext⟩ := ih (h.next (hopped_hops state level))
    refine ⟨next, ?_⟩
    rw [Nat.add_right_comm count 1 remaining] at hnext
    exact hnext

/-- Whatever the re-exports are, the queue runs empty. Each definition that is returned is at the
end of a chain within the hop limit, and each definition at the end of such a chain shares its path
and line with exactly one that is returned, which a chain of no more hops reaches. -/
theorem followQueue_chains (scopes : Scopes) (first : List (Text × Text)) :
    (∀ entry ∈ followQueue scopes first, Within scopes first maxImportHops entry) ∧
      (∀ count ≤ maxImportHops, ∀ entry, Within scopes first count entry →
        ∃ held ∈ followQueue scopes first, Within scopes first count held ∧ held.SamePlace entry) ∧
      (followQueue scopes first).Pairwise fun held entry => ¬ held.SamePlace entry := by
  obtain ⟨next, hdone⟩ := (followed_first scopes first).levels (maxImportHops - 1)
  have hcount : 0 + (maxImportHops - 1) + 1 = maxImportHops := by decide
  rw [hcount] at hdone
  rw [followQueue_eq, follow, ordered]
  simp only [List.mem_insertionSort]
  refine ⟨?_, hdone.nearer, ?_⟩
  · intro entry hentry
    obtain ⟨pair, hpair, hdefined⟩ := hdone.gathered.sound entry hentry
    exact ⟨pair, (hdone.visited pair).mp hpair, hdefined⟩
  · refine (List.perm_insertionSort Definition.le _).symm.pairwise hdone.gathered.distinct ?_
    exact fun hplace hback => hplace ⟨hback.1.symm, hback.2.symm⟩

/-- A file that defines one name twice on its first line. -/
def twiceDefined : Scopes where
  files := [⟨['a'], .javascript, [⟨['f'], 1, 1, 1, [], [], 0⟩, ⟨['f'], 1, 1, 1, [], [], 1⟩], []⟩]
  perFile := fun _ => {}

/-- The second of two definitions on one line is at the end of a chain and is not returned. -/
theorem followQueue_drops :
    ∃ entry, Within twiceDefined [(['a'], ['f'])] maxImportHops entry ∧
      entry ∉ followQueue twiceDefined [(['a'], ['f'])] := by
  refine ⟨⟨⟨['a'], .javascript, [⟨['f'], 1, 1, 1, [], [], 0⟩, ⟨['f'], 1, 1, 1, [], [], 1⟩], []⟩,
    ⟨['f'], 1, 1, 1, [], [], 1⟩⟩, ⟨(['a'], ['f']), ⟨0, by decide, .start List.mem_cons_self⟩, ?_⟩, ?_⟩
  · decide
  · rw [followQueue_eq]
    decide

end Agentless.Graph
