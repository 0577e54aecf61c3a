import Mathlib.Order.Basic
import Mathlib.Data.Nat.Find

/-!
# Walks and distances

A walk takes steps from a start. A node is at distance `n` when a walk of `n` steps ends there and
no shorter one does. The nodes at the next distance are those one step from a node at this distance
that no walk so far ends at, so a search that goes level by level meets each node at its distance.
-/

namespace Agentless.Levels

variable {ν : Type} (starts : ν → Prop) (step : ν → ν → Prop)

/-- A walk of a number of steps from a start ends at the node. -/
inductive Walk : Nat → ν → Prop where
  | start {node : ν} : starts node → Walk 0 node
  | next {count : Nat} {node other : ν} : Walk count node → step node other → Walk (count + 1) other

/-- A walk of fewer steps than `count` ends at the node. -/
def Before (count : Nat) (node : ν) : Prop := ∃ fewer < count, Walk starts step fewer node

/-- The shortest walk to the node has `count` steps. -/
def Distance (count : Nat) (node : ν) : Prop :=
  Walk starts step count node ∧ ¬ Before starts step count node

variable {starts step} {count : Nat} {node other : ν}

theorem Walk.distance (h : Walk starts step count node) :
    ∃ fewer ≤ count, Distance starts step fewer node := by
  classical
  have hexists : ∃ fewer, Walk starts step fewer node := ⟨count, h⟩
  refine ⟨Nat.find hexists, Nat.find_min' hexists h, Nat.find_spec hexists, ?_⟩
  rintro ⟨fewer, hfewer, hwalk⟩
  exact Nat.find_min hexists hfewer hwalk

theorem Distance.unique {count' : Nat} (h : Distance starts step count node)
    (h' : Distance starts step count' node) : count = count' := by
  rcases Nat.lt_trichotomy count count' with hlt | heq | hgt
  · exact absurd ⟨count, hlt, h.1⟩ h'.2
  · exact heq
  · exact absurd ⟨count', hgt, h'.1⟩ h.2

theorem distance_zero_iff : Distance starts step 0 node ↔ starts node := by
  constructor
  · rintro ⟨⟨hstart⟩, -⟩
    exact hstart
  · intro hstart
    exact ⟨.start hstart, fun ⟨fewer, hfewer, _⟩ => absurd hfewer (Nat.not_lt_zero fewer)⟩

/-- A node is nearer than `count + 1` when it is nearer than `count` or at that distance. -/
theorem before_succ_iff :
    Before starts step (count + 1) node ↔
      Before starts step count node ∨ Distance starts step count node := by
  constructor
  · rintro ⟨fewer, hfewer, hwalk⟩
    obtain ⟨least, hleast, hdistance⟩ := hwalk.distance
    rcases Nat.lt_or_eq_of_le (Nat.le_of_lt_succ (Nat.lt_of_le_of_lt hleast hfewer)) with hlt | rfl
    · exact .inl ⟨least, hlt, hdistance.1⟩
    · exact .inr hdistance
  · rintro (⟨fewer, hfewer, hwalk⟩ | hdistance)
    · exact ⟨fewer, Nat.lt_succ_of_lt hfewer, hwalk⟩
    · exact ⟨count, Nat.lt_succ_self count, hdistance.1⟩

/-- The nodes of the next level. -/
theorem distance_succ_iff :
    Distance starts step (count + 1) other ↔
      (∃ node, Distance starts step count node ∧ step node other) ∧
        ¬ Before starts step (count + 1) other := by
  constructor
  · rintro ⟨hwalk, hbefore⟩
    refine ⟨?_, hbefore⟩
    cases hwalk with
    | next hnode hstep =>
      refine ⟨_, ⟨hnode, ?_⟩, hstep⟩
      rintro ⟨fewer, hfewer, hshorter⟩
      exact hbefore ⟨fewer + 1, Nat.succ_lt_succ hfewer, .next hshorter hstep⟩
  · rintro ⟨⟨node, hnode, hstep⟩, hbefore⟩
    exact ⟨.next hnode.1 hstep, hbefore⟩

/-- Every level up to a node's own holds a node. -/
theorem Distance.exists_of_le {nearer : Nat} (h : Distance starts step count node)
    (hle : nearer ≤ count) : ∃ other, Distance starts step nearer other := by
  induction count generalizing node with
  | zero => exact ⟨node, Nat.le_zero.mp hle ▸ h⟩
  | succ count ih =>
    rcases Nat.lt_or_eq_of_le hle with hlt | rfl
    · obtain ⟨⟨before, hbefore, -⟩, -⟩ := distance_succ_iff.mp h
      exact ih hbefore (Nat.le_of_lt_succ hlt)
    · exact ⟨node, h⟩

end Agentless.Levels
