import Mathlib.Data.Finset.Card
import Mathlib.Data.List.Sort
import Mathlib.Data.Prod.Lex
import Mathlib.Order.WellFounded
import Agentless.Library.Text

/-!
# Strongly connected components, iteratively

Tarjan's search with an explicit work stack: each entry is a node and the position of the next
neighbour to look at. A node is opened when it is first taken from the work stack and closed when
its neighbours are used up. Stacks are lists with their top first.
-/

namespace Agentless.Graph

abbrev Adjacency (α : Type) := List (α × List α)

variable {α : Type} [LinearOrder α]

def neighbours (adjacency : Adjacency α) (node : α) : List α := (adjacency.lookup node).getD []

structure Tarjan (α : Type) where
  index : α → Option Nat := fun _ => none
  low : α → Option Nat := fun _ => none
  onStack : α → Bool := fun _ => false
  stack : List α := []
  found : List (List α) := []
  counter : Nat := 0

namespace Tarjan

def opened (state : Tarjan α) (node : α) : Tarjan α :=
  { state with
    index := Function.update state.index node (some state.counter)
    low := Function.update state.low node (some state.counter)
    counter := state.counter + 1
    stack := node :: state.stack
    onStack := Function.update state.onStack node true }

def lower (state : Tarjan α) (node : α) (value : Nat) : Tarjan α :=
  { state with low := Function.update state.low node ((state.low node).map (min · value)) }

/-- The members popped off a stack, down to the node, and the rest of the stack. -/
def popTo (node : α) : List α → List α × List α
  | [] => ([], [])
  | member :: stack =>
    if member = node then ([member], stack)
    else
      let (members, rest) := popTo node stack
      (member :: members, rest)

/-- A node whose low link is its own index roots a component: it is popped off the stack. -/
def close (state : Tarjan α) (node : α) : Tarjan α :=
  if state.low node ≠ state.index node then state
  else
    let (members, rest) := popTo node state.stack
    { state with
      stack := rest
      onStack := fun other => state.onStack other && !members.contains other
      found := state.found ++ [members.mergeSort (· ≤ ·)] }

def advance (state : Tarjan α) (node child : α) (work : List (α × Nat)) :
    Tarjan α × List (α × Nat) :=
  match state.index child with
  | none => (state, (child, 0) :: work)
  | some index => (if state.onStack child then state.lower node index else state, work)

/-- After a node is closed, what it reaches is reached by the node below it on the work stack. -/
def lowerParent (state : Tarjan α) (node : α) (work : List (α × Nat)) : Tarjan α :=
  match work.head?, state.low node with
  | some (parent, _), some low => state.lower parent low
  | _, _ => state

section Termination

variable (adjacency : Adjacency α)

/-- The nodes that a search can come to: targets of edges and what is on the work stack. -/
def pool (work : List (α × Nat)) : Finset α :=
  ((adjacency.flatMap Prod.snd) ++ work.map Prod.fst).toFinset

def unseen (state : Tarjan α) (work : List (α × Nat)) : Nat :=
  ((pool adjacency work).filter fun node => state.index node = none).card

/-- Twice the neighbours that are left of an entry, but one for a node that is yet to open. -/
def entryWork (state : Tarjan α) (entry : α × Nat) : Nat :=
  if entry.2 = 0 ∧ state.index entry.1 = none then 1
  else 2 * ((neighbours adjacency entry.1).length + 1 - entry.2) + 1

def remaining (state : Tarjan α) (work : List (α × Nat)) : Nat :=
  (work.map (entryWork adjacency state)).sum

theorem mem_targets {node child : α} (h : child ∈ neighbours adjacency node) :
    child ∈ adjacency.flatMap Prod.snd := by
  unfold neighbours at h
  cases hlookup : adjacency.lookup node with
  | none => simp [hlookup] at h
  | some targets =>
    rw [hlookup, Option.getD_some] at h
    obtain ⟨before, after, rfl, -⟩ := List.lookup_eq_some_iff.mp hlookup
    simp [h]

end Termination

/-- The state and the work stack after one round, if the work stack is not empty. -/
def walkStep (adjacency : Adjacency α) (state : Tarjan α) (node : α) (position : Nat)
    (work : List (α × Nat)) : Tarjan α × List (α × Nat) :=
  let state := if position = 0 then state.opened node else state
  match (neighbours adjacency node)[position]? with
  | some child => state.advance node child ((node, position + 1) :: work)
  | none =>
    let state := state.close node
    (state.lowerParent node work, work)

@[simp] theorem lower_index (state : Tarjan α) (node : α) (value : Nat) :
    (state.lower node value).index = state.index := rfl

@[simp] theorem close_index (state : Tarjan α) (node : α) :
    (state.close node).index = state.index := by
  unfold close
  split_ifs <;> rfl

@[simp] theorem lowerParent_index (state : Tarjan α) (node : α) (work : List (α × Nat)) :
    (state.lowerParent node work).index = state.index := by
  unfold lowerParent
  split <;> rfl

@[simp] theorem advance_index (state : Tarjan α) (node child : α) (work : List (α × Nat)) :
    (state.advance node child work).1.index = state.index := by
  unfold advance
  split
  · rfl
  · dsimp only
    split_ifs <;> rfl

section Termination

variable (adjacency : Adjacency α) (state : Tarjan α) (node : α) (position : Nat)
  (work : List (α × Nat))

theorem walkStep_index : (walkStep adjacency state node position work).1.index =
    if position = 0 then Function.update state.index node (some state.counter)
    else state.index := by
  unfold walkStep
  dsimp only
  split <;> simp <;> split_ifs <;> rfl

/-- What a round leaves on the work stack: the node with its next position and perhaps a new
neighbour, or neither. -/
theorem walkStep_work :
    (∃ child ∈ neighbours adjacency node, position < (neighbours adjacency node).length ∧
      ((walkStep adjacency state node position work).2 = (node, position + 1) :: work ∨
        (walkStep adjacency state node position work).2 =
            (child, 0) :: (node, position + 1) :: work ∧
          (walkStep adjacency state node position work).1.index child = none)) ∨
      (walkStep adjacency state node position work).2 = work := by
  unfold walkStep
  dsimp only
  split
  · rename_i child hchild
    have hposition := (List.getElem?_eq_some_iff.mp hchild).1
    refine .inl ⟨child, List.mem_of_getElem? hchild, hposition, ?_⟩
    rw [advance_index]
    unfold advance
    split
    · rename_i hindex
      exact .inr ⟨rfl, hindex⟩
    · exact .inl rfl
  · exact .inr rfl

theorem pool_walkStep :
    pool adjacency (walkStep adjacency state node position work).2 ⊆
      pool adjacency ((node, position) :: work) := by
  intro other hother
  simp only [pool, List.mem_toFinset, List.mem_append, List.map_cons, List.mem_cons] at hother ⊢
  obtain ⟨child, hchild, -, hwork | ⟨hwork, -⟩⟩ | hwork :=
    walkStep_work adjacency state node position work
  · simpa [hwork] using hother
  · rw [hwork, List.map_cons, List.map_cons, List.mem_cons, List.mem_cons] at hother
    obtain htarget | rfl | hother := hother
    · exact .inl htarget
    · exact .inl (mem_targets adjacency hchild)
    · exact .inr hother
  · rw [hwork] at hother
    exact hother.imp_right .inr

/-- A round that opens a node leaves fewer unseen. -/
theorem unseen_walkStep_lt (hposition : position = 0) (hnode : state.index node = none) :
    unseen adjacency (walkStep adjacency state node position work).1
        (walkStep adjacency state node position work).2 <
      unseen adjacency state ((node, position) :: work) := by
  have hindex := walkStep_index adjacency state node position work
  rw [if_pos hposition] at hindex
  refine Finset.card_lt_card ?_
  refine (Finset.ssubset_iff_of_subset fun other hother => ?_).mpr ⟨node, ?_, ?_⟩
  · rw [Finset.mem_filter, hindex] at hother
    refine Finset.mem_filter.mpr ⟨pool_walkStep adjacency state node position work hother.1, ?_⟩
    by_cases hother' : other = node
    · simp [hother'] at hother
    · simpa [Function.update_of_ne hother'] using hother.2
  · simp [pool, hnode]
  · simp [hindex]

/-- Any other round leaves the same nodes unseen. -/
theorem walkStep_index_eq_none (hopens : ¬ (position = 0 ∧ state.index node = none)) (other : α) :
    (walkStep adjacency state node position work).1.index other = none ↔
      state.index other = none := by
  rw [walkStep_index]
  split_ifs with hposition
  · by_cases hother : other = node
    · subst hother
      simp [not_and.mp hopens hposition]
    · rw [Function.update_of_ne hother]
  · rfl

/-- Such a round leaves fewer neighbours of the node on top. -/
theorem remaining_walkStep_lt (hopens : ¬ (position = 0 ∧ state.index node = none)) :
    remaining adjacency (walkStep adjacency state node position work).1
        (walkStep adjacency state node position work).2 <
      remaining adjacency state ((node, position) :: work) := by
  have hsame := walkStep_index_eq_none adjacency state node position work hopens
  have hentry : entryWork adjacency (walkStep adjacency state node position work).1 =
      entryWork adjacency state := by
    funext entry
    simp only [entryWork, hsame]
  have htop : entryWork adjacency state (node, position) =
      2 * ((neighbours adjacency node).length + 1 - position) + 1 := if_neg hopens
  have hnext : entryWork adjacency state (node, position + 1) =
      2 * ((neighbours adjacency node).length + 1 - (position + 1)) + 1 := if_neg (by simp)
  rw [remaining, hentry]
  obtain ⟨child, hchild, hposition, hwork | ⟨hwork, hnone⟩⟩ | hwork :=
    walkStep_work adjacency state node position work
  · simp only [remaining, hwork, List.map_cons, List.sum_cons, htop, hnext]
    omega
  · have hnew : entryWork adjacency state (child, 0) = 1 := if_pos ⟨rfl, (hsame child).mp hnone⟩
    simp only [remaining, hwork, List.map_cons, List.sum_cons, htop, hnext, hnew]
    omega
  · simp only [remaining, hwork, List.map_cons, List.sum_cons, htop]
    omega

theorem walkStep_decreases :
    Prod.Lex (· < ·) (· < ·)
      (unseen adjacency (walkStep adjacency state node position work).1
          (walkStep adjacency state node position work).2,
        remaining adjacency (walkStep adjacency state node position work).1
          (walkStep adjacency state node position work).2)
      (unseen adjacency state ((node, position) :: work),
        remaining adjacency state ((node, position) :: work)) := by
  by_cases hopens : position = 0 ∧ state.index node = none
  · exact .left _ _ (unseen_walkStep_lt adjacency state node position work hopens.1 hopens.2)
  · have hsame := walkStep_index_eq_none adjacency state node position work hopens
    have hunseen : unseen adjacency (walkStep adjacency state node position work).1
        (walkStep adjacency state node position work).2 ≤
          unseen adjacency state ((node, position) :: work) := by
      refine Finset.card_le_card fun other hother => ?_
      rw [Finset.mem_filter, hsame] at hother
      have hpool := pool_walkStep adjacency state node position work hother.1
      exact Finset.mem_filter.mpr ⟨hpool, hother.2⟩
    obtain hlt | heq := hunseen.lt_or_eq
    · exact .left _ _ hlt
    · rw [heq]
      exact .right _ (remaining_walkStep_lt adjacency state node position work hopens)

end Termination

/-- The search from the nodes on the work stack. -/
def walk (adjacency : Adjacency α) (state : Tarjan α) (work : List (α × Nat)) : Tarjan α :=
  match work with
  | [] => state
  | (node, position) :: work =>
    have := walkStep_decreases adjacency state node position work
    walk adjacency (walkStep adjacency state node position work).1
      (walkStep adjacency state node position work).2
termination_by (unseen adjacency state work, remaining adjacency state work)
decreasing_by exact this

/-- The search from a node that no earlier one came to. -/
def walkFrom (adjacency : Adjacency α) (state : Tarjan α) (start : α) : Tarjan α :=
  if (state.index start).isNone then walk adjacency state [(start, 0)] else state

end Tarjan

/-- The strongly connected components of the nodes and what they reach. -/
def components (nodes : List α) (adjacency : Adjacency α) : List (List α) :=
  (nodes.foldl (Tarjan.walkFrom adjacency) {}).found

end Agentless.Graph
