import Agentless.Graph.Components
import Mathlib.Logic.Relation

/-!
# The components are the strongly connected ones

The invariant of the search, at every entry of its loop: which nodes are on the stack and on the
path of the work stack, what the low links stand for, and that the nodes off the stack reach only
such nodes. Each step keeps it, so the components found are classes of mutual reachability.
-/

namespace Agentless.Graph

variable {α : Type} [LinearOrder α] (adjacency : Adjacency α)

def Edge (source target : α) : Prop := target ∈ neighbours adjacency source

def Reach : α → α → Prop := Relation.ReflTransGen (Edge adjacency)

namespace Tarjan

def idx (state : Tarjan α) (node : α) : Nat := (state.index node).getD 0

def lowOf (state : Tarjan α) (node : α) : Nat := (state.low node).getD 0

def Seen (state : Tarjan α) (node : α) : Prop := (state.index node).isSome

/-- The node's component was found. -/
def Done (state : Tarjan α) (node : α) : Prop := state.Seen node ∧ node ∉ state.stack

end Tarjan

/-- The edge was looked at: its source is not on the work stack any more, or is past it. -/
def Examined (work : List (α × Nat)) (source target : α) : Prop :=
  target ∈ neighbours adjacency source ∧
    ∀ position, (source, position) ∈ work → target ∈ (neighbours adjacency source).take position

def path (work : List (α × Nat)) : List α := work.map Prod.fst

/-- The state of a search below `roots` whose work stack holds open nodes only. `pending` is a node
that is about to be opened. -/
structure Invariant (roots : List α) (state : Tarjan α) (work : List (α × Nat))
    (pending : Option α) : Prop where
  idx_lt : ∀ node, state.Seen node → state.idx node < state.counter
  low_some : ∀ node, state.Seen node → (state.low node).isSome
  onStack_iff : ∀ node, state.onStack node = true ↔ node ∈ state.stack
  stack_seen : ∀ node ∈ state.stack, state.Seen node
  stack_sorted : state.stack.Pairwise fun above below => state.idx below < state.idx above
  path_stack : ∀ node ∈ path work, node ∈ state.stack
  path_sorted : (path work).Pairwise fun above below => state.idx below < state.idx above
  covered : ∀ node ∈ state.stack, ∃ below ∈ path work, state.idx below ≤ state.idx node
  path_reach : ∀ node ∈ path work, ∀ above ∈ state.stack, state.idx node ≤ state.idx above →
    Reach adjacency node above
  done_closed : ∀ source target, state.Done source → Edge adjacency source target →
    state.Done target
  low_le : ∀ node ∈ state.stack, state.lowOf node ≤ state.idx node
  low_reach : ∀ node ∈ state.stack, ∃ lowest ∈ state.stack, state.idx lowest = state.lowOf node ∧
    Reach adjacency node lowest
  low_lt : ∀ node ∈ state.stack, node ∉ path work → state.lowOf node < state.idx node
  examined_seen : ∀ source ∈ state.stack, ∀ target, Examined adjacency work source target →
    state.Seen target ∨ pending = some target
  examined_low : ∀ node ∈ path work, ∀ source ∈ state.stack, state.idx node ≤ state.idx source →
    ∀ target ∈ state.stack, Examined adjacency work source target →
      ∃ above ∈ path work, state.idx node ≤ state.idx above ∧
        state.lowOf above ≤ state.idx target
  pending_unseen : ∀ node, pending = some node → ¬ state.Seen node ∧
    (∃ root ∈ roots, Reach adjacency root node) ∧
      ∀ below ∈ path work, Reach adjacency below node
  seen_reach : ∀ node, state.Seen node → ∃ root ∈ roots, Reach adjacency root node
  found_done : ∀ node, node ∈ state.found.flatten ↔ state.Done node
  found_nodup : state.found.flatten.Nodup
  found_ne_nil : ∀ component ∈ state.found, component ≠ []
  found_reach : ∀ component ∈ state.found, ∀ node ∈ component, ∀ other,
    other ∈ component ↔ Reach adjacency node other ∧ Reach adjacency other node

section Lower

variable {adjacency} {roots : List α} {state : Tarjan α} {work : List (α × Nat)}
  {pending : Option α}

theorem Tarjan.lowOf_lower (state : Tarjan α) {node : α} (value : Nat)
    (hnode : (state.low node).isSome) (other : α) :
    (state.lower node value).lowOf other =
      if other = node then min (state.lowOf node) value else state.lowOf other := by
  obtain ⟨low, hlow⟩ := Option.isSome_iff_exists.mp hnode
  unfold Tarjan.lowOf Tarjan.lower
  by_cases hother : other = node
  · subst hother
    simp [hlow]
  · simp [hother]

theorem Invariant.lower (h : Invariant adjacency roots state work pending) {node : α}
    (hnode : node ∈ state.stack) {lowest : α} (hlowest : lowest ∈ state.stack)
    (hreach : Reach adjacency node lowest) :
    Invariant adjacency roots (state.lower node (state.idx lowest)) work pending := by
  have hsome := h.low_some node (h.stack_seen node hnode)
  have hlow := state.lowOf_lower (state.idx lowest) hsome
  have hle : ∀ other, (state.lower node (state.idx lowest)).lowOf other ≤ state.lowOf other := by
    intro other
    rw [hlow]
    split_ifs with heq
    · rw [heq]
      exact min_le_left _ _
    · exact le_rfl
  exact { h with
    low_some := by
      intro other hother
      by_cases heq : other = node
      · subst heq
        simpa [Tarjan.lower] using hsome
      · simpa [Tarjan.lower, heq] using h.low_some other hother
    low_le := fun other hother => (hle other).trans (h.low_le other hother)
    low_reach := by
      intro other hother
      rw [hlow]
      split_ifs with heq
      · subst heq
        obtain hmin | hmin := min_choice (state.lowOf other) (state.idx lowest)
        · rw [hmin]
          exact h.low_reach other hother
        · rw [hmin]
          exact ⟨lowest, hlowest, rfl, hreach⟩
      · exact h.low_reach other hother
    low_lt := fun other hother hpath => (hle other).trans_lt (h.low_lt other hother hpath)
    examined_low := by
      intro below hbelow source hsource hidx target htarget hexamined
      obtain ⟨above, habove, habove', hlowest⟩ :=
        h.examined_low below hbelow source hsource hidx target htarget hexamined
      exact ⟨above, habove, habove', (hle above).trans hlowest⟩ }

end Lower

section Next

variable {adjacency} {roots : List α} {state : Tarjan α} {work : List (α × Nat)}
  {node child : α} {position : Nat}

theorem examined_next (hchild : (neighbours adjacency node)[position]? = some child)
    {source target : α}
    (h : Examined adjacency ((node, position + 1) :: work) source target) :
    Examined adjacency ((node, position) :: work) source target ∨
      source = node ∧ target = child := by
  by_cases hsource : source = node
  · subst hsource
    have htake := h.2 (position + 1) List.mem_cons_self
    rw [List.take_add_one, hchild, List.mem_append] at htake
    obtain htake | htarget := htake
    · refine .inl ⟨h.1, fun other hother => ?_⟩
      obtain heq | hother := List.mem_cons.mp hother
      · cases heq
        exact htake
      · exact h.2 other (List.mem_cons_of_mem _ hother)
    · exact .inr ⟨rfl, by simpa using htarget⟩
  · refine .inl ⟨h.1, fun other hother => ?_⟩
    obtain heq | hother := List.mem_cons.mp hother
    · cases heq
      exact absurd rfl hsource
    · exact h.2 other (List.mem_cons_of_mem _ hother)

theorem Invariant.next {pending : Option α}
    (h : Invariant adjacency roots state ((node, position) :: work) none)
    (hchild : (neighbours adjacency node)[position]? = some child)
    (hlow : child ∈ state.stack → state.lowOf node ≤ state.idx child)
    (hpending : pending = if (state.index child).isSome then none else some child) :
    Invariant adjacency roots state ((node, position + 1) :: work) pending := by
  have hnode : node ∈ state.stack := h.path_stack node List.mem_cons_self
  have hedge : Edge adjacency node child := List.mem_of_getElem? hchild
  exact { h with
    examined_seen := by
      intro source hsource target hexamined
      obtain hbefore | ⟨rfl, rfl⟩ := examined_next hchild hexamined
      · exact .inl ((h.examined_seen source hsource target hbefore).resolve_right nofun)
      · by_cases hseen : (state.index target).isSome
        · exact .inl hseen
        · exact .inr (by rw [hpending, if_neg hseen])
    examined_low := by
      intro below hbelow source hsource hidx target htarget hexamined
      obtain hbefore | ⟨rfl, rfl⟩ := examined_next hchild hexamined
      · exact h.examined_low below hbelow source hsource hidx target htarget hbefore
      · exact ⟨source, List.mem_cons_self, hidx, hlow htarget⟩
    pending_unseen := by
      intro other hother
      rw [hpending] at hother
      split_ifs at hother with hseen
      obtain rfl := Option.some.inj hother
      obtain ⟨root, hroot, hreach⟩ := h.seen_reach node (h.stack_seen node hnode)
      refine ⟨hseen, ⟨root, hroot, hreach.tail hedge⟩, fun below hbelow => ?_⟩
      obtain rfl | hbelow' := List.mem_cons.mp hbelow
      · exact .single hedge
      · have hidx := List.rel_of_pairwise_cons h.path_sorted hbelow'
        exact (h.path_reach below hbelow node hnode hidx.le).tail hedge }

end Next

section Open

variable {adjacency} {roots : List α} {state : Tarjan α} {work : List (α × Nat)} {node : α}

namespace Tarjan

@[simp] theorem idx_opened_self (state : Tarjan α) (node : α) :
    (state.opened node).idx node = state.counter := by simp [idx, opened]

theorem idx_opened_of_ne (state : Tarjan α) {node other : α} (h : other ≠ node) :
    (state.opened node).idx other = state.idx other := by simp [idx, opened, h]

@[simp] theorem lowOf_opened_self (state : Tarjan α) (node : α) :
    (state.opened node).lowOf node = state.counter := by simp [lowOf, opened]

theorem lowOf_opened_of_ne (state : Tarjan α) {node other : α} (h : other ≠ node) :
    (state.opened node).lowOf other = state.lowOf other := by simp [lowOf, opened, h]

theorem seen_opened (state : Tarjan α) (node other : α) :
    (state.opened node).Seen other ↔ other = node ∨ state.Seen other := by
  by_cases h : other = node <;> simp [Seen, opened, h]

theorem done_opened {state : Tarjan α} {node : α} (hnode : ¬ state.Seen node) (other : α) :
    (state.opened node).Done other ↔ state.Done other := by
  have hstack : other ∉ (state.opened node).stack ↔ other ≠ node ∧ other ∉ state.stack := by
    simp [opened]
  rw [Done, Done, seen_opened, hstack]
  by_cases h : other = node
  · simp [h, hnode]
  · simp [h]

end Tarjan

theorem examined_open {source target : α}
    (h : Examined adjacency ((node, 0) :: work) source target) :
    source ≠ node ∧ Examined adjacency work source target := by
  refine ⟨?_, h.1, fun position hposition => h.2 position (List.mem_cons_of_mem _ hposition)⟩
  rintro rfl
  simpa using h.2 0 List.mem_cons_self

theorem Invariant.open (h : Invariant adjacency roots state work (some node)) :
    Invariant adjacency roots (state.opened node) ((node, 0) :: work) none := by
  obtain ⟨hunseen, hroot, hbelow⟩ := h.pending_unseen node rfl
  have hne : ∀ {other}, other ∈ state.stack → other ≠ node := by
    rintro other hother rfl
    exact hunseen (h.stack_seen other hother)
  have hidx : ∀ {other}, other ∈ state.stack → (state.opened node).idx other = state.idx other :=
    fun hother => state.idx_opened_of_ne (hne hother)
  have hlow : ∀ {other}, other ∈ state.stack → (state.opened node).lowOf other = state.lowOf other :=
    fun hother => state.lowOf_opened_of_ne (hne hother)
  have hlt : ∀ {other}, other ∈ state.stack → state.idx other < state.counter :=
    fun hother => h.idx_lt _ (h.stack_seen _ hother)
  have hpath : ∀ {other}, other ∈ path work → other ∈ state.stack := h.path_stack _
  exact {
    idx_lt := by
      intro other hother
      by_cases heq : other = node
      · rw [heq, Tarjan.idx_opened_self]
        exact Nat.lt_succ_self _
      · have hseen := ((state.seen_opened node other).mp hother).resolve_left heq
        rw [state.idx_opened_of_ne heq]
        exact (h.idx_lt other hseen).trans (Nat.lt_succ_self _)
    low_some := by
      intro other hother
      by_cases heq : other = node
      · simp [Tarjan.opened, heq]
      · have hseen := ((state.seen_opened node other).mp hother).resolve_left heq
        simpa [Tarjan.opened, heq] using h.low_some other hseen
    onStack_iff := by
      intro other
      by_cases heq : other = node
      · simp [Tarjan.opened, heq]
      · simpa [Tarjan.opened, heq] using h.onStack_iff other
    stack_seen := by
      intro other hother
      refine (state.seen_opened node other).mpr ?_
      exact (List.mem_cons.mp hother).imp_right (h.stack_seen other)
    stack_sorted := by
      refine List.pairwise_cons.mpr ⟨fun below hother => ?_, ?_⟩
      · rw [hidx hother, Tarjan.idx_opened_self]
        exact hlt hother
      · refine h.stack_sorted.imp_of_mem fun habove hother hless => ?_
        rwa [hidx habove, hidx hother]
    path_stack := fun other hother =>
      List.mem_cons.mpr ((List.mem_cons.mp hother).imp_right (h.path_stack other))
    path_sorted := by
      refine List.pairwise_cons.mpr ⟨fun below hother => ?_, ?_⟩
      · rw [hidx (hpath hother), Tarjan.idx_opened_self]
        exact hlt (hpath hother)
      · refine h.path_sorted.imp_of_mem fun habove hother hless => ?_
        rwa [hidx (hpath habove), hidx (hpath hother)]
    covered := by
      intro other hother
      obtain rfl | hother := List.mem_cons.mp hother
      · exact ⟨other, List.mem_cons_self, le_rfl⟩
      · obtain ⟨below, hmem, hle⟩ := h.covered other hother
        refine ⟨below, List.mem_cons_of_mem _ hmem, ?_⟩
        rwa [hidx hother, hidx (hpath hmem)]
    path_reach := by
      intro below hmem above habove hle
      obtain rfl | habove' := List.mem_cons.mp habove
      · obtain rfl | hmem' := List.mem_cons.mp hmem
        · exact .refl
        · exact hbelow below hmem'
      · obtain rfl | hmem' := List.mem_cons.mp hmem
        · rw [hidx habove', Tarjan.idx_opened_self] at hle
          exact absurd (hlt habove') hle.not_gt
        · rw [hidx habove', hidx (hpath hmem')] at hle
          exact h.path_reach below hmem' above habove' hle
    done_closed := by
      intro source target hdone hedge
      rw [Tarjan.done_opened hunseen] at hdone ⊢
      exact h.done_closed source target hdone hedge
    low_le := by
      intro other hother
      obtain rfl | hother := List.mem_cons.mp hother
      · simp
      · rw [hlow hother, hidx hother]
        exact h.low_le other hother
    low_reach := by
      intro other hother
      obtain rfl | hother := List.mem_cons.mp hother
      · exact ⟨other, List.mem_cons_self, by simp, .refl⟩
      · obtain ⟨lowest, hmem, heq, hreach⟩ := h.low_reach other hother
        refine ⟨lowest, List.mem_cons_of_mem _ hmem, ?_, hreach⟩
        rwa [hlow hother, hidx hmem]
    low_lt := by
      intro other hother hpath'
      obtain ⟨hne', hnot⟩ := not_or.mp (mt List.mem_cons.mpr hpath')
      have hother := (List.mem_cons.mp hother).resolve_left hne'
      rw [hlow hother, hidx hother]
      exact h.low_lt other hother hnot
    examined_seen := by
      intro source hsource target hexamined
      obtain ⟨hsource', hexamined⟩ := examined_open hexamined
      have hsource := (List.mem_cons.mp hsource).resolve_left hsource'
      refine .inl ((state.seen_opened node target).mpr ?_)
      obtain hseen | hpending := h.examined_seen source hsource target hexamined
      · exact .inr hseen
      · exact .inl (Option.some.inj hpending).symm
    examined_low := by
      intro below hmem source hsource hle target htarget hexamined
      obtain ⟨hne', hexamined⟩ := examined_open hexamined
      have hsource' := (List.mem_cons.mp hsource).resolve_left hne'
      rw [hidx hsource'] at hle
      obtain rfl | hmem' := List.mem_cons.mp hmem
      · rw [Tarjan.idx_opened_self] at hle
        exact absurd (hlt hsource') hle.not_gt
      rw [hidx (hpath hmem')] at hle
      obtain rfl | htarget' := List.mem_cons.mp htarget
      · -- The new node has a larger index than the source, which bounds the low link.
        refine ⟨below, List.mem_cons_of_mem _ hmem', le_rfl, ?_⟩
        rw [hlow (hpath hmem'), Tarjan.idx_opened_self]
        exact ((h.low_le below (hpath hmem')).trans hle).trans (hlt hsource').le
      · obtain ⟨above, habove, hle', hlow'⟩ :=
          h.examined_low below hmem' source hsource' hle target htarget' hexamined
        refine ⟨above, List.mem_cons_of_mem _ habove, ?_, ?_⟩
        · rwa [hidx (hpath hmem'), hidx (hpath habove)]
        · rwa [hlow (hpath habove), hidx htarget']
    pending_unseen := nofun
    seen_reach := by
      intro other hother
      obtain rfl | hseen := (state.seen_opened node other).mp hother
      · exact hroot
      · exact h.seen_reach other hseen
    found_done := fun other => (h.found_done other).trans (Tarjan.done_opened hunseen other).symm
    found_nodup := h.found_nodup
    found_ne_nil := h.found_ne_nil
    found_reach := h.found_reach }

end Open

section Close

variable {adjacency} {roots : List α} {state : Tarjan α} {work : List (α × Nat)} {node : α}
  {position : Nat} (h : Invariant adjacency roots state ((node, position) :: work) none)
  (hend : (neighbours adjacency node)[position]? = none)

include h

theorem Invariant.node_mem : node ∈ state.stack := h.path_stack node List.mem_cons_self

theorem Invariant.idx_path_lt {below : α} (hbelow : below ∈ path work) :
    state.idx below < state.idx node := List.rel_of_pairwise_cons h.path_sorted hbelow

theorem Invariant.mem_path_of_entry {other : α} {entry : Nat} (hentry : (other, entry) ∈ work) :
    state.idx other < state.idx node :=
  h.idx_path_lt (List.mem_map.mpr ⟨(other, entry), hentry, rfl⟩)

include hend

theorem Invariant.above_examined {source target : α} (hidx : state.idx node ≤ state.idx source)
    (hedge : Edge adjacency source target) :
    Examined adjacency ((node, position) :: work) source target := by
  refine ⟨hedge, fun entry hentry => ?_⟩
  obtain heq | hentry := List.mem_cons.mp hentry
  · cases heq
    rwa [List.take_of_length_le (List.getElem?_eq_none_iff.mp hend)]
  · exact absurd (h.mem_path_of_entry hentry) hidx.not_gt

theorem Invariant.above_closed (hroot : state.lowOf node = state.idx node) {source target : α}
    (hsource : source ∈ state.stack) (hidx : state.idx node ≤ state.idx source)
    (hedge : Edge adjacency source target) :
    (target ∈ state.stack ∧ state.idx node ≤ state.idx target) ∨ state.Done target := by
  have hexamined := h.above_examined hend hidx hedge
  have hseen := (h.examined_seen source hsource target hexamined).resolve_right nofun
  by_cases htarget : target ∈ state.stack
  · obtain ⟨above, habove, hle, hlow⟩ :=
      h.examined_low node List.mem_cons_self source hsource hidx target htarget hexamined
    obtain rfl | hbelow := List.mem_cons.mp habove
    · exact .inl ⟨htarget, hroot ▸ hlow⟩
    · exact absurd (h.idx_path_lt hbelow) hle.not_gt
  · exact .inr ⟨hseen, htarget⟩

omit hend in
theorem Invariant.done_reach {source target : α} (hsource : state.Done source)
    (hreach : Reach adjacency source target) : state.Done target := by
  induction hreach with
  | refl => exact hsource
  | tail _ hedge ih => exact h.done_closed _ _ ih hedge

theorem Invariant.above_reach (hroot : state.lowOf node = state.idx node) {source target : α}
    (hsource : source ∈ state.stack) (hidx : state.idx node ≤ state.idx source)
    (hreach : Reach adjacency source target) :
    (target ∈ state.stack ∧ state.idx node ≤ state.idx target) ∨ state.Done target := by
  induction hreach with
  | refl => exact .inl ⟨hsource, hidx⟩
  | tail _ hedge ih =>
    obtain ⟨hmem, hle⟩ | hdone := ih
    · exact h.above_closed hend hroot hmem hle hedge
    · exact .inr (h.done_closed _ _ hdone hedge)

theorem Invariant.reach_root (hroot : state.lowOf node = state.idx node) {source : α}
    (hsource : source ∈ state.stack) (hidx : state.idx node ≤ state.idx source) :
    Reach adjacency source node := by
  induction hlevel : state.idx source using Nat.strong_induction_on generalizing source with
  | _ level ih =>
    by_cases heq : source = node
    · rw [heq]
      exact .refl
    · have hpath : source ∉ path ((node, position) :: work) := by
        intro hmem
        obtain rfl | hmem := List.mem_cons.mp hmem
        · exact heq rfl
        · exact (h.idx_path_lt hmem).not_ge hidx
      have hlt := h.low_lt source hsource hpath
      obtain ⟨lowest, hlowest, hlow, hreach⟩ := h.low_reach source hsource
      obtain ⟨-, hle⟩ | hdone := h.above_reach hend hroot hsource hidx hreach
      · exact hreach.trans (ih _ (by omega) hlowest hle rfl)
      · exact absurd hlowest hdone.2

theorem Invariant.component_iff (hroot : state.lowOf node = state.idx node) {member : α}
    (hmember : member ∈ state.stack) (hidx : state.idx node ≤ state.idx member) (other : α) :
    (other ∈ state.stack ∧ state.idx node ≤ state.idx other) ↔
      Reach adjacency member other ∧ Reach adjacency other member := by
  have hto {other : α} (hother : other ∈ state.stack) (hle : state.idx node ≤ state.idx other) :=
    h.reach_root hend hroot hother hle
  have hfrom {other : α} (hother : other ∈ state.stack) (hle : state.idx node ≤ state.idx other) :=
    h.path_reach node List.mem_cons_self other hother hle
  constructor
  · rintro ⟨hother, hle⟩
    exact ⟨(hto hmember hidx).trans (hfrom hother hle), (hto hother hle).trans (hfrom hmember hidx)⟩
  · rintro ⟨hthere, hback⟩
    obtain habove | hdone := h.above_reach hend hroot hmember hidx hthere
    · exact habove
    · exact absurd hmember (h.done_reach hdone hback).2

end Close

section Pop

variable {adjacency} {roots : List α} {state : Tarjan α} {work : List (α × Nat)} {node : α}
  {position : Nat}

theorem examined_pop (hend : (neighbours adjacency node)[position]? = none) {source target : α}
    (h : Examined adjacency work source target) :
    Examined adjacency ((node, position) :: work) source target := by
  refine ⟨h.1, fun entry hentry => ?_⟩
  obtain heq | hentry := List.mem_cons.mp hentry
  · cases heq
    rw [List.take_of_length_le (List.getElem?_eq_none_iff.mp hend)]
    exact h.1
  · exact h.2 entry hentry

theorem Invariant.pop {parent : α × Nat}
    (h : Invariant adjacency roots state ((node, position) :: parent :: work) none)
    (hend : (neighbours adjacency node)[position]? = none)
    (hlow : state.lowOf node < state.idx node)
    (hparent : state.lowOf parent.1 ≤ state.lowOf node) :
    Invariant adjacency roots state (parent :: work) none := by
  have hpath {other : α} (hother : other ∈ path (parent :: work)) :
      other ∈ path ((node, position) :: parent :: work) := List.mem_cons_of_mem _ hother
  have hhead : parent.1 ∈ path (parent :: work) := List.mem_cons_self
  exact { h with
    path_stack := fun other hother => h.path_stack other (hpath hother)
    path_sorted := h.path_sorted.of_cons
    covered := by
      intro other hother
      obtain ⟨below, hbelow, hle⟩ := h.covered other hother
      obtain rfl | hbelow := List.mem_cons.mp hbelow
      · exact ⟨parent.1, hhead, (h.idx_path_lt hhead).le.trans hle⟩
      · exact ⟨below, hbelow, hle⟩
    path_reach := fun below hbelow => h.path_reach below (hpath hbelow)
    low_lt := by
      intro other hother hnot
      by_cases heq : other = node
      · rwa [heq]
      · refine h.low_lt other hother fun hmem => ?_
        exact (List.mem_cons.mp hmem).elim heq hnot
    examined_seen := fun source hsource target hexamined =>
      h.examined_seen source hsource target (examined_pop hend hexamined)
    examined_low := by
      intro below hbelow source hsource hle target htarget hexamined
      obtain ⟨above, habove, hle', hlow'⟩ := h.examined_low below (hpath hbelow) source hsource hle
        target htarget (examined_pop hend hexamined)
      obtain rfl | habove := List.mem_cons.mp habove
      · refine ⟨parent.1, hhead, ?_, hparent.trans hlow'⟩
        obtain rfl | hbelow := List.mem_cons.mp hbelow
        · exact le_rfl
        · exact (List.rel_of_pairwise_cons h.path_sorted.of_cons hbelow).le
      · exact ⟨above, habove, hle', hlow'⟩
    pending_unseen := nofun }

theorem popTo_append (node : α) (stack : List α) :
    (Tarjan.popTo node stack).1 ++ (Tarjan.popTo node stack).2 = stack := by
  induction stack with
  | nil => rfl
  | cons member stack ih =>
    unfold Tarjan.popTo
    split_ifs
    · rfl
    · simpa using ih

/-- On a stack with falling indices, the nodes that are popped are those from the node on up. -/
theorem popTo_spec {idx : α → Nat} {stack : List α}
    (hsorted : stack.Pairwise fun above below => idx below < idx above) (hnode : node ∈ stack) :
    (∀ member ∈ (Tarjan.popTo node stack).1, idx node ≤ idx member) ∧
      node ∈ (Tarjan.popTo node stack).1 ∧
      ∀ other ∈ (Tarjan.popTo node stack).2, idx other < idx node := by
  induction stack with
  | nil => cases hnode
  | cons member stack ih =>
    obtain ⟨hmember, hstack⟩ := List.pairwise_cons.mp hsorted
    unfold Tarjan.popTo
    split_ifs with heq
    · subst heq
      exact ⟨by simp, by simp, hmember⟩
    · have hnode' := (List.mem_cons.mp hnode).resolve_left (Ne.symm heq)
      obtain ⟨habove, hmem, hbelow⟩ := ih hstack hnode'
      refine ⟨List.forall_mem_cons.mpr ⟨(hmember node hnode').le, habove⟩, ?_, hbelow⟩
      exact List.mem_cons_of_mem _ hmem

variable (h : Invariant adjacency roots state ((node, position) :: work) none)

include h

theorem Invariant.mem_members (member : α) :
    member ∈ (Tarjan.popTo node state.stack).1 ↔
      member ∈ state.stack ∧ state.idx node ≤ state.idx member := by
  obtain ⟨habove, -, hbelow⟩ := popTo_spec h.stack_sorted h.node_mem
  constructor
  · intro hmember
    refine ⟨?_, habove member hmember⟩
    rw [← popTo_append node state.stack]
    exact List.mem_append_left _ hmember
  · rintro ⟨hmember, hle⟩
    rw [← popTo_append node state.stack, List.mem_append] at hmember
    exact hmember.resolve_right fun hrest => (hbelow member hrest).not_ge hle

theorem Invariant.mem_rest (other : α) :
    other ∈ (Tarjan.popTo node state.stack).2 ↔
      other ∈ state.stack ∧ state.idx other < state.idx node := by
  obtain ⟨habove, -, hbelow⟩ := popTo_spec h.stack_sorted h.node_mem
  constructor
  · intro hother
    refine ⟨?_, hbelow other hother⟩
    rw [← popTo_append node state.stack]
    exact List.mem_append_right _ hother
  · rintro ⟨hother, hlt⟩
    rw [← popTo_append node state.stack, List.mem_append] at hother
    exact hother.resolve_left fun hmember => (habove other hmember).not_gt hlt

/-- The state after the component of a root was popped. -/
theorem Invariant.close_eq (hroot : state.lowOf node = state.idx node) :
    state.close node =
      { state with
        stack := (Tarjan.popTo node state.stack).2
        onStack := fun other =>
          state.onStack other && !(Tarjan.popTo node state.stack).1.contains other
        found := state.found ++ [(Tarjan.popTo node state.stack).1.mergeSort (· ≤ ·)] } := by
  have hseen := h.stack_seen node h.node_mem
  obtain ⟨index, hindex⟩ := Option.isSome_iff_exists.mp hseen
  obtain ⟨low, hlow⟩ := Option.isSome_iff_exists.mp (h.low_some node hseen)
  have heq : state.low node = state.index node := by
    simp only [Tarjan.lowOf, Tarjan.idx, hindex, hlow, Option.getD_some] at hroot
    rw [hindex, hlow, hroot]
  rw [Tarjan.close, if_neg (not_not.mpr heq)]

theorem Invariant.done_close (hroot : state.lowOf node = state.idx node) (other : α) :
    (state.close node).Done other ↔
      state.Done other ∨ other ∈ (Tarjan.popTo node state.stack).1 := by
  rw [h.close_eq hroot]
  have hseen : Tarjan.Seen { state with
      stack := (Tarjan.popTo node state.stack).2
      onStack := fun other =>
        state.onStack other && !(Tarjan.popTo node state.stack).1.contains other
      found := state.found ++ [(Tarjan.popTo node state.stack).1.mergeSort (· ≤ ·)] } other ↔
        state.Seen other := Iff.rfl
  rw [Tarjan.Done, hseen, h.mem_rest, h.mem_members, Tarjan.Done]
  by_cases hmem : other ∈ state.stack
  · simp [hmem, h.stack_seen other hmem]
  · simp [hmem]

/-- A root takes its component off the stack. -/
theorem Invariant.close_root (hend : (neighbours adjacency node)[position]? = none)
    (hroot : state.lowOf node = state.idx node) :
    Invariant adjacency roots (state.close node) work none := by
  have hdone := h.done_close hroot
  have hmembers := h.mem_members
  have hrest := h.mem_rest
  have hnodup : (Tarjan.popTo node state.stack).1.Nodup := by
    have hstack : state.stack.Nodup := h.stack_sorted.imp fun hlt heq => by simp [heq] at hlt
    rw [← popTo_append node state.stack] at hstack
    exact (List.nodup_append.mp hstack).1
  have hsorted : (Tarjan.popTo node state.stack).2.Pairwise
      fun above below => state.idx below < state.idx above := by
    have hstack := h.stack_sorted
    rw [← popTo_append node state.stack] at hstack
    exact (List.pairwise_append.mp hstack).2.1
  have hpath {other : α} (hother : other ∈ path work) :
      other ∈ path ((node, position) :: work) := List.mem_cons_of_mem _ hother
  rw [h.close_eq hroot] at hdone ⊢
  exact {
    idx_lt := h.idx_lt
    low_some := h.low_some
    onStack_iff := by
      intro other
      simp only [Bool.and_eq_true, h.onStack_iff, Bool.not_eq_true', List.contains_eq_mem,
        decide_eq_false_iff_not, hmembers, hrest, not_and, not_le]
      exact ⟨fun hboth => ⟨hboth.1, hboth.2 hboth.1⟩, fun hboth => ⟨hboth.1, fun _ => hboth.2⟩⟩
    stack_seen := fun other hother => h.stack_seen other ((hrest other).mp hother).1
    stack_sorted := hsorted
    path_stack := fun other hother =>
      (hrest other).mpr ⟨h.path_stack other (hpath hother), h.idx_path_lt hother⟩
    path_sorted := h.path_sorted.of_cons
    covered := by
      intro other hother
      obtain ⟨hmem, hlt⟩ := (hrest other).mp hother
      obtain ⟨below, hbelow, hle⟩ := h.covered other hmem
      obtain rfl | hbelow := List.mem_cons.mp hbelow
      · exact absurd hle hlt.not_ge
      · exact ⟨below, hbelow, hle⟩
    path_reach := fun below hbelow above habove =>
      h.path_reach below (hpath hbelow) above ((hrest above).mp habove).1
    done_closed := by
      intro source target hsource hedge
      rw [hdone] at hsource ⊢
      obtain hsource | hsource := hsource
      · exact .inl (h.done_closed source target hsource hedge)
      · obtain ⟨hmem, hle⟩ := (hmembers source).mp hsource
        exact (h.above_closed hend hroot hmem hle hedge).symm.imp_right (hmembers target).mpr
    low_le := fun other hother => h.low_le other ((hrest other).mp hother).1
    low_reach := by
      intro other hother
      obtain ⟨hmem, hlt⟩ := (hrest other).mp hother
      obtain ⟨lowest, hlowest, heq, hreach⟩ := h.low_reach other hmem
      have hle := h.low_le other hmem
      exact ⟨lowest, (hrest lowest).mpr ⟨hlowest, by omega⟩, heq, hreach⟩
    low_lt := by
      intro other hother hnot
      obtain ⟨hmem, hlt⟩ := (hrest other).mp hother
      refine h.low_lt other hmem fun hmem' => ?_
      obtain rfl | hmem' := List.mem_cons.mp hmem'
      · exact hlt.ne rfl
      · exact hnot hmem'
    examined_seen := fun source hsource target hexamined =>
      h.examined_seen source ((hrest source).mp hsource).1 target (examined_pop hend hexamined)
    examined_low := by
      intro below hbelow source hsource hle target htarget hexamined
      obtain ⟨htarget, hlt⟩ := (hrest target).mp htarget
      obtain ⟨above, habove, hle', hlow⟩ := h.examined_low below (hpath hbelow) source
        ((hrest source).mp hsource).1 hle target htarget (examined_pop hend hexamined)
      obtain rfl | habove := List.mem_cons.mp habove
      · exact absurd hlow (hroot ▸ hlt.not_ge)
      · exact ⟨above, habove, hle', hlow⟩
    pending_unseen := nofun
    seen_reach := h.seen_reach
    found_done := by
      intro other
      rw [hdone, ← h.found_done]
      simp
    found_nodup := by
      rw [List.flatten_append, List.nodup_append]
      refine ⟨h.found_nodup, by simpa using hnodup, ?_⟩
      rintro first hfirst _ hsecond rfl
      have hmember : first ∈ (Tarjan.popTo node state.stack).1 := by simpa using hsecond
      exact ((h.found_done first).mp hfirst).2 ((hmembers first).mp hmember).1
    found_ne_nil := by
      intro component hcomponent
      obtain hcomponent | hcomponent := List.mem_append.mp hcomponent
      · exact h.found_ne_nil component hcomponent
      · rw [List.mem_singleton.mp hcomponent]
        refine List.ne_nil_of_mem (a := node) ?_
        exact List.mem_mergeSort.mpr ((hmembers node).mpr ⟨h.node_mem, le_rfl⟩)
    found_reach := by
      intro component hcomponent member hmember other
      obtain hcomponent | hcomponent := List.mem_append.mp hcomponent
      · exact h.found_reach component hcomponent member hmember other
      · rw [List.mem_singleton.mp hcomponent, List.mem_mergeSort] at hmember ⊢
        obtain ⟨hmem, hle⟩ := (hmembers member).mp hmember
        exact (hmembers other).trans (h.component_iff hend hroot hmem hle other) }

end Pop

/-! ## The loop -/

section Loop

variable {adjacency} {roots : List α} {state : Tarjan α} {work : List (α × Nat)} {node : α}
  {position : Nat}

variable (adjacency roots) in
/-- The loop's states: the node on top of the work stack is about to be opened, or all are open. -/
def AtLoop (state : Tarjan α) (work : List (α × Nat)) : Prop :=
  (∃ node rest, work = (node, 0) :: rest ∧ Invariant adjacency roots state rest (some node) ∧
    ∀ entry ∈ rest, entry.2 ≠ 0) ∨
  (Invariant adjacency roots state work none ∧ ∀ entry ∈ work, entry.2 ≠ 0)

theorem AtLoop.open (h : AtLoop adjacency roots state ((node, position) :: work)) :
    Invariant adjacency roots (if position = 0 then state.opened node else state)
      ((node, position) :: work) none ∧ ∀ entry ∈ work, entry.2 ≠ 0 := by
  obtain ⟨node', rest, heq, hinvariant, hrest⟩ | ⟨hinvariant, hopen⟩ := h
  · cases heq
    exact ⟨hinvariant.open, hrest⟩
  · obtain ⟨htop, hwork⟩ := List.forall_mem_cons.mp hopen
    rw [if_neg htop]
    exact ⟨hinvariant, hwork⟩

theorem Invariant.advance (h : Invariant adjacency roots state ((node, position) :: work) none)
    (hwork : ∀ entry ∈ work, entry.2 ≠ 0) {child : α}
    (hchild : (neighbours adjacency node)[position]? = some child) :
    AtLoop adjacency roots (state.advance node child ((node, position + 1) :: work)).1
      (state.advance node child ((node, position + 1) :: work)).2 := by
  have hnext : ∀ entry ∈ (node, position + 1) :: work, entry.2 ≠ 0 :=
    List.forall_mem_cons.mpr ⟨Nat.succ_ne_zero position, hwork⟩
  unfold Tarjan.advance
  cases hindex : state.index child with
  | none =>
    have hunseen : child ∉ state.stack := fun hmem => by
      have hseen := h.stack_seen child hmem
      simp [Tarjan.Seen, hindex] at hseen
    refine .inl ⟨child, _, rfl, h.next hchild (fun hmem => absurd hmem hunseen) ?_, hnext⟩
    simp [hindex]
  | some index =>
    dsimp only
    refine .inr ⟨?_, hnext⟩
    split_ifs with hstack
    · have hmem := (h.onStack_iff child).mp hstack
      have hidx : index = state.idx child := by simp [Tarjan.idx, hindex]
      have hreach : Reach adjacency node child := .single (List.mem_of_getElem? hchild)
      have hsome := h.low_some node (h.stack_seen node h.node_mem)
      rw [hidx]
      refine (h.lower h.node_mem hmem hreach).next hchild (fun _ => ?_) (by simp [hindex])
      rw [state.lowOf_lower _ hsome, if_pos rfl]
      exact min_le_right _ _
    · refine h.next hchild (fun hmem => ?_) (by simp [hindex])
      exact absurd ((h.onStack_iff child).mpr hmem) hstack

theorem Tarjan.lower_of_le {state : Tarjan α} {parent : α} {value : Nat}
    (hparent : (state.low parent).isSome) (hle : state.lowOf parent ≤ value) :
    state.lower parent value = state := by
  obtain ⟨low, hlow⟩ := Option.isSome_iff_exists.mp hparent
  have hmin : min low value = low := by
    rw [Tarjan.lowOf, hlow, Option.getD_some] at hle
    exact min_eq_left hle
  have hupdate : Function.update state.low parent ((state.low parent).map (min · value)) =
      state.low := by
    rw [hlow, Option.map_some, hmin, ← hlow, Function.update_eq_self]
  rw [Tarjan.lower, hupdate]

theorem Tarjan.lowerParent_cons {state : Tarjan α} (hnode : (state.low node).isSome)
    (parent : α × Nat) (work : List (α × Nat)) :
    state.lowerParent node (parent :: work) = state.lower parent.1 (state.lowOf node) := by
  obtain ⟨low, hlow⟩ := Option.isSome_iff_exists.mp hnode
  simp [Tarjan.lowerParent, Tarjan.lowOf, hlow]

theorem Invariant.close (h : Invariant adjacency roots state ((node, position) :: work) none)
    (hend : (neighbours adjacency node)[position]? = none) :
    Invariant adjacency roots ((state.close node).lowerParent node work) work none := by
  have hsome := h.low_some node (h.stack_seen node h.node_mem)
  by_cases hroot : state.lowOf node = state.idx node
  · have hclosed := h.close_root hend hroot
    have hlow : (state.close node).low = state.low := by rw [h.close_eq hroot]
    have hlowOf : (state.close node).lowOf = state.lowOf := by
      funext other
      rw [Tarjan.lowOf, hlow, Tarjan.lowOf]
    cases work with
    | nil => exact hclosed
    | cons parent work =>
      -- The parent's low link is below the root's, so it stays.
      have hmem : parent.1 ∈ state.stack := h.path_stack _ (List.mem_cons_of_mem _ List.mem_cons_self)
      have hparent := h.low_some parent.1 (h.stack_seen _ hmem)
      have hlt := h.idx_path_lt (List.mem_cons_self : parent.1 ∈ path (parent :: work))
      have hle := h.low_le parent.1 hmem
      rw [Tarjan.lowerParent_cons (by rwa [hlow]), Tarjan.lower_of_le (by rwa [hlow])]
      · exact hclosed
      · rw [hlowOf]
        omega
  · have hlt : state.lowOf node < state.idx node :=
      (h.low_le node h.node_mem).lt_of_ne hroot
    have hclose : state.close node = state := by
      rw [Tarjan.close, if_pos]
      intro heq
      exact hroot (by rw [Tarjan.lowOf, Tarjan.idx, heq])
    obtain ⟨lowest, hlowest, hidx, hreach⟩ := h.low_reach node h.node_mem
    cases work with
    | nil =>
      obtain ⟨below, hbelow, hle⟩ := h.covered lowest hlowest
      rw [List.mem_singleton.mp hbelow] at hle
      exact absurd hlt (hidx ▸ hle).not_gt
    | cons parent work =>
      have hpath : parent.1 ∈ path (parent :: work) := List.mem_cons_self
      have hmem : parent.1 ∈ state.stack := h.path_stack _ (List.mem_cons_of_mem _ hpath)
      have hidx' := h.idx_path_lt hpath
      have hne : node ≠ parent.1 := by
        rintro heq
        rw [← heq] at hidx'
        exact hidx'.ne rfl
      have hthrough : Reach adjacency parent.1 lowest :=
        (h.path_reach _ (List.mem_cons_of_mem _ hpath) node h.node_mem hidx'.le).trans hreach
      have hparent := h.low_some parent.1 (h.stack_seen _ hmem)
      have hlow := state.lowOf_lower (state.lowOf node) hparent
      rw [hclose, Tarjan.lowerParent_cons hsome]
      have hlowered := h.lower hmem hlowest hthrough
      rw [hidx] at hlowered
      refine hlowered.pop hend ?_ ?_
      · rw [hlow, if_neg hne]
        exact hlt
      · rw [hlow, hlow, if_pos rfl, if_neg hne]
        exact min_le_right _ _

theorem AtLoop.walkStep (h : AtLoop adjacency roots state ((node, position) :: work)) :
    AtLoop adjacency roots (Tarjan.walkStep adjacency state node position work).1
      (Tarjan.walkStep adjacency state node position work).2 := by
  obtain ⟨hopen, hwork⟩ := h.open
  unfold Tarjan.walkStep
  dsimp only
  cases hchild : (neighbours adjacency node)[position]? with
  | some child => exact hopen.advance hwork hchild
  | none => exact .inr ⟨hopen.close hchild, hwork⟩

/-- The search ends with nothing on the stacks. -/
theorem AtLoop.walk (h : AtLoop adjacency roots state work) :
    Invariant adjacency roots (Tarjan.walk adjacency state work) [] none := by
  fun_induction Tarjan.walk adjacency state work with
  | case1 state =>
    obtain ⟨_, _, heq, -⟩ | ⟨hinvariant, -⟩ := h
    · cases heq
    · exact hinvariant
  | case2 state node position work _ ih => exact ih h.walkStep

theorem Invariant.stack_eq_nil (h : Invariant adjacency roots state [] none) : state.stack = [] := by
  refine List.eq_nil_iff_forall_not_mem.mpr fun other hother => ?_
  obtain ⟨below, hbelow, -⟩ := h.covered other hother
  cases hbelow

theorem invariant_empty : Invariant adjacency roots ({} : Tarjan α) [] none where
  idx_lt := nofun
  low_some := nofun
  onStack_iff := by simp
  stack_seen := nofun
  stack_sorted := .nil
  path_stack := nofun
  path_sorted := .nil
  covered := nofun
  path_reach := nofun
  done_closed := fun _ _ hdone => nomatch hdone.1
  low_le := nofun
  low_reach := nofun
  low_lt := nofun
  examined_seen := nofun
  examined_low := nofun
  pending_unseen := nofun
  seen_reach := nofun
  found_done := fun _ => ⟨nofun, fun hdone => nomatch hdone.1⟩
  found_nodup := .nil
  found_ne_nil := nofun
  found_reach := nofun

theorem Invariant.start (h : Invariant adjacency roots state [] none) {start : α}
    (hroot : start ∈ roots) (hunseen : ¬ state.Seen start) :
    AtLoop adjacency roots state [(start, 0)] := by
  refine .inl ⟨start, [], rfl, ?_, nofun⟩
  exact { h with
    examined_seen := fun source hsource => by simp [h.stack_eq_nil] at hsource
    pending_unseen := by
      intro node hnode
      obtain rfl := Option.some.inj hnode
      exact ⟨hunseen, ⟨start, hroot, .refl⟩, nofun⟩ }

theorem seen_walkStep {other : α} (hother : state.Seen other ∨ position = 0 ∧ other = node) :
    (Tarjan.walkStep adjacency state node position work).1.Seen other := by
  rw [Tarjan.Seen, Tarjan.walkStep_index]
  split_ifs with hposition
  · by_cases heq : other = node
    · simp [heq]
    · rw [Function.update_of_ne heq]
      exact hother.resolve_right fun hboth => heq hboth.2
  · exact hother.resolve_right fun hboth => hposition hboth.1

theorem seen_walk {other : α} (hother : state.Seen other) :
    (Tarjan.walk adjacency state work).Seen other := by
  fun_induction Tarjan.walk adjacency state work with
  | case1 => exact hother
  | case2 state node position work _ ih => exact ih (seen_walkStep (.inl hother))

theorem seen_walkFrom {start other : α} (hother : state.Seen other ∨ other = start) :
    (Tarjan.walkFrom adjacency state start).Seen other := by
  unfold Tarjan.walkFrom
  split_ifs with hunseen
  · rw [Tarjan.walk]
    exact seen_walk (seen_walkStep (hother.imp_right fun heq => ⟨rfl, heq⟩))
  · obtain hother | rfl := hother
    · exact hother
    · simpa [Tarjan.Seen, Option.isSome_iff_ne_none] using hunseen

theorem Invariant.walkFrom (h : Invariant adjacency roots state [] none) {start : α}
    (hroot : start ∈ roots) :
    Invariant adjacency roots (Tarjan.walkFrom adjacency state start) [] none := by
  unfold Tarjan.walkFrom
  split_ifs with hunseen
  · refine (h.start hroot ?_).walk
    simpa [Tarjan.Seen] using hunseen
  · exact h

theorem Invariant.foldl (h : Invariant adjacency roots state [] none) {nodes : List α}
    (hnodes : ∀ start ∈ nodes, start ∈ roots) :
    Invariant adjacency roots (nodes.foldl (Tarjan.walkFrom adjacency) state) [] none ∧
      ∀ other, state.Seen other ∨ other ∈ nodes →
        (nodes.foldl (Tarjan.walkFrom adjacency) state).Seen other := by
  induction nodes generalizing state with
  | nil => exact ⟨h, fun other hother => hother.resolve_right nofun⟩
  | cons start nodes ih =>
    obtain ⟨hstart, hmore⟩ := List.forall_mem_cons.mp hnodes
    obtain ⟨hinvariant, hseen⟩ := ih (h.walkFrom hstart) hmore
    refine ⟨hinvariant, fun other hother => hseen other ?_⟩
    rw [List.mem_cons, ← or_assoc] at hother
    exact hother.imp_left seen_walkFrom

end Loop

/-- What the search proves of its components. -/
theorem components_spec (nodes : List α) :
    (components nodes adjacency).flatten.Nodup ∧
      (∀ node, node ∈ (components nodes adjacency).flatten ↔
        ∃ root ∈ nodes, Reach adjacency root node) ∧
      (∀ component ∈ components nodes adjacency, component ≠ []) ∧
      ∀ component ∈ components nodes adjacency, ∀ node ∈ component, ∀ other,
        other ∈ component ↔ Reach adjacency node other ∧ Reach adjacency other node := by
  have hempty : Invariant adjacency nodes ({} : Tarjan α) [] none := invariant_empty
  obtain ⟨h, hseen⟩ := hempty.foldl fun _ hstart => hstart
  refine ⟨h.found_nodup, fun node => (h.found_done node).trans ⟨?_, ?_⟩, h.found_ne_nil,
    h.found_reach⟩
  · exact fun hnode => h.seen_reach node hnode.1
  · rintro ⟨root, hroot, hreach⟩
    induction hreach with
    | refl => exact ⟨hseen root (.inr hroot), by simp [h.stack_eq_nil]⟩
    | tail _ hedge ih => exact h.done_closed _ _ ih hedge

/-- The components hold every node that the given ones reach exactly once, and two nodes share a
component exactly when each reaches the other. -/
theorem components_strongly_connected (nodes : List α) :
    (components nodes adjacency).flatten.Nodup ∧
      (∀ node ∈ nodes, ∃! component, component ∈ components nodes adjacency ∧ node ∈ component) ∧
      (∀ node, node ∈ (components nodes adjacency).flatten ↔
        ∃ root ∈ nodes, Reach adjacency root node) ∧
      ∀ first ∈ (components nodes adjacency).flatten,
        ∀ second ∈ (components nodes adjacency).flatten,
          (∃ component ∈ components nodes adjacency, first ∈ component ∧ second ∈ component) ↔
            Reach adjacency first second ∧ Reach adjacency second first := by
  obtain ⟨hnodup, hmem, -, hclass⟩ := components_spec adjacency nodes
  refine ⟨hnodup, fun node hnode => ?_, hmem, fun first hfirst second _ => ?_⟩
  · obtain ⟨component, hcomponent, hnode'⟩ :=
      List.mem_flatten.mp ((hmem node).mpr ⟨node, hnode, .refl⟩)
    refine ⟨component, ⟨hcomponent, hnode'⟩, fun other ⟨hother, hnode''⟩ => ?_⟩
    by_contra hne
    have hdisjoint := (List.nodup_flatten.mp hnodup).2
    have : Std.Symm (List.Disjoint : List α → List α → Prop) := ⟨fun _ _ => List.Disjoint.symm⟩
    exact hdisjoint.forall hother hcomponent hne hnode'' hnode'
  · obtain ⟨component, hcomponent, hfirst'⟩ := List.mem_flatten.mp hfirst
    constructor
    · rintro ⟨other, hother, hfirst'', hsecond⟩
      exact (hclass other hother first hfirst'' second).mp hsecond
    · exact fun hreach =>
        ⟨component, hcomponent, hfirst', (hclass component hcomponent first hfirst' second).mpr hreach⟩

end Agentless.Graph
