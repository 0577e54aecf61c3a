import Agentless.Syntax.Flat

/-!
# The table is the tree

The walk of the cursor gives the preorder of the tree, with every parent and every subtree's end, or
refuses a tree that its indices cannot count. The navigation by the table is the tree's own.
-/

namespace Agentless.Syntax

open OrderedTree

/-! ## The preorder of a tree -/

def NodeData.record (data : NodeData) (parent subtreeEnd : Nat) : Record where
  start := data.start
  stop := data.stop
  parent := parent
  subtreeEnd := subtreeEnd
  kind := data.kind
  field := data.field
  flags := data.flags

mutual

/-- The records of a tree whose root has the index `start`. -/
def flatten (parent start : Nat) : OrderedTree NodeData → List Record
  | .node data children =>
    data.record parent (start + 1 + sizes children) :: flattenAll start (start + 1) children

def flattenAll (parent start : Nat) : List (OrderedTree NodeData) → List Record
  | [] => []
  | tree :: trees => flatten parent start tree ++ flattenAll parent (start + tree.size) trees

end

/-- The offsets of a node are in the range of the table. -/
def NodeData.Fits (data : NodeData) : Prop := data.start ≤ maxIndex ∧ data.stop ≤ maxIndex

instance (data : NodeData) : Decidable data.Fits :=
  inferInstanceAs (Decidable (data.start ≤ maxIndex ∧ data.stop ≤ maxIndex))

mutual

/-- All offsets are in the range of the table. -/
def Fits : OrderedTree NodeData → Prop
  | .node data children => data.Fits ∧ FitsAll children

def FitsAll : List (OrderedTree NodeData) → Prop
  | [] => True
  | tree :: trees => Fits tree ∧ FitsAll trees

end

mutual

def decidableFits : (tree : OrderedTree NodeData) → Decidable (Fits tree)
  | .node data children =>
    have := decidableFitsAll children
    inferInstanceAs (Decidable (data.Fits ∧ FitsAll children))

def decidableFitsAll : (trees : List (OrderedTree NodeData)) → Decidable (FitsAll trees)
  | [] => inferInstanceAs (Decidable True)
  | tree :: trees =>
    have := decidableFits tree
    have := decidableFitsAll trees
    inferInstanceAs (Decidable (Fits tree ∧ FitsAll trees))

end

instance : DecidablePred Fits := decidableFits

instance : DecidablePred FitsAll := decidableFitsAll

mutual

theorem length_flatten (parent start : Nat) : (tree : OrderedTree NodeData) →
    (flatten parent start tree).length = tree.size
  | .node data children => by
    rw [flatten, List.length_cons, length_flattenAll start (start + 1) children, size, Nat.add_comm]

theorem length_flattenAll (parent start : Nat) : (trees : List (OrderedTree NodeData)) →
    (flattenAll parent start trees).length = sizes trees
  | [] => rfl
  | tree :: trees => by
    rw [flattenAll, List.length_append, length_flatten parent start tree,
      length_flattenAll parent (start + tree.size) trees, sizes]

end

/-! ## The walk -/

/-- Where the walk goes on once the subtree under the cursor has its records. -/
def resume (cursor : Cursor NodeData) (opened : List Nat) (records : List Record) :
    Except FlatError (List Record) :=
  match climb cursor opened records with
  | .error error => .error error
  | .ok (none, records) => .ok records
  | .ok (some (next, opened), records) => walk next opened records

section Walk

variable {cursor next : Cursor NodeData} {opened : List Nat} {records : List Record}

theorem resume_sibling (h : cursor.gotoNextSibling = some next) :
    resume cursor opened records = walk next opened records := by
  unfold resume climb
  rw [h]

theorem climb_parent (hlast : cursor.gotoNextSibling = none) (h : cursor.gotoParent = some next) :
    climb cursor opened records = if records.length ≤ maxIndex then
      climb next opened.tail (closeAt records (opened.head?.getD 0) records.length)
      else .error .tooLarge := by
  rw [climb, hlast]
  dsimp only
  split
  next hnone =>
    rw [h] at hnone
    cases hnone
  next parent hparent =>
    obtain rfl : next = parent := Option.some.inj (h.symm.trans hparent)
    unfold indexU32
    split_ifs <;> rfl

theorem climb_root (hlast : cursor.gotoNextSibling = none) (h : cursor.gotoParent = none) :
    climb cursor opened records = .ok (none, records) := by
  rw [climb, hlast]
  dsimp only
  split
  next => rfl
  next parent hparent =>
    rw [h] at hparent
    cases hparent

theorem resume_parent (hlast : cursor.gotoNextSibling = none) (h : cursor.gotoParent = some next) :
    resume cursor opened records = if records.length ≤ maxIndex then
      resume next opened.tail (closeAt records (opened.head?.getD 0) records.length)
      else .error .tooLarge := by
  unfold resume
  rw [climb_parent hlast h]
  split_ifs <;> rfl

theorem resume_root (hlast : cursor.gotoNextSibling = none) (h : cursor.gotoParent = none) :
    resume cursor opened records = .ok records := by
  unfold resume
  rw [climb_root hlast h]

theorem record_eq (data : NodeData) (opened : List Nat) :
    record data opened = if data.Fits then .ok (data.record (opened.head?.getD noParent) 0)
      else .error .tooLarge := by
  unfold record indexU32 NodeData.Fits
  by_cases hstart : data.start ≤ maxIndex <;> by_cases hstop : data.stop ≤ maxIndex <;>
    simp [hstart, hstop] <;> rfl

theorem walk_eq (cursor : Cursor NodeData) (opened : List Nat) (records : List Record) :
    walk cursor opened records =
      if records.length ≤ maxIndex ∧ cursor.focus.label.Fits then
        let found := cursor.focus.label.record (opened.head?.getD noParent) 0
        match cursor.gotoFirstChild with
        | some child => walk child (records.length :: opened) (records ++ [found])
        | none => resume cursor opened
            (closeAt (records ++ [found]) records.length ((records.length + 1) % 2 ^ 32))
      else .error .tooLarge := by
  rw [walk, record_eq]
  unfold indexU32
  by_cases hindex : records.length ≤ maxIndex
  · by_cases hfits : cursor.focus.label.Fits
    · simp only [hindex, hfits, if_true, and_self]
      split
      next child hchild => simp only [hchild]
      next hchild =>
        simp only [hchild, resume]
        split <;> simp_all
    · simp only [hindex, hfits, if_true, if_false, and_false]
  · simp only [hindex, if_false, false_and]

/-- A table that is full has no room for the record that would follow or for the end of a
subtree. -/
theorem resume_full {focus : OrderedTree NodeData} {frame : Frame NodeData}
    {frames : List (Frame NodeData)} (hfull : maxIndex < records.length) :
    resume ⟨focus, frame :: frames⟩ opened records = .error .tooLarge := by
  have hnot : ¬ records.length ≤ maxIndex := Nat.not_le.mpr hfull
  obtain ⟨label, before, after⟩ := frame
  cases after with
  | nil => rw [resume_parent rfl rfl, if_neg hnot]
  | cons sibling after => rw [resume_sibling rfl, walk_eq, if_neg (hnot ·.1)]

theorem closeAt_append (records more : List Record) (found : Record) (subtreeEnd : Nat) :
    closeAt (records ++ found :: more) records.length subtreeEnd =
      records ++ { found with subtreeEnd } :: more := by
  induction records with
  | nil => rfl
  | cons first records ih =>
    simp only [closeAt, List.cons_append, List.length_cons, List.modify_succ_cons] at ih ⊢
    rw [ih]

theorem walk_leaf {data : NodeData} {frames : List (Frame NodeData)}
    (hroot : frames = [] → records = []) :
    walk ⟨.node data [], frames⟩ opened records =
      if data.Fits ∧ records.length + 1 ≤ maxIndex then
        resume ⟨.node data [], frames⟩ opened
          (records ++ flatten (opened.head?.getD noParent) records.length (.node data []))
      else .error .tooLarge := by
  rw [walk_eq]
  by_cases hfits : data.Fits
  · rcases Nat.lt_trichotomy records.length maxIndex with hlt | heq | hgt
    · have hmod : (records.length + 1) % 2 ^ 32 = records.length + 1 := by
        refine Nat.mod_eq_of_lt ?_
        unfold maxIndex at hlt
        omega
      rw [if_pos ⟨hlt.le, hfits⟩, if_pos ⟨hfits, hlt⟩, hmod]
      simp only [Cursor.gotoFirstChild, closeAt_append]
      rfl
    · -- the end of this leaf wraps, and the walk stops at the next step
      rw [if_pos ⟨heq.le, hfits⟩, if_neg (fun h => absurd h.2 (by omega))]
      cases frames with
      | nil =>
        rw [hroot rfl] at heq
        cases heq
      | cons frame frames =>
        refine resume_full ?_
        rw [closeAt, List.length_modify, List.length_append, heq]
        exact Nat.lt_succ_self _
    · rw [if_neg (fun h => absurd h.1 (by omega)), if_neg (fun h => absurd h.2 (by omega))]
  · rw [if_neg (fun h => hfits h.2), if_neg (fun h => hfits h.1)]

mutual

theorem walk_tree (tree : OrderedTree NodeData) (frames : List (Frame NodeData))
    (opened : List Nat) (records : List Record) (hroot : frames = [] → records = []) :
    walk ⟨tree, frames⟩ opened records =
      if Fits tree ∧ records.length + tree.size ≤ maxIndex then
        resume ⟨tree, frames⟩ opened
          (records ++ flatten (opened.head?.getD noParent) records.length tree)
      else .error .tooLarge := by
  match tree with
  | .node data [] =>
    rw [walk_leaf hroot]
    simp only [Fits, FitsAll, and_true, size, sizes]
  | .node data (child :: children) =>
    have hbelow := walk_forest data [] child children frames opened records.length
      (records ++ [data.record (opened.head?.getD noParent) 0]) (by simp)
    have hlength : (records ++ [data.record (opened.head?.getD noParent) 0]).length =
        records.length + 1 := by
      rw [List.length_append, List.length_singleton]
    have hclosed := closeAt_append records
      (flattenAll records.length (records.length + 1) (child :: children))
      (data.record (opened.head?.getD noParent) 0)
      (records.length + 1 + sizes (child :: children))
    rw [hlength, List.append_assoc, List.singleton_append, hclosed] at hbelow
    rw [walk_eq]
    simp only [Cursor.gotoFirstChild, hbelow, label]
    by_cases hfits : data.Fits
    · by_cases hroom : records.length ≤ maxIndex
      · rw [if_pos ⟨hroom, hfits⟩]
        refine if_congr ?_ rfl rfl
        simp only [Fits, hfits, true_and, size, Nat.add_assoc]
      · rw [if_neg (fun h => hroom h.1), if_neg]
        intro h
        have := h.2
        omega
    · rw [if_neg (fun h => hfits h.2), if_neg]
      intro h
      exact hfits h.1.1
termination_by (tree.size, 0)
decreasing_by
  all_goals
    simp only [Prod.lex_def, size, sizes]
    omega

theorem walk_forest (data : NodeData) (before : List (OrderedTree NodeData))
    (tree : OrderedTree NodeData) (trees : List (OrderedTree NodeData))
    (frames : List (Frame NodeData)) (opened : List Nat) (index : Nat) (records : List Record)
    (hbelow : index < records.length) :
    walk ⟨tree, ⟨data, before, trees⟩ :: frames⟩ (index :: opened) records =
      if FitsAll (tree :: trees) ∧ records.length + sizes (tree :: trees) ≤ maxIndex then
        resume ⟨.node data (before.reverse ++ tree :: trees), frames⟩ opened
          (closeAt (records ++ flattenAll index records.length (tree :: trees)) index
            (records.length + sizes (tree :: trees)))
      else .error .tooLarge := by
  have hlength : (records ++ flatten index records.length tree).length =
      records.length + tree.size := by
    rw [List.length_append, length_flatten]
  rw [walk_tree tree _ _ _ (by simp)]
  simp only [List.head?_cons, Option.getD_some]
  by_cases hfirst : Fits tree ∧ records.length + tree.size ≤ maxIndex
  · rw [if_pos hfirst]
    match trees with
    | [] =>
      have hflat : flattenAll index records.length [tree] = flatten index records.length tree := by
        rw [flattenAll, flattenAll, List.append_nil]
      have hone : sizes [tree] = tree.size := by
        rw [sizes, sizes, Nat.add_zero]
      rw [resume_parent rfl rfl, hlength, if_pos hfirst.2, hflat, hone, if_pos]
      · rfl
      · exact ⟨⟨hfirst.1, trivial⟩, hfirst.2⟩
    | sibling :: rest =>
      have hrest := walk_forest data (tree :: before) sibling rest frames opened index
        (records ++ flatten index records.length tree) (by rw [hlength]; omega)
      rw [resume_sibling rfl]
      refine hrest.trans ?_
      rw [hlength, List.append_assoc, ← flattenAll, Nat.add_assoc, ← sizes, List.reverse_cons,
        List.append_assoc, List.singleton_append]
      refine if_congr ?_ rfl rfl
      rw [FitsAll.eq_2 tree, and_iff_right hfirst.1]
  · rw [if_neg hfirst, if_neg]
    rintro ⟨⟨hfits, -⟩, hroom⟩
    rw [sizes] at hroom
    exact hfirst ⟨hfits, by omega⟩
termination_by (tree.size + sizes trees, 1)
decreasing_by
  all_goals
    have := tree.size_pos
    simp only [Prod.lex_def, sizes]
    omega

end

end Walk

/-- The table of a tree is its preorder, and a tree has one exactly when its offsets are in range
and its nodes can be counted. -/
theorem records_eq (tree : OrderedTree NodeData) :
    records tree = if Fits tree ∧ tree.size ≤ maxIndex then .ok (flatten noParent 0 tree)
      else .error .tooLarge := by
  unfold records
  rw [walk_tree tree [] [] [] (fun _ => rfl), resume_root rfl rfl, List.length_nil, Nat.zero_add]
  rfl

end Agentless.Syntax
