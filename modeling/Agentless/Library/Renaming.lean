import Agentless.Library.Assoc
import Agentless.Library.OrderedTree
import Mathlib.Data.List.Dedup
import Mathlib.Data.Set.Function

/-!
# Trees up to renaming

A tree some of whose labels are names. When each name becomes the number of its first use, two trees
become one tree exactly when a bijection between their names makes the first into the second.
-/

namespace Agentless.OrderedTree

variable {α β γ ι κ : Type}

mutual

def map (f : α → β) : OrderedTree α → OrderedTree β
  | .node label children => .node (f label) (mapAll f children)

def mapAll (f : α → β) : List (OrderedTree α) → List (OrderedTree β)
  | [] => []
  | tree :: trees => map f tree :: mapAll f trees

end

mutual

/-- The labels of all nodes, in document order. -/
def labels : OrderedTree α → List α
  | .node label children => label :: labelsAll children

def labelsAll : List (OrderedTree α) → List α
  | [] => []
  | tree :: trees => labels tree ++ labelsAll trees

end

mutual

theorem map_map (g : β → γ) (f : α → β) : (tree : OrderedTree α) →
    (tree.map f).map g = tree.map (g ∘ f)
  | .node label children => congrArg (OrderedTree.node (g (f label))) (mapAll_mapAll g f children)

theorem mapAll_mapAll (g : β → γ) (f : α → β) : (trees : List (OrderedTree α)) →
    mapAll g (mapAll f trees) = mapAll (g ∘ f) trees
  | [] => rfl
  | tree :: trees => congrArg₂ List.cons (map_map g f tree) (mapAll_mapAll g f trees)

end

mutual

theorem map_id : (tree : OrderedTree α) → tree.map id = tree
  | .node label children => congrArg (OrderedTree.node label) (mapAll_id children)

theorem mapAll_id : (trees : List (OrderedTree α)) → mapAll id trees = trees
  | [] => rfl
  | tree :: trees => congrArg₂ List.cons (map_id tree) (mapAll_id trees)

end

mutual

theorem map_congr {f g : α → β} : (tree : OrderedTree α) →
    (∀ label ∈ tree.labels, f label = g label) → tree.map f = tree.map g
  | .node label children, h => by
    obtain ⟨hlabel, hchildren⟩ := List.forall_mem_cons.mp h
    rw [map, map, hlabel, mapAll_congr children hchildren]

theorem mapAll_congr {f g : α → β} : (trees : List (OrderedTree α)) →
    (∀ label ∈ labelsAll trees, f label = g label) → mapAll f trees = mapAll g trees
  | [], _ => rfl
  | tree :: trees, h => by
    obtain ⟨htree, htrees⟩ := List.forall_mem_append.mp h
    rw [mapAll, mapAll, map_congr tree htree, mapAll_congr trees htrees]

end

mutual

theorem labels_map (f : α → β) : (tree : OrderedTree α) →
    (tree.map f).labels = tree.labels.map f
  | .node label children => congrArg (f label :: ·) (labelsAll_mapAll f children)

theorem labelsAll_mapAll (f : α → β) : (trees : List (OrderedTree α)) →
    labelsAll (mapAll f trees) = (labelsAll trees).map f
  | [] => rfl
  | tree :: trees => by
    rw [mapAll, labelsAll, labelsAll, labels_map, labelsAll_mapAll f trees, List.map_append]

end

mutual

/-- What holds for all labels that have one image holds for the trees. -/
theorem map_eq_of_map_eq {f : α → γ} {g : β → γ} {h : α → β} :
    (tree : OrderedTree α) → (other : OrderedTree β) → tree.map f = other.map g →
      (∀ x ∈ tree.labels, ∀ y ∈ other.labels, f x = g y → h x = y) → tree.map h = other
  | .node label children, .node label' children', heq, hlabels => by
    obtain ⟨hlabel, hchildren⟩ := OrderedTree.node.inj heq
    have hroot := hlabels label List.mem_cons_self label' List.mem_cons_self hlabel
    rw [map, hroot, mapAll_eq_of_mapAll_eq children children' hchildren fun x hx y hy =>
      hlabels x (List.mem_cons_of_mem _ hx) y (List.mem_cons_of_mem _ hy)]

theorem mapAll_eq_of_mapAll_eq {f : α → γ} {g : β → γ} {h : α → β} :
    (trees : List (OrderedTree α)) → (others : List (OrderedTree β)) →
      mapAll f trees = mapAll g others →
        (∀ x ∈ labelsAll trees, ∀ y ∈ labelsAll others, f x = g y → h x = y) →
          mapAll h trees = others
  | [], [], _, _ => rfl
  | [], _ :: _, heq, _ => by cases heq
  | _ :: _, [], heq, _ => by cases heq
  | tree :: trees, other :: others, heq, hlabels => by
    obtain ⟨htree, htrees⟩ := List.cons.inj heq
    rw [mapAll, map_eq_of_map_eq tree other htree fun x hx y hy =>
        hlabels x (List.mem_append_left _ hx) y (List.mem_append_left _ hy),
      mapAll_eq_of_mapAll_eq trees others htrees fun x hx y hy =>
        hlabels x (List.mem_append_right _ hx) y (List.mem_append_right _ hy)]

end

/-! ## Names -/

/-- The names of a tree, in document order. -/
def names (tree : OrderedTree (ι ⊕ κ)) : List ι := tree.labels.filterMap Sum.getLeft?

/-- The tree with other names. -/
def renamed (rename : ι → ι) (tree : OrderedTree (ι ⊕ κ)) : OrderedTree (ι ⊕ κ) :=
  tree.map (Sum.map rename id)

/-- A bijection between the names makes the one tree into the other. -/
def Alike (tree other : OrderedTree (ι ⊕ κ)) : Prop :=
  ∃ rename : ι → ι, Set.BijOn rename {x | x ∈ tree.names} {y | y ∈ other.names} ∧
    tree.renamed rename = other

theorem mem_names {tree : OrderedTree (ι ⊕ κ)} {x : ι} :
    x ∈ tree.names ↔ Sum.inl x ∈ tree.labels := by
  simp [names, List.mem_filterMap]

theorem names_renamed (rename : ι → ι) (tree : OrderedTree (ι ⊕ κ)) :
    (tree.renamed rename).names = tree.names.map rename := by
  rw [names, renamed, labels_map, List.filterMap_map, names, List.map_filterMap]
  refine List.filterMap_congr fun label _ => ?_
  cases label <;> rfl

section Numbers

variable [DecidableEq ι]

/-- Each name as the number of names whose first use is before its own. -/
def number (used : List ι) : ι ⊕ κ → Nat ⊕ κ := Sum.map used.idxOf id

def numbered (tree : OrderedTree (ι ⊕ κ)) : OrderedTree (Nat ⊕ κ) :=
  tree.map (number tree.names.eraseDups)

theorem eraseDups_map_of_injOn {f : ι → ι} {items : List ι}
    (h : Set.InjOn f {x | x ∈ items}) : (items.map f).eraseDups = items.eraseDups.map f := by
  induction items using List.reverseRecOn with
  | nil => rfl
  | append_singleton items item ih =>
    have hitems : Set.InjOn f {x | x ∈ items} :=
      h.mono fun x hx => List.mem_append_left [item] hx
    rw [List.map_append, List.map_singleton, Assoc.eraseDups_concat, Assoc.eraseDups_concat,
      ih hitems]
    have hmem : f item ∈ items.map f ↔ item ∈ items := by
      refine ⟨fun hmem => ?_, List.mem_map_of_mem⟩
      obtain ⟨x, hx, heq⟩ := List.mem_map.mp hmem
      have hx' : x ∈ items ++ [item] := List.mem_append_left _ hx
      have hitem : item ∈ items ++ [item] := List.mem_append_right _ List.mem_cons_self
      exact h hx' hitem heq ▸ hx
    by_cases hitem : item ∈ items
    · rw [if_pos (hmem.mpr hitem), if_pos hitem]
    · rw [if_neg (mt hmem.mp hitem), if_neg hitem, List.map_append, List.map_singleton]

theorem idxOf_map_of_injOn {f : ι → ι} {items : List ι} (h : Set.InjOn f {x | x ∈ items}) {x : ι}
    (hx : x ∈ items) : (items.map f).idxOf (f x) = items.idxOf x := by
  induction items with
  | nil => cases hx
  | cons item items ih =>
    rw [List.map_cons, List.idxOf_cons, List.idxOf_cons]
    by_cases heq : item = x
    · simp [heq]
    · have hne : f item ≠ f x := fun hsame => heq (h List.mem_cons_self hx hsame)
      have hx : x ∈ items := by simpa [Ne.symm heq] using hx
      have hrest := ih (h.mono fun y hy => List.mem_cons_of_mem item hy) hx
      rw [beq_eq_false_iff_ne.mpr hne, beq_eq_false_iff_ne.mpr heq, hrest]

/-- A renamed tree has the same numbers. -/
theorem numbered_renamed {rename : ι → ι} {tree : OrderedTree (ι ⊕ κ)}
    (h : Set.InjOn rename {x | x ∈ tree.names}) :
    (tree.renamed rename).numbered = tree.numbered := by
  rw [numbered, names_renamed, eraseDups_map_of_injOn h, renamed, map_map]
  refine map_congr tree fun label hlabel => ?_
  cases label with
  | inr fixed => rfl
  | inl x =>
    have hx : x ∈ tree.names.eraseDups := List.mem_eraseDups.mpr (mem_names.mpr hlabel)
    have hused : Set.InjOn rename {x | x ∈ tree.names.eraseDups} :=
      h.mono fun y hy => List.mem_eraseDups.mp hy
    exact congrArg Sum.inl (idxOf_map_of_injOn hused hx)

theorem exists_label_of_map_eq {f : α → γ} {g : β → γ} {tree : OrderedTree α}
    {other : OrderedTree β} (h : tree.map f = other.map g) {x : α} (hx : x ∈ tree.labels) :
    ∃ y ∈ other.labels, g y = f x := by
  have hlabels := congrArg labels h
  rw [labels_map, labels_map] at hlabels
  exact List.mem_map.mp (hlabels ▸ List.mem_map_of_mem hx)

/-- Two trees have the same numbers exactly when they are alike up to their names. -/
theorem numbered_eq_iff {tree other : OrderedTree (ι ⊕ κ)} :
    tree.numbered = other.numbered ↔ tree.Alike other := by
  constructor
  · intro heq
    let rename (x : ι) : ι := (other.names.eraseDups[tree.names.eraseDups.idxOf x]?).getD x
    -- A name of the first tree becomes the name with its number in the second one.
    have hsame (x y : ι) (hy : y ∈ other.names)
        (hnumber : tree.names.eraseDups.idxOf x = other.names.eraseDups.idxOf y) :
        rename x = y := by
      have hy : y ∈ other.names.eraseDups := List.mem_eraseDups.mpr hy
      have hat := List.getElem?_idxOf hy
      simp only [rename, hnumber, hat, Option.getD_some]
    have hforth (x : ι) (hx : x ∈ tree.names) : ∃ y ∈ other.names,
        tree.names.eraseDups.idxOf x = other.names.eraseDups.idxOf y := by
      obtain ⟨label, hlabel, hnumber⟩ := exists_label_of_map_eq heq (mem_names.mp hx)
      cases label with
      | inr fixed => cases hnumber
      | inl y => exact ⟨y, mem_names.mpr hlabel, (Sum.inl.inj hnumber).symm⟩
    have hmade : tree.renamed rename = other := by
      refine map_eq_of_map_eq tree other heq fun x _ y hy hnumber => ?_
      cases x with
      | inr fixed =>
        cases y with
        | inr fixed' => exact congrArg Sum.inr (Sum.inr.inj hnumber)
        | inl y => cases hnumber
      | inl x =>
        cases y with
        | inr fixed => cases hnumber
        | inl y => exact congrArg Sum.inl (hsame x y (mem_names.mpr hy) (Sum.inl.inj hnumber))
    have hnames : other.names = tree.names.map rename := by rw [← names_renamed, hmade]
    refine ⟨rename, ⟨fun x hx => ?_, fun x hx x' hx' hrename => ?_, fun y hy => ?_⟩, hmade⟩
    · change rename x ∈ other.names
      rw [hnames]
      exact List.mem_map_of_mem hx
    · obtain ⟨y, hy, hnumber⟩ := hforth x hx
      obtain ⟨y', hy', hnumber'⟩ := hforth x' hx'
      have hyy : y = y' := by rw [← hsame x y hy hnumber, ← hsame x' y' hy' hnumber', hrename]
      have hindex : tree.names.eraseDups.idxOf x = tree.names.eraseDups.idxOf x' := by
        rw [hnumber, hnumber', hyy]
      exact (List.idxOf_inj (List.mem_eraseDups.mpr hx)).mp hindex
    · change y ∈ other.names at hy
      rw [hnames] at hy
      exact List.mem_map.mp hy
  · rintro ⟨rename, hbij, rfl⟩
    exact (numbered_renamed hbij.injOn).symm

/-! ## More names are used -/

/-- The used names after more of them. -/
def extend (used more : List ι) : List ι := (used ++ more).eraseDups

variable {used more rest : List ι}

theorem nodup_extend : (extend used more).Nodup := Assoc.nodup_eraseDups _

theorem mem_extend {x : ι} : x ∈ extend used more ↔ x ∈ used ∨ x ∈ more := by
  rw [extend, List.mem_eraseDups, List.mem_append]

theorem extend_nil (h : used.Nodup) : extend used [] = used := by
  rw [extend, List.append_nil, Assoc.eraseDups_of_nodup h]

theorem extend_append : extend used (more ++ rest) = extend (extend used more) rest := by
  have hremove : rest.removeAll (used ++ more).eraseDups = rest.removeAll (used ++ more) := by
    refine List.filter_congr fun x _ => ?_
    simp [List.mem_eraseDups]
  calc extend used (more ++ rest)
    _ = (used ++ more).eraseDups ++ (rest.removeAll (used ++ more)).eraseDups := by
      rw [extend, ← List.append_assoc, List.eraseDups_append]
    _ = extend (extend used more) rest := by
      rw [extend, extend, @List.eraseDups_append _ _ _ (used ++ more).eraseDups, hremove,
        Assoc.eraseDups_of_nodup (Assoc.nodup_eraseDups _)]

theorem extend_of_mem (h : used.Nodup) {x : ι} (hx : x ∈ used) : extend used [x] = used := by
  rw [extend, Assoc.eraseDups_concat, if_pos hx, Assoc.eraseDups_of_nodup h]

theorem extend_of_notMem (h : used.Nodup) {x : ι} (hx : x ∉ used) :
    extend used [x] = used ++ [x] := by
  rw [extend, Assoc.eraseDups_concat, if_neg hx, Assoc.eraseDups_of_nodup h]

theorem number_of_getElem? (h : used.Nodup) {slot : Nat} {x : ι} (hat : used[slot]? = some x) :
    (number used (.inl x) : Nat ⊕ κ) = .inl slot := by
  obtain ⟨hslot, rfl⟩ := List.getElem?_eq_some_iff.mp hat
  exact congrArg Sum.inl (h.idxOf_getElem slot hslot)

/-- A used name keeps its number. -/
theorem number_extend (h : used.Nodup) {label : ι ⊕ κ} (hlabel : ∀ x, label = .inl x → x ∈ used) :
    number (extend used more) label = number used label := by
  cases label with
  | inr fixed => rfl
  | inl x =>
    refine congrArg Sum.inl ?_
    change (extend used more).idxOf x = used.idxOf x
    rw [extend, List.eraseDups_append, Assoc.eraseDups_of_nodup h,
      List.idxOf_append_of_mem (hlabel x rfl)]

/-- A tree all of whose names are used keeps its numbers. -/
theorem map_number_extend (h : used.Nodup) {tree : OrderedTree (ι ⊕ κ)}
    (hnames : ∀ x ∈ tree.names, x ∈ used) :
    tree.map (number (extend used more)) = tree.map (number used) :=
  map_congr tree fun _ hlabel => number_extend h fun x hx => hnames x (mem_names.mpr (hx ▸ hlabel))

end Numbers

end Agentless.OrderedTree
