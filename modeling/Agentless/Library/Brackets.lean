import Agentless.Library.Renaming

/-!
# Trees in brackets

A tree is written as the token of its root and, in brackets, its children with a comma between two.
Nothing else stands between the pieces, and a bracket or a comma may also be the token of a leaf. A
tree is still read back from what is written: where a node starts, a mark is its token, and behind a
token a mark is never a token.
-/

namespace Agentless.Brackets

open OrderedTree

variable {α β χ : Type}

/-- The three marks, of which only the comma and the closing bracket follow a node. -/
structure Marks (χ : Type) where
  opening : χ
  comma : χ
  closing : χ
  opening_ne_comma : opening ≠ comma
  opening_ne_closing : opening ≠ closing
  comma_ne_closing : comma ≠ closing

variable (marks : Marks χ) (token : α → List χ)

def Marks.Is (c : χ) : Prop := c = marks.opening ∨ c = marks.comma ∨ c = marks.closing

mutual

def write : OrderedTree α → List χ
  | .node label children => token label ++ writeChildren children

/-- The children in brackets, and nothing for a leaf. -/
def writeChildren : List (OrderedTree α) → List χ
  | [] => []
  | child :: children => marks.opening :: (write child ++ writeRest children)

def writeRest : List (OrderedTree α) → List χ
  | [] => [marks.closing]
  | child :: children => marks.comma :: (write child ++ writeRest children)

end

/-- A token without marks. -/
def Plain (piece : List χ) : Prop := piece ≠ [] ∧ ∀ c ∈ piece, ¬ marks.Is c

/-- The token is plain, or it is one mark and the node is a leaf. -/
def ReadableNode (label : α) (children : List (OrderedTree α)) : Prop :=
  Plain marks (token label) ∨ (∃ mark, marks.Is mark ∧ token label = [mark]) ∧ children = []

mutual

def Readable : OrderedTree α → Prop
  | .node label children => ReadableNode marks token label children ∧ ReadableAll children

def ReadableAll : List (OrderedTree α) → Prop
  | [] => True
  | tree :: trees => Readable tree ∧ ReadableAll trees

end

mutual

theorem readable_map {marks : Marks χ} {token : β → List χ} {f : α → β} :
    {tree : OrderedTree α} → Readable marks token (tree.map f) ↔ Readable marks (token ∘ f) tree
  | .node label children => by
    have hleaf : mapAll f children = [] ↔ children = [] := by cases children <;> simp [mapAll]
    have hchildren : ReadableAll marks token (mapAll f children) ↔
        ReadableAll marks (token ∘ f) children := readableAll_map
    rw [OrderedTree.map, Readable, Readable, hchildren, ReadableNode, ReadableNode, hleaf]
    rfl

theorem readableAll_map {marks : Marks χ} {token : β → List χ} {f : α → β} :
    {trees : List (OrderedTree α)} →
      (ReadableAll marks token (mapAll f trees) ↔ ReadableAll marks (token ∘ f) trees)
  | [] => Iff.rfl
  | tree :: trees => and_congr readable_map readableAll_map

end

/-- What can follow a node: nothing, or a comma or a closing bracket. -/
def Follows (rest : List χ) : Prop :=
  ∀ c ∈ rest.head?, c = marks.comma ∨ c = marks.closing

variable {marks token}

theorem follows_writeRest (children : List (OrderedTree α)) (rest : List χ) :
    Follows marks (writeRest marks token children ++ rest) := by
  intro c hc
  cases children with
  | nil => exact .inr (Option.some.inj hc).symm
  | cons child children => exact .inl (Option.some.inj hc).symm

/-- Behind the token of a node stands a mark, if anything. -/
theorem mark_writeChildren {children : List (OrderedTree α)} {rest : List χ}
    (h : Follows marks rest) :
    ∀ c ∈ (writeChildren marks token children ++ rest).head?, marks.Is c := by
  intro c hc
  cases children with
  | nil => exact .inr (h c hc)
  | cons child children => exact .inl (Option.some.inj hc).symm

/-- A plain token ends where the first mark stands. -/
theorem plain_append_inj {piece piece' after after' : List χ} (hpiece : ∀ c ∈ piece, ¬ marks.Is c)
    (hpiece' : ∀ c ∈ piece', ¬ marks.Is c) (hafter : ∀ c ∈ after.head?, marks.Is c)
    (hafter' : ∀ c ∈ after'.head?, marks.Is c) (h : piece ++ after = piece' ++ after') :
    piece = piece' ∧ after = after' := by
  induction piece generalizing piece' with
  | nil =>
    cases piece' with
    | nil => exact ⟨rfl, h⟩
    | cons c piece' =>
      have hmark := hafter c (by rw [show after = c :: (piece' ++ after') from h]; rfl)
      exact absurd hmark (hpiece' c List.mem_cons_self)
  | cons c piece ih =>
    obtain ⟨hc, hpiece⟩ := List.forall_mem_cons.mp hpiece
    cases piece' with
    | nil =>
      have hmark := hafter' c (by rw [show after' = c :: (piece ++ after) from h.symm]; rfl)
      exact absurd hmark hc
    | cons c' piece' =>
      obtain ⟨rfl, hbehind⟩ := List.cons.inj h
      obtain ⟨rfl, hrest⟩ := ih hpiece (List.forall_mem_cons.mp hpiece').2 hbehind
      exact ⟨rfl, hrest⟩

/-- A node's token is read back, and with it whether anything is left of the node. -/
theorem token_inj {label label' : α} {children children' : List (OrderedTree α)}
    {rest rest' : List χ} (hnode : ReadableNode marks token label children)
    (hnode' : ReadableNode marks token label' children') (hrest : Follows marks rest)
    (hrest' : Follows marks rest')
    (h : token label ++ (writeChildren marks token children ++ rest) =
      token label' ++ (writeChildren marks token children' ++ rest')) :
    token label = token label' ∧ writeChildren marks token children ++ rest =
      writeChildren marks token children' ++ rest' := by
  obtain ⟨hne, hplain⟩ | ⟨⟨mark, hmark, htoken⟩, rfl⟩ := hnode
  · obtain ⟨-, hplain'⟩ | ⟨⟨mark, hmark, htoken⟩, rfl⟩ := hnode'
    · exact plain_append_inj hplain hplain' (mark_writeChildren hrest) (mark_writeChildren hrest') h
    · obtain ⟨c, piece, hpiece⟩ := List.exists_cons_of_ne_nil hne
      rw [htoken, hpiece] at h
      obtain ⟨rfl, -⟩ := List.cons.inj h
      exact absurd hmark (hplain c (by rw [hpiece]; exact List.mem_cons_self))
  · obtain ⟨hne, hplain⟩ | ⟨⟨mark', hmark', htoken'⟩, rfl⟩ := hnode'
    · obtain ⟨c, piece, hpiece⟩ := List.exists_cons_of_ne_nil hne
      rw [htoken, hpiece] at h
      obtain ⟨rfl, -⟩ := List.cons.inj h
      exact absurd hmark (hplain mark (by rw [hpiece]; exact List.mem_cons_self))
    · rw [htoken, htoken'] at h ⊢
      obtain ⟨rfl, hbehind⟩ := List.cons.inj h
      exact ⟨rfl, hbehind⟩

mutual

/-- Only the tokens are written. -/
theorem write_eq_map : (tree : OrderedTree α) →
    write marks token tree = write marks id (tree.map token)
  | .node label children => congrArg (token label ++ ·) (writeChildren_eq_map children)

theorem writeChildren_eq_map : (trees : List (OrderedTree α)) →
    writeChildren marks token trees = writeChildren marks id (mapAll token trees)
  | [] => rfl
  | tree :: trees => by
    rw [writeChildren, mapAll, writeChildren, write_eq_map tree, writeRest_eq_map trees]

theorem writeRest_eq_map : (trees : List (OrderedTree α)) →
    writeRest marks token trees = writeRest marks id (mapAll token trees)
  | [] => rfl
  | tree :: trees => by
    rw [writeRest, mapAll, writeRest, write_eq_map tree, writeRest_eq_map trees]

end

mutual

/-- What is written gives back the tokens of the tree and what follows it. -/
theorem write_inj : (tree other : OrderedTree α) → Readable marks token tree →
    Readable marks token other → (rest rest' : List χ) → Follows marks rest → Follows marks rest' →
    write marks token tree ++ rest = write marks token other ++ rest' →
    tree.map token = other.map token ∧ rest = rest'
  | .node label children, .node label' children', htree, hother, rest, rest', hrest, hrest', h => by
    rw [write, write, List.append_assoc, List.append_assoc] at h
    obtain ⟨hlabel, h⟩ := token_inj htree.1 hother.1 hrest hrest' h
    obtain ⟨hchildren, hafter⟩ :=
      writeChildren_inj children children' htree.2 hother.2 rest rest' hrest hrest' h
    exact ⟨by rw [OrderedTree.map, OrderedTree.map, hlabel, hchildren], hafter⟩

theorem writeChildren_inj : (trees others : List (OrderedTree α)) → ReadableAll marks token trees →
    ReadableAll marks token others → (rest rest' : List χ) → Follows marks rest →
    Follows marks rest' →
    writeChildren marks token trees ++ rest = writeChildren marks token others ++ rest' →
    mapAll token trees = mapAll token others ∧ rest = rest'
  | [], [], _, _, _, _, _, _, h => ⟨rfl, h⟩
  | [], other :: others, _, _, rest, rest', hrest, _, h => by
    have hopening := hrest marks.opening (by rw [show rest = _ from h]; rfl)
    obtain hcomma | hclosing := hopening
    · exact absurd hcomma marks.opening_ne_comma
    · exact absurd hclosing marks.opening_ne_closing
  | tree :: trees, [], _, _, rest, rest', _, hrest', h => by
    have hopening := hrest' marks.opening (by rw [show rest' = _ from h.symm]; rfl)
    obtain hcomma | hclosing := hopening
    · exact absurd hcomma marks.opening_ne_comma
    · exact absurd hclosing marks.opening_ne_closing
  | tree :: trees, other :: others, htrees, hothers, rest, rest', _, _, h => by
    rw [writeChildren, writeChildren, List.cons_append, List.cons_append, List.append_assoc,
      List.append_assoc] at h
    obtain ⟨htree, h⟩ := write_inj tree other htrees.1 hothers.1 _ _ (follows_writeRest trees rest)
      (follows_writeRest others rest') (List.cons.inj h).2
    obtain ⟨hall, hafter⟩ := writeRest_inj trees others htrees.2 hothers.2 rest rest' h
    exact ⟨by rw [mapAll, mapAll, htree, hall], hafter⟩

theorem writeRest_inj : (trees others : List (OrderedTree α)) → ReadableAll marks token trees →
    ReadableAll marks token others → (rest rest' : List χ) →
    writeRest marks token trees ++ rest = writeRest marks token others ++ rest' →
    mapAll token trees = mapAll token others ∧ rest = rest'
  | [], [], _, _, _, _, h => ⟨rfl, (List.cons.inj h).2⟩
  | [], other :: others, _, _, _, _, h => absurd (List.cons.inj h).1.symm marks.comma_ne_closing
  | tree :: trees, [], _, _, _, _, h => absurd (List.cons.inj h).1 marks.comma_ne_closing
  | tree :: trees, other :: others, htrees, hothers, rest, rest', h => by
    rw [writeRest, writeRest, List.cons_append, List.cons_append, List.append_assoc,
      List.append_assoc] at h
    obtain ⟨htree, h⟩ := write_inj tree other htrees.1 hothers.1 _ _ (follows_writeRest trees rest)
      (follows_writeRest others rest') (List.cons.inj h).2
    obtain ⟨hall, hafter⟩ := writeRest_inj trees others htrees.2 hothers.2 rest rest' h
    exact ⟨by rw [mapAll, mapAll, htree, hall], hafter⟩

end

/-- Two trees are written in one way exactly when they have one shape and the same tokens. -/
theorem write_eq_iff {tree other : OrderedTree α} (htree : Readable marks token tree)
    (hother : Readable marks token other) :
    write marks token tree = write marks token other ↔ tree.map token = other.map token := by
  have hend : Follows marks ([] : List χ) := fun c hc => by cases hc
  refine ⟨fun h => ?_, fun h => ?_⟩
  · exact (write_inj tree other htree hother [] [] hend hend (by rw [h])).1
  · rw [write_eq_map tree, write_eq_map other, h]

end Agentless.Brackets
