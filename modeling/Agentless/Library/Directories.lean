import Agentless.Library.Posix

/-!
# The directories of a tree

The names in a directory, and the directories at and below a place. The latter are the place itself
and, one after the other, those at and below each of its subdirectories, so a walk that replaces a
directory by its subdirectories meets every directory once.
-/

namespace Agentless.Posix.Tree

variable (tree : Tree)

def names (place : Location) : List Name :=
  ((tree.entries.map Prod.fst).filterMap fun entry =>
    if entry.dropLast = place then entry.getLast? else none).dedup

def directories : List Location :=
  ([] :: tree.entries.map Prod.fst).dedup.filter fun place => tree.node place = some .directory

/-- The directories at and below a place. -/
def below (place : Location) : List Location := tree.directories.filter (place.isPrefixOf ·)

def subdirectories (place : Location) : List Location :=
  ((tree.names place).filter fun name => tree.node (place ++ [name]) = some .directory).map
    (place ++ [·])

variable {tree} {place : Location} {name : Name}

theorem isSome_node_iff (hplace : place ≠ []) :
    (tree.node place).isSome ↔ place ∈ tree.entries.map Prod.fst := by
  rw [Tree.node, if_neg hplace, List.lookup_isSome_iff]
  simp

theorem mem_names : name ∈ tree.names place ↔ (tree.node (place ++ [name])).isSome := by
  rw [isSome_node_iff (by simp), names, List.mem_dedup, List.mem_filterMap]
  constructor
  · rintro ⟨entry, hentry, hname⟩
    split_ifs at hname with hplace
    have hwhole := List.dropLast_append_getLast? name hname
    rw [hplace] at hwhole
    rwa [hwhole]
  · exact fun hentry => ⟨_, hentry, by simp⟩

theorem nodup_names : (tree.names place).Nodup := List.nodup_dedup _

theorem mem_directories : place ∈ tree.directories ↔ tree.node place = some .directory := by
  rw [directories, List.mem_filter, List.mem_dedup, decide_eq_true_eq, and_iff_right_iff_imp]
  intro h
  rcases eq_or_ne place [] with rfl | hplace
  · exact List.mem_cons_self
  · exact List.mem_cons_of_mem _ ((isSome_node_iff hplace).mp (by simp [h]))

theorem nodup_directories : tree.directories.Nodup := (List.nodup_dedup _).filter _

theorem length_directories_le : tree.directories.length ≤ tree.entries.length + 1 := by
  refine (List.length_filter_le _ _).trans ((List.dedup_sublist _).length_le.trans ?_)
  simp

theorem mem_below {other : Location} :
    other ∈ tree.below place ↔ place <+: other ∧ tree.node other = some .directory := by
  rw [below, List.mem_filter, mem_directories, List.isPrefixOf_iff_prefix, and_comm]

theorem nodup_below : (tree.below place).Nodup := nodup_directories.filter _

theorem mem_subdirectories {other : Location} :
    other ∈ tree.subdirectories place ↔
      ∃ name, other = place ++ [name] ∧ tree.node (place ++ [name]) = some .directory := by
  simp only [subdirectories, List.mem_map, List.mem_filter, decide_eq_true_eq, mem_names]
  constructor
  · rintro ⟨name, ⟨-, hnode⟩, rfl⟩
    exact ⟨name, rfl, hnode⟩
  · rintro ⟨name, rfl, hnode⟩
    exact ⟨name, ⟨by simp [hnode], hnode⟩, rfl⟩

theorem nodup_subdirectories : (tree.subdirectories place).Nodup :=
  (nodup_names.filter _).map fun _ _ h => by simpa using h

theorem node_of_prefix {other : Location} (h : place <+: other)
    (hother : tree.node other = some .directory) : tree.node place = some .directory := by
  induction other using List.reverseRecOn with
  | nil => rw [List.prefix_nil.mp h, node_nil]
  | append_singleton other name ih =>
    rcases List.prefix_concat_iff.mp h with rfl | h
    · exact hother
    · have hentry : (tree.node (other ++ [name])).isSome := by simp [hother]
      exact ih h (node_of_node_concat hentry)

/-- The directories at and below a directory: itself, and those of its subdirectories. -/
theorem below_perm (h : tree.node place = some .directory) :
    (tree.below place).Perm (place :: (tree.subdirectories place).flatMap tree.below) := by
  refine (List.perm_ext_iff_of_nodup nodup_below ?_).mpr fun other => ?_
  · refine List.nodup_cons.mpr ⟨?_, List.nodup_flatMap.mpr ⟨fun _ _ => nodup_below, ?_⟩⟩
    · intro hmem
      obtain ⟨sub, hsub, hbelow⟩ := List.mem_flatMap.mp hmem
      obtain ⟨name, rfl, -⟩ := mem_subdirectories.mp hsub
      have hlength := (mem_below.mp hbelow).1.length_le
      simp at hlength
    · refine List.Pairwise.imp_of_mem ?_ nodup_subdirectories
      intro sub sub' hsub hsub' hne other hother hother'
      obtain ⟨name, rfl, -⟩ := mem_subdirectories.mp hsub
      obtain ⟨name', rfl, -⟩ := mem_subdirectories.mp hsub'
      have hsame := List.prefix_of_prefix_length_le (mem_below.mp hother).1 (mem_below.mp hother').1
        (by simp)
      exact hne (hsame.eq_of_length (by simp))
  · rw [List.mem_cons, List.mem_flatMap, mem_below]
    constructor
    · rintro ⟨⟨rest, rfl⟩, hother⟩
      cases rest with
      | nil => exact .inl (List.append_nil _)
      | cons name rest =>
        rw [List.append_cons] at hother ⊢
        have hsub := node_of_prefix (List.prefix_append (place ++ [name]) rest) hother
        exact .inr ⟨place ++ [name], mem_subdirectories.mpr ⟨name, rfl, hsub⟩,
          mem_below.mpr ⟨List.prefix_append _ _, hother⟩⟩
    · rintro (rfl | ⟨sub, hsub, hother⟩)
      · exact ⟨List.prefix_refl _, h⟩
      · obtain ⟨name, rfl, -⟩ := mem_subdirectories.mp hsub
        obtain ⟨hpre, hother⟩ := mem_below.mp hother
        exact ⟨(List.prefix_append place [name]).trans hpre, hother⟩

/-! ## Paths of entries -/

section Entries

variable {limit : Nat}

theorem follow_render_directory (h : tree.node place = some .directory) :
    tree.follow true limit [] (parts (render place)) = some place := by
  rcases eq_or_ne place [] with rfl | hplace
  · have hparts : parts (render []) = [[], []] := by decide
    rw [hparts, follow_stay move_nil, follow_stay move_nil, follow_nil]
  · rw [parts_render hplace, follow_stay move_nil, ← List.append_nil (place.map _),
      follow_directory h, follow_nil]

/-- An entry of a directory is the one at its path. -/
theorem lstat_render (h : tree.node place = some .directory) :
    tree.lstat limit (render (place ++ [name])) = tree.node (place ++ [name]) := by
  rw [lstat_render_concat, ← List.append_nil (place.map _), follow_directory h, follow_nil]
  rfl

end Entries

end Agentless.Posix.Tree
