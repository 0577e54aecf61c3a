import Agentless.Library.OrderedTree
import Mathlib.Data.List.Infix

/-!
# Trees of extents

A tree whose nodes have an extent each, the children in order inside their parent. Where a leaf
starts tells which nodes hold it and which come before it, unless the leaf is empty.
-/

namespace Agentless.OrderedTree

variable {α : Type}

/-! ## Order of addresses -/

/-- The addresses part at siblings, the first address at the earlier one. -/
def Before (first second : Address) : Prop :=
  ∃ shared early below late more, first = shared ++ early :: below ∧
    second = shared ++ late :: more ∧ early < late

theorem Before.cons {first second : Address} (h : Before first second) (position : Nat) :
    Before (position :: first) (position :: second) := by
  obtain ⟨shared, early, below, late, more, rfl, rfl, hlt⟩ := h
  exact ⟨position :: shared, early, below, late, more, rfl, rfl, hlt⟩

/-- Two nodes hold one another or one comes before the other. -/
theorem prefix_or_before (first second : Address) :
    first <+: second ∨ second <+: first ∨ Before first second ∨ Before second first := by
  induction first generalizing second with
  | nil => exact .inl second.nil_prefix
  | cons early first ih =>
    cases second with
    | nil => exact .inr (.inl (List.nil_prefix))
    | cons late second =>
      rcases Nat.lt_trichotomy early late with hlt | rfl | hgt
      · exact .inr (.inr (.inl ⟨[], early, first, late, second, rfl, rfl, hlt⟩))
      · rcases ih second with h | h | h | h
        · exact .inl ((List.prefix_cons_inj early).mpr h)
        · exact .inr (.inl ((List.prefix_cons_inj early).mpr h))
        · exact .inr (.inr (.inl (h.cons early)))
        · exact .inr (.inr (.inr (h.cons early)))
      · exact .inr (.inr (.inr ⟨[], late, second, early, first, rfl, rfl, hgt⟩))

theorem Before.not_above {first second : Address} (h : Before first second) :
    ¬ first <+: second := by
  obtain ⟨shared, early, below, late, more, rfl, rfl, hlt⟩ := h
  intro hbegin
  rw [List.prefix_append_right_inj, List.cons_prefix_cons] at hbegin
  omega

theorem Before.append {first second : Address} (h : Before first second) (below : Address) :
    Before (first ++ below) second := by
  obtain ⟨shared, early, more, late, rest, rfl, rfl, hlt⟩ := h
  exact ⟨shared, early, more ++ below, late, rest, by simp, rfl, hlt⟩

/-- What comes behind a node and not behind one that holds it parts from it inside the holder. -/
theorem before_inside_iff {holder first second : Address} (h : holder <+: first) :
    Before first second ∧ ¬ Before holder second ↔
      ∃ shared early below late more, first = shared ++ early :: below ∧
        second = shared ++ late :: more ∧ early < late ∧ holder <+: shared := by
  constructor
  · rintro ⟨⟨shared, early, below, late, more, rfl, rfl, hlt⟩, hnot⟩
    refine ⟨shared, early, below, late, more, rfl, rfl, hlt, ?_⟩
    rcases List.prefix_or_prefix_of_prefix h (List.prefix_append shared _) with hin | ⟨rest, rfl⟩
    · exact hin
    · rw [List.prefix_append_right_inj] at h
      cases rest with
      | nil => simp
      | cons position rest =>
        obtain ⟨rfl, -⟩ := List.cons_prefix_cons.mp h
        exact absurd ⟨shared, position, rest, late, more, rfl, rfl, hlt⟩ hnot
  · rintro ⟨shared, early, below, late, more, rfl, rfl, hlt, hin⟩
    refine ⟨⟨shared, early, below, late, more, rfl, rfl, hlt⟩, ?_⟩
    intro hbefore
    exact hbefore.not_above (hin.trans (List.prefix_append shared _))

/-- The nodes that hold the node, the nearest first. -/
def ancestorsOf (address : Address) : List Address :=
  (List.range address.length).reverse.map address.take

theorem mem_ancestorsOf {above address : Address} :
    above ∈ ancestorsOf address ↔ above <+: address ∧ above ≠ address := by
  rw [ancestorsOf, List.mem_map]
  constructor
  · rintro ⟨length, hlength, rfl⟩
    have hlt : length < address.length := by simpa using hlength
    refine ⟨List.take_prefix length address, ?_⟩
    intro heq
    have := congrArg List.length heq
    grind
  · rintro ⟨hbegin, hne⟩
    have hlt : above.length < address.length :=
      Nat.lt_of_le_of_ne hbegin.length_le fun heq => hne (hbegin.eq_of_length heq)
    exact ⟨above.length, by simpa using hlt, (List.prefix_iff_eq_take.mp hbegin).symm⟩

theorem ancestorsOf_pairwise (address : Address) :
    (ancestorsOf address).Pairwise fun near far => far.length < near.length := by
  rw [ancestorsOf, List.pairwise_map, List.pairwise_reverse]
  refine List.Pairwise.imp_of_mem ?_ List.pairwise_lt_range
  intro short long hshort hlong hlt
  have := List.mem_range.mp hlong
  rw [List.length_take, List.length_take]
  omega

/-- The nearest ancestor that meets a condition. -/
theorem find?_ancestorsOf_eq_some_iff {p : Address → Bool} {above address : Address} :
    (ancestorsOf address).find? p = some above ↔ above <+: address ∧ above ≠ address ∧ p above ∧
      ∀ near, above <+: near → near ≠ above → near <+: address → near ≠ address →
        p near = false := by
  have hnear (found : Address) (h : (ancestorsOf address).find? p = some found) :
      found <+: address ∧ found ≠ address ∧ p found ∧ ∀ near, found <+: near → near ≠ found →
        near <+: address → near ≠ address → p near = false := by
    obtain ⟨hp, first, rest, hsplit, hfirst⟩ := List.find?_eq_some_iff_append.mp h
    have hmem := mem_ancestorsOf.mp (List.mem_of_find?_eq_some h)
    refine ⟨hmem.1, hmem.2, hp, ?_⟩
    intro near hbegin hne hnear hne'
    have hin : near ∈ first ++ found :: rest := hsplit ▸ mem_ancestorsOf.mpr ⟨hnear, hne'⟩
    have horder := ancestorsOf_pairwise address
    rw [hsplit, List.pairwise_append] at horder
    rcases List.mem_append.mp hin with hin | hin
    · simpa using hfirst near hin
    · rcases List.mem_cons.mp hin with rfl | hin
      · exact absurd rfl hne
      · have hshort := (List.pairwise_cons.mp horder.2.1).1 near hin
        have := hbegin.length_le
        omega
  refine ⟨hnear above, ?_⟩
  rintro ⟨hbegin, hne, hp, hbetween⟩
  cases hfound : (ancestorsOf address).find? p with
  | none =>
    have := List.find?_eq_none.mp hfound above (mem_ancestorsOf.mpr ⟨hbegin, hne⟩)
    exact absurd hp this
  | some found =>
    obtain ⟨hfbegin, hfne, hfp, hfbetween⟩ := hnear found hfound
    by_cases heq : found = above
    · rw [heq]
    · rcases List.prefix_or_prefix_of_prefix hfbegin hbegin with h | h
      · have := hfbetween above h (Ne.symm heq) hbegin hne
        simp [hp] at this
      · have := hbetween found h heq hfbegin hfne
        simp [hfp] at this

/-! ## Children and descendants -/

@[simp] theorem parentOf_concat (address : Address) (position : Nat) :
    parentOf (address ++ [position]) = some address := by
  simp [parentOf]

theorem parentOf_eq_some {address above : Address} (h : parentOf address = some above) :
    ∃ position, address = above ++ [position] := by
  rcases List.eq_nil_or_concat address with rfl | ⟨before, position, rfl⟩
  · cases h
  · rw [List.concat_eq_append, parentOf_concat] at h
    exact ⟨position, by rw [← Option.some.inj h, List.concat_eq_append]⟩

theorem isSome_at?_above {tree : OrderedTree α} {above address : Address}
    (hbegin : above <+: address) (h : (tree.at? address).isSome) : (tree.at? above).isSome := by
  obtain ⟨below, rfl⟩ := hbegin
  rw [at?_append] at h
  exact Option.isSome_of_isSome_bind h

theorem mem_childrenOf {tree : OrderedTree α} {address child : Address} :
    child ∈ tree.childrenOf address ↔
      ∃ position, child = address ++ [position] ∧ (tree.at? child).isSome := by
  rw [childrenOf, List.mem_map]
  constructor
  · rintro ⟨position, hposition, rfl⟩
    refine ⟨position, rfl, ?_⟩
    cases hat : tree.at? address with
    | none => simp [hat] at hposition
    | some subtree =>
      rw [at?_concat hat]
      simpa [hat] using hposition
  · rintro ⟨position, rfl, hchild⟩
    refine ⟨position, ?_, rfl⟩
    obtain ⟨subtree, hat⟩ := Option.isSome_iff_exists.mp
      (isSome_at?_above (List.prefix_append address [position]) hchild)
    rw [at?_concat hat] at hchild
    simpa [hat] using hchild

theorem mem_descendantsOf {tree : OrderedTree α} {address below : Address} :
    below ∈ tree.descendantsOf address ↔ address <+: below ∧ (tree.at? below).isSome := by
  rw [descendantsOf, List.mem_map]
  constructor
  · rintro ⟨steps, hsteps, rfl⟩
    refine ⟨List.prefix_append address steps, ?_⟩
    cases hat : tree.at? address with
    | none => simp [hat] at hsteps
    | some subtree =>
      rw [at?_append, hat, Option.bind_some]
      simpa [hat, mem_addresses] using hsteps
  · rintro ⟨⟨steps, rfl⟩, hbelow⟩
    refine ⟨steps, ?_, rfl⟩
    rw [at?_append] at hbelow
    obtain ⟨subtree, hat⟩ := Option.isSome_iff_exists.mp (Option.isSome_of_isSome_bind hbelow)
    rw [hat, Option.bind_some] at hbelow
    simpa [hat, mem_addresses] using hbelow

/-! ## Extents in order -/

section Extents

variable (start stop : α → Nat)

mutual

/-- The extents of the children follow each other inside the node's. -/
def Laid : OrderedTree α → Prop
  | .node label children => LaidFrom (start label) (stop label) children

def LaidFrom (low high : Nat) : List (OrderedTree α) → Prop
  | [] => low ≤ high
  | tree :: trees =>
    low ≤ start tree.label ∧ Laid tree ∧ LaidFrom (stop tree.label) high trees

end

variable {start stop} {tree : OrderedTree α}

theorem laid_iff : Laid start stop tree ↔
    LaidFrom start stop (start tree.label) (stop tree.label) tree.children := by
  cases tree
  rfl

theorem laidFrom_cons {low high : Nat} {trees : List (OrderedTree α)} :
    LaidFrom start stop low high (tree :: trees) ↔ low ≤ start tree.label ∧
      Laid start stop tree ∧ LaidFrom start stop (stop tree.label) high trees := Iff.rfl

mutual

theorem Laid.le : {tree : OrderedTree α} → Laid start stop tree →
    start tree.label ≤ stop tree.label
  | .node _ _, h => LaidFrom.le h

theorem LaidFrom.le {low high : Nat} : {trees : List (OrderedTree α)} →
    LaidFrom start stop low high trees → low ≤ high
  | [], h => h
  | _ :: _, ⟨hlow, hlaid, hrest⟩ => hlow.trans (hlaid.le.trans hrest.le)

end

theorem LaidFrom.get {low high position : Nat} {trees : List (OrderedTree α)}
    (h : LaidFrom start stop low high trees) (ht : trees[position]? = some tree) :
    low ≤ start tree.label ∧ Laid start stop tree ∧ stop tree.label ≤ high := by
  induction trees generalizing low position with
  | nil => grind
  | cons first trees ih =>
    rw [laidFrom_cons] at h
    cases position with
    | zero =>
      obtain rfl : first = tree := by simpa using ht
      exact ⟨h.1, h.2.1, h.2.2.le⟩
    | succ position =>
      obtain ⟨hlow, hlaid, hhigh⟩ := ih h.2.2 (by simpa using ht)
      exact ⟨h.1.trans (h.2.1.le.trans hlow), hlaid, hhigh⟩

theorem LaidFrom.apart {low high early late : Nat} {first second : OrderedTree α}
    {trees : List (OrderedTree α)} (h : LaidFrom start stop low high trees)
    (hfirst : trees[early]? = some first) (hsecond : trees[late]? = some second)
    (hlt : early < late) : stop first.label ≤ start second.label := by
  induction trees generalizing low early late with
  | nil => grind
  | cons head trees ih =>
    rw [laidFrom_cons] at h
    obtain ⟨late, rfl⟩ : ∃ before, late = before + 1 := ⟨late - 1, by omega⟩
    have hrest : trees[late]? = some second := by simpa using hsecond
    cases early with
    | zero =>
      obtain rfl : head = first := by simpa using hfirst
      exact (h.2.2.get hrest).1
    | succ early =>
      exact ih h.2.2 (by simpa using hfirst) hrest (Nat.lt_of_succ_lt_succ hlt)

/-- A node below lies inside. -/
theorem Laid.inside (h : Laid start stop tree) {address : Address} {subtree : OrderedTree α}
    (hat : tree.at? address = some subtree) : Laid start stop subtree ∧
      start tree.label ≤ start subtree.label ∧ stop subtree.label ≤ stop tree.label := by
  induction address generalizing tree with
  | nil =>
    obtain rfl : tree = subtree := by simpa using hat
    exact ⟨h, le_rfl, le_rfl⟩
  | cons position address ih =>
    rw [at?_cons] at hat
    obtain ⟨child, hchild, hbelow⟩ := Option.bind_eq_some_iff.mp hat
    obtain ⟨hlow, hlaid, hhigh⟩ := (laid_iff.mp h).get hchild
    obtain ⟨hsub, hstart, hstop⟩ := ih hlaid hbelow
    exact ⟨hsub, hlow.trans hstart, hstop.trans hhigh⟩

variable {first second : Address} {x y : OrderedTree α}

theorem Laid.within (h : Laid start stop tree) (hx : tree.at? first = some x)
    (hy : tree.at? second = some y) (hbegin : first <+: second) :
    start x.label ≤ start y.label ∧ stop y.label ≤ stop x.label := by
  obtain ⟨below, rfl⟩ := hbegin
  rw [at?_append, hx] at hy
  exact ((h.inside hx).1.inside hy).2

/-- A node ends before a later one starts. -/
theorem Laid.before (h : Laid start stop tree) (hx : tree.at? first = some x)
    (hy : tree.at? second = some y) (hbefore : Before first second) :
    stop x.label ≤ start y.label := by
  obtain ⟨shared, early, below, late, more, rfl, rfl, hlt⟩ := hbefore
  rw [at?_append] at hx hy
  obtain ⟨holder, hholder, hx⟩ := Option.bind_eq_some_iff.mp hx
  rw [hholder, Option.bind_some, at?_cons] at hy
  rw [at?_cons] at hx
  obtain ⟨left, hleft, hx⟩ := Option.bind_eq_some_iff.mp hx
  obtain ⟨right, hright, hy⟩ := Option.bind_eq_some_iff.mp hy
  have hlaid := laid_iff.mp (h.inside hholder).1
  calc stop x.label
    _ ≤ stop left.label := ((hlaid.get hleft).2.1.inside hx).2.2
    _ ≤ start right.label := hlaid.apart hleft hright hlt
    _ ≤ start y.label := ((hlaid.get hright).2.1.inside hy).2.1

/-! ## Leaves that are not empty -/

theorem eq_of_leaf (hy : tree.at? second = some y) (hleaf : y.children = [])
    (hx : tree.at? first = some x) (hbegin : second <+: first) : first = second := by
  obtain ⟨below, rfl⟩ := hbegin
  cases below with
  | nil => simp
  | cons position below =>
    rw [at?_append, hy, Option.bind_some, at?_cons, hleaf] at hx
    simp at hx

/-- A leaf starts behind a node exactly when the node comes before it. -/
theorem Laid.stop_le_iff (h : Laid start stop tree) (hx : tree.at? first = some x)
    (hy : tree.at? second = some y) (hleaf : y.children = [])
    (hwide : start y.label < stop y.label) :
    stop x.label ≤ start y.label ↔ Before first second := by
  refine ⟨?_, h.before hx hy⟩
  intro hle
  have hxle := (h.inside hx).1.le
  rcases prefix_or_before first second with hin | hin | hbefore | hafter
  · have := (h.within hx hy hin).2
    omega
  · obtain rfl := eq_of_leaf hy hleaf hx hin
    obtain rfl : x = y := Option.some.inj (hx.symm.trans hy)
    omega
  · exact hbefore
  · have := h.before hy hx hafter
    omega

/-- A leaf starts inside a node exactly when the node holds it. -/
theorem Laid.starts_in_iff (h : Laid start stop tree) (hx : tree.at? first = some x)
    (hy : tree.at? second = some y) (hleaf : y.children = [])
    (hwide : start y.label < stop y.label) :
    start x.label ≤ start y.label ∧ start y.label < stop x.label ↔ first <+: second := by
  rw [← Nat.not_le, h.stop_le_iff hx hy hleaf hwide]
  constructor
  · rintro ⟨hle, hnot⟩
    rcases prefix_or_before first second with hin | hin | hbefore | hafter
    · exact hin
    · rw [eq_of_leaf hy hleaf hx hin]
    · exact absurd hbefore hnot
    · have := h.before hy hx hafter
      omega
  · intro hin
    exact ⟨(h.within hx hy hin).1, fun hbefore => hbefore.not_above hin⟩

end Extents

end Agentless.OrderedTree
