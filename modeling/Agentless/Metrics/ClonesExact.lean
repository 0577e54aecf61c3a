import Agentless.Graph.Lookup
import Agentless.Library.Brackets
import Agentless.Library.Sequence
import Agentless.Metrics.Clones

/-!
# The Type-2 key is equality up to names

What a walk writes for the Type-2 key is the abstracted tree in brackets, with each identifier as
the number of its first use. The tree is read back from it, so two keys are equal exactly when a
bijection of the identifiers makes the one abstracted tree into the other.
-/

namespace Agentless.Metrics.Clones

open OrderedTree Brackets

/-- What is left of a node that is no identifier. -/
inductive Fixed where
  | literal (literal : LiteralClass)
  | kind (name : Text)
deriving DecidableEq, Repr

abbrev Abstracted : Type := OrderedTree (Text ⊕ Fixed)

section Abstraction

variable (tables : Tables)

mutual

/-- The tree without comments and docstring statements, its identifiers as leaves with their texts
and its literals as leaves with their classes. -/
def abstracted : Tree → Abstracted
  | .node data children =>
    if tables.spec.clones.identifiers.contains data.kind then .node (.inl data.text) []
    else
      match tables.spec.clones.literalClass data.kind with
      | some literal => .node (.inr (.literal literal)) []
      | none => .node (.inr (.kind (tables.kindName data.kind))) (abstractedKept data children)

def abstractedKept (parent : Node) : List Tree → List Abstracted
  | [] => []
  | child :: children =>
    if keeps tables parent child then abstracted child :: abstractedKept parent children
    else abstractedKept parent children

end

theorem abstractedKept_eq (parent : Node) (children : List Tree) :
    abstractedKept tables parent children =
      (children.filter (keeps tables parent)).map (abstracted tables) := by
  induction children with
  | nil => rfl
  | cons child children ih =>
    rw [abstractedKept, List.filter_cons]
    split_ifs
    · rw [List.map_cons, ih]
    · exact ih

end Abstraction

/-! ## What is written -/

def textMarks : Marks Char where
  opening := '('
  comma := ','
  closing := ')'
  opening_ne_comma := by decide
  opening_ne_closing := by decide
  comma_ne_closing := by decide

/-- The piece of a node, with the identifiers numbered from one. -/
def spell : Nat ⊕ Fixed → Text
  | .inl number => varLabel (number + 1)
  | .inr (.literal literal) => '$' :: literal.text
  | .inr (.kind name) => name

mutual

/-- How many nodes have no children. -/
def leaves : Abstracted → Nat
  | .node _ [] => 1
  | .node _ (child :: children) => leaves child + leavesAll children

def leavesAll : List Abstracted → Nat
  | [] => 0
  | tree :: trees => leaves tree + leavesAll trees

end

def namesAll (trees : List Abstracted) : List Text := (labelsAll trees).filterMap Sum.getLeft?

theorem namesAll_cons (tree : Abstracted) (trees : List Abstracted) :
    namesAll (tree :: trees) = tree.names ++ namesAll trees := by
  rw [namesAll, labelsAll, List.filterMap_append]
  rfl

/-- What a walk has used and written. -/
structure Seen where
  used : List Text
  text : Text
  tokens : Nat

def Seen.piece (seen : Seen) (piece : Text) : Seen := { seen with text := seen.text ++ piece }

def Seen.visit (seen : Seen) (tree : Abstracted) : Seen where
  used := extend seen.used tree.names
  text := seen.text ++ write textMarks (spell ∘ number (extend seen.used tree.names)) tree
  tokens := seen.tokens + leaves tree

def Seen.visitRest (seen : Seen) (trees : List Abstracted) : Seen where
  used := extend seen.used (namesAll trees)
  text := seen.text ++
    writeRest textMarks (spell ∘ number (extend seen.used (namesAll trees))) trees
  tokens := seen.tokens + leavesAll trees

theorem write_extend (used more : List Text) (tree : Abstracted) :
    write textMarks (spell ∘ number (extend (extend used tree.names) more)) tree =
      write textMarks (spell ∘ number (extend used tree.names)) tree := by
  have hnames : ∀ x ∈ tree.names, x ∈ extend used tree.names := fun x hx =>
    mem_extend.mpr (.inr hx)
  have hshort : write textMarks (spell ∘ number (extend used tree.names)) tree =
      write textMarks id (tree.map (spell ∘ number (extend used tree.names))) := write_eq_map tree
  rw [write_eq_map tree, hshort, ← map_map, ← map_map, map_number_extend nodup_extend hnames]

/-- The first of the siblings, and then the rest of them. -/
theorem Seen.visitRest_cons (seen : Seen) (tree : Abstracted) (trees : List Abstracted) :
    seen.visitRest (tree :: trees) = ((seen.piece ",".toList).visit tree).visitRest trees := by
  have hstable := write_extend seen.used (namesAll trees) tree
  unfold Seen.visitRest Seen.visit Seen.piece
  rw [namesAll_cons, extend_append, writeRest, leavesAll, hstable]
  simp [textMarks, Nat.add_assoc]

theorem Seen.visit_node (seen : Seen) (name : Text) (child : Abstracted)
    (children : List Abstracted) :
    seen.visit (.node (.inr (.kind name)) (child :: children)) =
      ((seen.piece (name ++ ['('])).visit child).visitRest children := by
  have hnames : names (.node (.inr (.kind name)) (child :: children)) =
      child.names ++ namesAll children := namesAll_cons child children
  have hstable := write_extend seen.used (namesAll children) child
  unfold Seen.visitRest Seen.visit Seen.piece
  rw [hnames, extend_append, write, writeChildren, leaves, hstable]
  simp [textMarks, spell, number, Nat.add_assoc]

/-! ## The walk -/

/-- The label of each used name. -/
def labelTable (used : List Text) : List (Text × Text) :=
  used.mapIdx fun slot name => (name, varLabel (slot + 1))

theorem map_fst_labelTable (used : List Text) : (labelTable used).map Prod.fst = used := by
  refine List.ext_getElem? fun slot => ?_
  rw [List.getElem?_map, labelTable, List.getElem?_mapIdx, Option.map_map]
  cases used[slot]? <;> rfl

theorem labelTable_concat (used : List Text) (name : Text) :
    labelTable (used ++ [name]) = labelTable used ++ [(name, varLabel (used.length + 1))] := by
  simp [labelTable, List.mapIdx_append]

theorem lookup_labelTable {used : List Text} (h : used.Nodup) {slot : Nat} {name : Text}
    (hat : used[slot]? = some name) :
    (labelTable used).lookup name = some (varLabel (slot + 1)) := by
  have hkeys : ((labelTable used).map Prod.fst).Nodup := by rwa [map_fst_labelTable]
  refine (Assoc.mem_iff_lookup hkeys).mp (List.mem_of_getElem? (i := slot) ?_)
  rw [labelTable, List.getElem?_mapIdx, hat]
  rfl

/-- The streams hold what was used and written. -/
structure Streams.Shows (streams : Streams) (seen : Seen) : Prop where
  names : streams.names = labelTable seen.used
  separator : streams.type2.separator = []
  text : streams.type2.text = seen.text
  tokens : streams.tokens = seen.tokens
  nodup : seen.used.Nodup

theorem Joined.text_piece {joined : Joined} (h : joined.separator = []) (piece : Text) :
    (joined.piece piece).text = joined.text ++ piece := by
  simp [Joined.piece, h]

theorem Joined.separator_piece (joined : Joined) (piece : Text) :
    (joined.piece piece).separator = joined.separator := rfl

theorem Streams.Shows.piece {streams : Streams} {seen : Seen} (h : streams.Shows seen)
    (piece : Text) : (streams.piece piece).Shows (seen.piece piece) where
  names := h.names
  separator := h.separator
  text := by rw [Streams.piece, Joined.text_piece h.separator, h.text, Seen.piece]
  tokens := h.tokens
  nodup := h.nodup

theorem Streams.Shows.label {streams : Streams} {seen : Seen} (h : streams.Shows seen)
    (name : Text) :
    streams.label name = (spell (number (extend seen.used [name]) (.inl name)),
      labelTable (extend seen.used [name])) := by
  unfold Streams.label
  rw [h.names]
  by_cases hused : name ∈ seen.used
  · obtain ⟨slot, hat⟩ := List.mem_iff_getElem?.mp hused
    rw [lookup_labelTable h.nodup hat, extend_of_mem h.nodup hused,
      number_of_getElem? h.nodup hat]
    rfl
  · have hnodup : (extend seen.used [name]).Nodup := nodup_extend
    have hlast : (extend seen.used [name])[seen.used.length]? = some name := by
      rw [extend_of_notMem h.nodup hused]
      simp
    have hlength : (labelTable seen.used).length = seen.used.length := by simp [labelTable]
    rw [Assoc.lookup_eq_none (by rwa [map_fst_labelTable]), number_of_getElem? hnodup hlast,
      extend_of_notMem h.nodup hused, labelTable_concat, hlength]
    rfl

section Visits

variable {tables : Tables}

/-- From any streams the walk of the tree writes what a visit writes. -/
def Visits (tables : Tables) (tree : Tree) : Prop :=
  ∀ (streams : Streams) (seen : Seen) (stack : List Item), streams.Shows seen →
    ∃ next : Streams, next.Shows (seen.visit (abstracted tables tree)) ∧
      walk tables streams (.node tree :: stack) = walk tables next stack

theorem walk_token (streams : Streams) (text : Text) (stack : List Item) :
    walk tables streams (.token text :: stack) = walk tables (streams.piece text) stack := by
  rw [walk]

theorem walk_node (streams : Streams) (node : Tree) (stack : List Item) :
    walk tables streams (.node node :: stack) =
      walk tables (streams.node tables node stack).1 (streams.node tables node stack).2 := by
  rw [walk]

theorem walk_restItems {children : List Tree} (h : ∀ child ∈ children, Visits tables child)
    (streams : Streams) (seen : Seen) (stack : List Item) (hshows : streams.Shows seen) :
    ∃ next : Streams, next.Shows (seen.visitRest (children.map (abstracted tables))) ∧
      walk tables streams (restItems children ++ stack) = walk tables next stack := by
  induction children generalizing streams seen with
  | nil =>
    refine ⟨streams.piece ")".toList, ?_, walk_token streams _ stack⟩
    have hclosed := hshows.piece ")".toList
    refine ⟨hclosed.names.trans ?_, hclosed.separator, hclosed.text, hclosed.tokens, nodup_extend⟩
    exact congrArg labelTable (extend_nil hshows.nodup).symm
  | cons child children ih =>
    obtain ⟨hchild, hchildren⟩ := List.forall_mem_cons.mp h
    obtain ⟨middle, hmiddle, hwalk⟩ := hchild (streams.piece ",".toList) (seen.piece ",".toList)
      (restItems children ++ stack) (hshows.piece ",".toList)
    obtain ⟨next, hnext, hrest⟩ := ih hchildren middle _ hmiddle
    refine ⟨next, ?_, ?_⟩
    · rw [List.map_cons, Seen.visitRest_cons]
      exact hnext
    · rw [restItems, List.cons_append, List.cons_append, walk_token, hwalk, hrest]

theorem Streams.Shows.visit_leaf {streams : Streams} {seen : Seen} (h : streams.Shows seen)
    (fixed : Fixed) {next : Streams} (hnames : next.names = streams.names)
    (htype2 : next.type2 = streams.type2.piece (spell (.inr fixed)))
    (htokens : next.tokens = streams.tokens + 1) :
    next.Shows (seen.visit (.node (.inr fixed) [])) where
  names := by
    rw [hnames, h.names]
    exact congrArg labelTable (extend_nil h.nodup).symm
  separator := by rw [htype2, Joined.separator_piece, h.separator]
  text := by
    rw [htype2, Joined.text_piece h.separator, h.text, Seen.visit, write, writeChildren]
    simp [number]
  tokens := by rw [htokens, h.tokens, Seen.visit, leaves]
  nodup := nodup_extend

theorem visits_node (data : Node) {children : List Tree}
    (h : ∀ child ∈ children, Visits tables child) : Visits tables (.node data children) := by
  intro streams seen stack hshows
  rw [walk_node, abstracted]
  unfold Streams.node
  dsimp only [OrderedTree.label]
  by_cases hidentifier : tables.spec.clones.identifiers.contains data.kind = true
  · rw [if_pos hidentifier, if_pos hidentifier, hshows.label]
    refine ⟨_, ⟨rfl, ?_, ?_, ?_, nodup_extend⟩, rfl⟩
    · exact hshows.separator
    · dsimp only
      rw [Joined.text_piece hshows.separator, hshows.text, Seen.visit, write, writeChildren,
        List.append_nil]
      rfl
    · exact congrArg (· + 1) hshows.tokens
  · rw [if_neg hidentifier, if_neg hidentifier]
    cases tables.spec.clones.literalClass data.kind with
    | some literal =>
      refine ⟨_, ?_, rfl⟩
      exact hshows.visit_leaf (.literal literal) rfl rfl rfl
    | none =>
      have hkept : ∀ child ∈ keptChildren tables (.node data children), Visits tables child :=
        fun child hchild => h child (List.mem_of_mem_filter hchild)
      have heq : abstractedKept tables data children =
          (keptChildren tables (.node data children)).map (abstracted tables) :=
        abstractedKept_eq tables data children
      dsimp only
      rw [heq]
      cases hchildren : keptChildren tables (.node data children) with
      | nil =>
        refine ⟨_, ?_, rfl⟩
        exact hshows.visit_leaf (.kind (tables.kindName data.kind)) rfl rfl rfl
      | cons child rest =>
        rw [hchildren] at hkept
        obtain ⟨hchild, hrest⟩ := List.forall_mem_cons.mp hkept
        rw [List.isEmpty_cons, if_neg Bool.false_ne_true, pushOpened_cons, List.map_cons,
          Seen.visit_node]
        obtain ⟨middle, hmiddle, hwalk⟩ := hchild _ _ (restItems rest ++ stack)
          (hshows.piece (tables.kindName data.kind ++ ['(']))
        obtain ⟨next, hnext, hdone⟩ := walk_restItems hrest middle _ stack hmiddle
        exact ⟨next, hnext, hwalk.trans hdone⟩

mutual

theorem visits : (tree : Tree) → Visits tables tree
  | .node data children => visits_node data (visitsAll children)

theorem visitsAll : (trees : List Tree) → ∀ tree ∈ trees, Visits tables tree
  | [], _, h => nomatch h
  | first :: trees, tree, h =>
    (List.mem_cons.mp h).elim (fun heq => heq ▸ visits first) (visitsAll trees tree)

end

/-- The Type-2 text is the numbered abstracted tree in brackets. -/
theorem walk_root (root : Tree) :
    (walk tables Streams.new [.node root]).type2.text =
        write textMarks spell (abstracted tables root).numbered ∧
      (walk tables Streams.new [.node root]).tokens = leaves (abstracted tables root) := by
  have hnew : Streams.new.Shows ⟨[], [], 0⟩ := ⟨rfl, rfl, rfl, rfl, List.nodup_nil⟩
  obtain ⟨next, hnext, hwalk⟩ := visits root Streams.new _ [] hnew
  rw [hwalk, walk]
  refine ⟨hnext.text.trans ?_, hnext.tokens.trans (Nat.zero_add _)⟩
  rw [Seen.visit, write_eq_map, ← map_map]
  exact (write_eq_map _).symm

end Visits

/-! ## Reading the key back -/

section Legible

variable (tables : Tables)

/-- The name of the kind is plain and no label, or it is one mark and names a leaf. -/
structure LegibleNode (node : Tree) : Prop where
  ne_nil : tables.kindName node.label.kind ≠ []
  no_label : (tables.kindName node.label.kind).head? ≠ some '$'
  marks : (∀ c ∈ tables.kindName node.label.kind, ¬ textMarks.Is c) ∨
    (∃ mark, textMarks.Is mark ∧ tables.kindName node.label.kind = [mark]) ∧ node.children = []

def Legible (root : Tree) : Prop :=
  ∀ (address : Address) (node : Tree), root.at? address = some node → LegibleNode tables node

end Legible

section Reading

variable {tables : Tables}

theorem legible_node_iff {data : Node} {children : List Tree} :
    Legible tables (.node data children) ↔
      LegibleNode tables (.node data children) ∧ ∀ child ∈ children, Legible tables child := by
  constructor
  · intro h
    refine ⟨h [] _ (at?_nil _), fun child hchild address node hat => ?_⟩
    obtain ⟨position, hposition⟩ := List.mem_iff_getElem?.mp hchild
    refine h (position :: address) node ?_
    rw [at?_cons, OrderedTree.children, hposition]
    exact hat
  · rintro ⟨hroot, hchildren⟩ address node hat
    cases address with
    | nil =>
      obtain rfl : OrderedTree.node data children = node := by simpa using hat
      exact hroot
    | cons position address =>
      rw [at?_cons] at hat
      obtain ⟨child, hchild, hbelow⟩ := Option.bind_eq_some_iff.mp hat
      exact hchildren child (List.mem_of_getElem? hchild) address node hbelow

theorem plain_varLabel (number : Nat) : Plain textMarks (varLabel number) := by
  refine ⟨by simp [varLabel], fun c hc => ?_⟩
  obtain hc | hc := List.mem_append.mp hc
  · have hlabel : ∀ c ∈ "$VAR".toList, ¬ textMarks.Is c := by simp [Marks.Is, textMarks]
    exact hlabel c hc
  · have hdigit := Nat.isDigit_of_mem_toDigits (by decide) (by decide) hc
    rintro (rfl | rfl | rfl) <;> exact absurd hdigit (by decide)

theorem plain_literal (literal : LiteralClass) :
    Plain textMarks (spell (.inr (.literal literal))) := by
  refine ⟨by simp [spell], ?_⟩
  cases literal <;> simp [spell, LiteralClass.text, Marks.Is, textMarks]

mutual

theorem readable_abstracted (used : List Text) : (tree : Tree) → Legible tables tree →
    Readable textMarks (spell ∘ number used) (abstracted tables tree)
  | .node data children, h => by
    obtain ⟨hnode, hchildren⟩ := legible_node_iff.mp h
    rw [abstracted]
    split_ifs
    · exact ⟨.inl (plain_varLabel _), trivial⟩
    · cases tables.spec.clones.literalClass data.kind with
      | some literal => exact ⟨.inl (plain_literal literal), trivial⟩
      | none =>
        refine ⟨?_, readable_abstractedKept used data children hchildren⟩
        obtain hplain | ⟨hmark, hleaf⟩ := hnode.marks
        · exact .inl ⟨hnode.ne_nil, hplain⟩
        · obtain rfl : children = [] := hleaf
          exact .inr ⟨hmark, rfl⟩

theorem readable_abstractedKept (used : List Text) (parent : Node) : (trees : List Tree) →
    (∀ tree ∈ trees, Legible tables tree) →
    ReadableAll textMarks (spell ∘ number used) (abstractedKept tables parent trees)
  | [], _ => trivial
  | tree :: trees, h => by
    obtain ⟨htree, htrees⟩ := List.forall_mem_cons.mp h
    have hrest := readable_abstractedKept used parent trees htrees
    rw [abstractedKept]
    split_ifs
    · exact ⟨readable_abstracted used tree htree, hrest⟩
    · exact hrest

end

mutual

/-- No kind that is left begins like a label. -/
theorem no_label_abstracted {name : Text} : (tree : Tree) → Legible tables tree →
    .inr (.kind name) ∈ (abstracted tables tree).labels → name.head? ≠ some '$'
  | .node data children, h, hname => by
    obtain ⟨hnode, hchildren⟩ := legible_node_iff.mp h
    rw [abstracted] at hname
    split_ifs at hname
    · simp [labels, labelsAll] at hname
    · cases hliteral : tables.spec.clones.literalClass data.kind with
      | some literal =>
        rw [hliteral] at hname
        simp [labels, labelsAll] at hname
      | none =>
        rw [hliteral] at hname
        obtain hroot | hbelow := List.mem_cons.mp hname
        · obtain rfl := Fixed.kind.inj (Sum.inr.inj hroot)
          exact hnode.no_label
        · exact no_label_abstractedKept data children hchildren hbelow

theorem no_label_abstractedKept {name : Text} (parent : Node) : (trees : List Tree) →
    (∀ tree ∈ trees, Legible tables tree) →
    .inr (.kind name) ∈ labelsAll (abstractedKept tables parent trees) → name.head? ≠ some '$'
  | [], _, hname => nomatch hname
  | tree :: trees, h, hname => by
    obtain ⟨htree, htrees⟩ := List.forall_mem_cons.mp h
    rw [abstractedKept] at hname
    split_ifs at hname
    · obtain hname | hname := List.mem_append.mp hname
      · exact no_label_abstracted tree htree hname
      · exact no_label_abstractedKept parent trees htrees hname
    · exact no_label_abstractedKept parent trees htrees hname

end

theorem varLabel_inj {number other : Nat} (h : varLabel number = varLabel other) :
    number = other := by
  have hdigits := List.append_cancel_left h
  rw [← @Nat.ofDigitChars_ten_toDigits number, hdigits, Nat.ofDigitChars_ten_toDigits]

theorem spell_cases (label : Nat ⊕ Fixed) :
    (∃ name, label = .inr (.kind name)) ∨ (spell label).head? = some '$' := by
  obtain number | literal | name := label
  · exact .inr rfl
  · exact .inr rfl
  · exact .inl ⟨name, rfl⟩

theorem spell_inj {label other : Nat ⊕ Fixed}
    (hlabel : ∀ name, label = .inr (.kind name) → name.head? ≠ some '$')
    (hother : ∀ name, other = .inr (.kind name) → name.head? ≠ some '$')
    (h : spell label = spell other) : label = other := by
  obtain ⟨name, rfl⟩ | hstart := spell_cases label
  · obtain ⟨name', rfl⟩ | hstart' := spell_cases other
    · exact congrArg (Sum.inr ∘ Fixed.kind) h
    · exact absurd ((congrArg List.head? h).trans hstart') (hlabel name rfl)
  · obtain ⟨name', rfl⟩ | hstart' := spell_cases other
    · exact absurd ((congrArg List.head? h).symm.trans hstart) (hother name' rfl)
    · obtain number | literal | name := label
      · obtain number' | literal' | name' := other
        · exact congrArg Sum.inl (Nat.succ_injective (varLabel_inj h))
        · cases literal' <;> simp [spell, varLabel, LiteralClass.text] at h
        · exact absurd hstart' (hother name' rfl)
      · obtain number' | literal' | name' := other
        · cases literal <;> simp [spell, varLabel, LiteralClass.text] at h
        · have htext : literal.text = literal'.text := (List.cons.inj h).2
          cases literal <;> cases literal' <;> first | rfl | exact absurd htext (by decide)
        · exact absurd hstart' (hother name' rfl)
      · exact absurd hstart (hlabel name rfl)

theorem no_label_numbered {tree : Tree} (h : Legible tables tree) :
    ∀ label ∈ (abstracted tables tree).numbered.labels, ∀ name,
      label = .inr (.kind name) → name.head? ≠ some '$' := by
  intro label hlabel name hname
  rw [numbered, labels_map] at hlabel
  obtain ⟨before, hbefore, rfl⟩ := List.mem_map.mp hlabel
  cases before with
  | inl x => cases hname
  | inr fixed =>
    obtain rfl : fixed = .kind name := Sum.inr.inj hname
    exact no_label_abstracted tree h hbefore

/-- What is written of two trees is equal exactly when the numbered trees are. -/
theorem write_numbered_eq_iff {tree other : Tree} (htree : Legible tables tree)
    (hother : Legible tables other) :
    write textMarks spell (abstracted tables tree).numbered =
        write textMarks spell (abstracted tables other).numbered ↔
      (abstracted tables tree).numbered = (abstracted tables other).numbered := by
  have hreadable : Readable textMarks spell (abstracted tables tree).numbered :=
    readable_map.mpr (readable_abstracted _ tree htree)
  have hreadable' : Readable textMarks spell (abstracted tables other).numbered :=
    readable_map.mpr (readable_abstracted _ other hother)
  rw [write_eq_iff hreadable hreadable']
  refine ⟨fun h => ?_, fun h => congrArg (OrderedTree.map spell) h⟩
  rw [← map_id (abstracted tables tree).numbered]
  refine map_eq_of_map_eq _ _ h fun x hx y hy hxy => ?_
  exact spell_inj (no_label_numbered htree x hx) (no_label_numbered hother y hy) hxy

mutual

theorem leaves_map (f : Text ⊕ Fixed → Text ⊕ Fixed) : (tree : Abstracted) →
    leaves (tree.map f) = leaves tree
  | .node _ [] => rfl
  | .node _ (child :: children) =>
    congrArg₂ (· + ·) (leaves_map f child) (leavesAll_mapAll f children)

theorem leavesAll_mapAll (f : Text ⊕ Fixed → Text ⊕ Fixed) : (trees : List Abstracted) →
    leavesAll (mapAll f trees) = leavesAll trees
  | [] => rfl
  | tree :: trees => congrArg₂ (· + ·) (leaves_map f tree) (leavesAll_mapAll f trees)

end

/-- Two Type-2 keys are equal exactly when the abstracted trees are alike up to their names, and
then both blocks have one token count. -/
theorem cloneKey_type2_eq_iff {sha256 : Bytes → Bytes} (hsha : Function.Injective sha256)
    {tree other : Tree} (htree : Legible tables tree) (hother : Legible tables other) :
    ((cloneKey tables sha256 tree).type2 = (cloneKey tables sha256 other).type2 ↔
        (abstracted tables tree).Alike (abstracted tables other)) ∧
      ((cloneKey tables sha256 tree).type2 = (cloneKey tables sha256 other).type2 →
        (cloneKey tables sha256 tree).tokens = (cloneKey tables sha256 other).tokens) := by
  obtain ⟨htext, htokens⟩ := @walk_root tables tree
  obtain ⟨htext', htokens'⟩ := @walk_root tables other
  have hkeys : (cloneKey tables sha256 tree).type2 = (cloneKey tables sha256 other).type2 ↔
      (abstracted tables tree).Alike (abstracted tables other) := by
    rw [← numbered_eq_iff, ← write_numbered_eq_iff htree hother, ← htext, ← htext']
    exact ⟨fun h => utf8_injective (hsha h), fun h => congrArg (sha256 ∘ utf8) h⟩
  refine ⟨hkeys, fun h => ?_⟩
  obtain ⟨rename, -, hrenamed⟩ := hkeys.mp h
  have hleaves : leaves (abstracted tables tree) = leaves (abstracted tables other) := by
    rw [← hrenamed]
    exact (leaves_map _ _).symm
  exact htokens.trans (hleaves.trans htokens'.symm)

end Reading

/-! A call with a comment behind its arguments, with other names, and with one name less. -/

namespace CommentedCall

def kindName : Nat → Text
  | 1 => "identifier".toList
  | 2 => "call".toList
  | 3 => "(".toList
  | 4 => ",".toList
  | 5 => ")".toList
  | 6 => "comment".toList
  | _ => "string".toList

def tables : Tables where
  spec := { comments := [6], statementParents := none, clones := ⟨[1], [([7], .str)]⟩ }
  kinds := { string := [7], tupleExpression := [] }
  kindName

def leaf (kind : Nat) (text : Text) : Tree := .node ⟨kind, true, text⟩ []

def call (function argument : Char) (behind : List Tree) : Tree :=
  .node ⟨2, true, []⟩ ([leaf 1 [function], leaf 3 ['('], leaf 1 [argument], leaf 4 [','],
    leaf 1 [function], leaf 5 [')']] ++ behind)

theorem legible_leaf (kind : Nat) (text : Text) : Legible tables (leaf kind text) := by
  refine legible_node_iff.mpr ⟨⟨?_, ?_, ?_⟩, List.forall_mem_nil _⟩
  all_goals
    simp only [OrderedTree.label, OrderedTree.children, tables]
    unfold kindName
    split <;> simp [Marks.Is, textMarks]

theorem legible_call (function argument : Char) {behind : List Tree}
    (h : ∀ tree ∈ behind, Legible tables tree) :
    Legible tables (call function argument behind) := by
  have hplain : ∀ c ∈ "call".toList, ¬ textMarks.Is c := by simp [Marks.Is, textMarks]
  have hstart : "call".toList.head? ≠ some '$' := by decide
  refine legible_node_iff.mpr ⟨⟨List.cons_ne_nil _ _, hstart, .inl hplain⟩, ?_⟩
  simpa [legible_leaf] using h

/-- The SHA-256 of what is written for the calls with two names and with one. -/
def digests : List (Bytes × Bytes) :=
  [(utf8 "call($VAR1,(,$VAR2,,,$VAR1,))".toList,
      [0xb3, 0xbb, 0x96, 0xc6, 0x95, 0x8c, 0x41, 0x0d, 0xe8, 0x0c, 0x29, 0x97, 0x13, 0xd1, 0x7d, 0x01,
        0x3d, 0x6e, 0xd6, 0x60, 0xae, 0xad, 0x7a, 0x57, 0xde, 0x79, 0x24, 0x15, 0x28, 0x3c, 0x15, 0xb0]),
    (utf8 "call($VAR1,(,$VAR1,,,$VAR1,))".toList,
      [0xf2, 0xc1, 0x04, 0x88, 0x64, 0x51, 0x0d, 0xca, 0x3d, 0x59, 0x3e, 0xff, 0xa0, 0x8f, 0xcd, 0x5d,
        0xd3, 0x52, 0xaf, 0x9a, 0x73, 0xd9, 0x7d, 0xc1, 0xe4, 0x89, 0x5a, 0xcb, 0xa2, 0x41, 0x80, 0xc5])]

/-- A digest without collisions that is the SHA-256 of the two texts. -/
def digest (bytes : Bytes) : Bytes := (digests.lookup bytes).getD (List.replicate 33 0 ++ bytes)

theorem digest_injective : Function.Injective digest := by
  refine Sequence.lookup_getD_injective (fun _ _ => List.append_cancel_left) (by decide +kernel) ?_
  intro entry hentry bytes heq
  have hlengths : ∀ entry ∈ digests, entry.2.length = 32 := by decide +kernel
  have hlength := (congrArg List.length heq).trans (hlengths entry hentry)
  rw [List.length_append, List.length_replicate] at hlength
  omega

theorem cloneKey_type2_call :
    (cloneKey tables digest (call 'f' 'x' [leaf 6 "# note".toList])).type2 =
        (cloneKey tables digest (call 'g' 'y' [])).type2 ∧
      (cloneKey tables digest (call 'f' 'x' [leaf 6 "# note".toList])).tokens =
        (cloneKey tables digest (call 'g' 'y' [])).tokens ∧
      (cloneKey tables digest (call 'f' 'x' [])).type2 ≠
        (cloneKey tables digest (call 'g' 'g' [])).type2 := by
  have hcommented : Legible tables (call 'f' 'x' [leaf 6 "# note".toList]) :=
    legible_call 'f' 'x' (by simp [legible_leaf])
  have hplain (function argument : Char) : Legible tables (call function argument []) :=
    legible_call function argument (List.forall_mem_nil _)
  obtain ⟨halike, htokens⟩ :=
    cloneKey_type2_eq_iff digest_injective hcommented (hplain 'g' 'y')
  have hsame := halike.mpr (numbered_eq_iff.mp rfl)
  obtain ⟨hother, -⟩ :=
    cloneKey_type2_eq_iff digest_injective (hplain 'f' 'x') (hplain 'g' 'g')
  refine ⟨hsame, htokens hsame, fun heq => ?_⟩
  have hnumbered := congrArg labels (numbered_eq_iff.mpr (hother.mp heq))
  exact absurd hnumbered (by decide)

end CommentedCall

end Agentless.Metrics.Clones
