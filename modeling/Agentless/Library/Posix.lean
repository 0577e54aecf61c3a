import Agentless.Library.Sequence
import Agentless.Library.Text

/-!
# Directory trees and POSIX path resolution

A path is a byte string that slashes cut into parts. A place in a tree of directories, files and
symbolic links is a list of names, and `follow` is the reference resolution: it goes through the
parts one by one, replaces a link that it meets by the parts of its target, and gives up after a
number of links. The strict form is the one of the system calls, which fail where an entry is
missing; the other form keeps a missing entry as written.
-/

namespace Agentless.Posix

abbrev slash : UInt8 := 0x2f

abbrev dot : Bytes := [0x2e]

abbrev dotdot : Bytes := [0x2e, 0x2e]

def parts (path : Bytes) : List Bytes := path.splitOn slash

theorem splitOn_append_of_notMem {before after : Bytes} (h : slash ∉ before) :
    (before ++ after).splitOn slash = (after.splitOn slash).modifyHead (before ++ ·) := by
  induction before with
  | nil =>
    rw [List.nil_append]
    cases after.splitOn slash <;> rfl
  | cons byte before ih =>
    obtain ⟨hbyte, hbefore⟩ := not_or.mp (List.mem_cons.not.mp h)
    rw [List.cons_append, List.splitOn_cons_eq_if_modifyHead, if_neg (by simpa using Ne.symm hbyte),
      ih hbefore]
    cases after.splitOn slash <;> rfl

theorem slash_notMem_utf8 {text : Text} (h : '/' ∉ text) : slash ∉ utf8 text :=
  ascii_notMem_utf8 (c := '/') (by decide) h

theorem slash_notMem_utf8EncodeChar {c : Char} (h : c ≠ '/') : slash ∉ String.utf8EncodeChar c := by
  have hslash : slash ∉ utf8 [c] := slash_notMem_utf8 (by simpa using Ne.symm h)
  rwa [utf8_cons, utf8_nil, List.append_nil] at hslash

/-- The slashes of a text are those of its bytes. -/
theorem parts_utf8 (text : Text) : parts (utf8 text) = (text.splitOn '/').map utf8 := by
  induction text with
  | nil => rfl
  | cons c text ih =>
    unfold parts at ih ⊢
    rw [utf8_cons, List.splitOn_cons_eq_if_modifyHead]
    by_cases hc : c = '/'
    · subst hc
      have hslash : String.utf8EncodeChar '/' = [slash] := by decide
      rw [hslash, List.singleton_append, List.splitOn_cons_eq_if_modifyHead]
      simp [ih]
    · rw [splitOn_append_of_notMem (slash_notMem_utf8EncodeChar hc), ih, if_neg (by simpa using hc)]
      cases text.splitOn '/' with
      | nil => rfl
      | cons first rest => simp [utf8_cons]

theorem mem_of_mem_parts {path part : Bytes} {byte : UInt8} (hpart : part ∈ parts path)
    (hbyte : byte ∈ part) : byte ∈ path := by
  rw [← @List.intercalate_splitOn _ path _ _ slash]
  exact Sequence.mem_intercalate hpart hbyte

/-- A name that an entry of a directory can have. -/
structure Name where
  bytes : Bytes
  ne_nil : bytes ≠ []
  ne_dot : bytes ≠ dot
  ne_dotdot : bytes ≠ dotdot
  slash_notMem : slash ∉ bytes
  deriving DecidableEq

/-- A place in a tree, by the names that lead to it from the root. -/
abbrev Location := List Name

def body (names : Location) : Bytes := names.flatMap fun name => slash :: name.bytes

/-- The absolute path of a place. -/
def render (names : Location) : Bytes := if names = [] then [slash] else body names

@[simp] theorem render_nil : render [] = [slash] := rfl

theorem render_concat (names : Location) (name : Name) :
    render (names ++ [name]) = body names ++ slash :: name.bytes := by
  simp [render, body]

theorem render_eq_slash {names : Location} : render names = [slash] ↔ names = [] := by
  rcases names.eq_nil_or_concat with rfl | ⟨names, name, rfl⟩
  · simp
  · simp only [List.concat_eq_append, render_concat, List.append_eq_nil_iff, List.cons_ne_self,
      and_false, iff_false]
    intro h
    have hlength := congrArg List.length h
    have hname := List.length_pos_of_ne_nil name.ne_nil
    simp only [List.length_append, List.length_cons, List.length_nil] at hlength
    omega

/-- The parts of the path of a place are its names, after the empty one before the first slash. -/
theorem parts_body (names : Location) : parts (body names) = [] :: names.map Name.bytes := by
  induction names using List.reverseRecOn with
  | nil => simp [parts, body]
  | append_singleton names name ih =>
    have hbody : body (names ++ [name]) = body names ++ slash :: name.bytes := by simp [body]
    have hname : name.bytes.splitOn slash = [name.bytes] := List.splitOn_eq_singleton name.slash_notMem
    rw [parts, hbody, List.splitOn_append_cons_self, hname]
    change parts (body names) ++ _ = _
    rw [ih]
    simp

theorem parts_render {names : Location} (h : names ≠ []) :
    parts (render names) = [] :: names.map Name.bytes := by
  rw [render, if_neg h, parts_body]

/-! ## Moves -/

/-- What one part of a path does. -/
inductive Move where
  | stay
  | up
  | down (name : Name)
  deriving DecidableEq

def move (part : Bytes) : Move :=
  if hstay : part = [] ∨ part = dot then .stay
  else if hup : part = dotdot then .up
  else if hslash : slash ∈ part then .stay
  else .down ⟨part, fun h => hstay (.inl h), fun h => hstay (.inr h), hup, hslash⟩

@[simp] theorem move_bytes (name : Name) : move name.bytes = .down name := by
  simp [move, name.ne_nil, name.ne_dot, name.ne_dotdot, name.slash_notMem]

@[simp] theorem move_nil : move [] = .stay := rfl

theorem bytes_of_move_down {part : Bytes} {name : Name} (h : move part = .down name) :
    name.bytes = part := by
  unfold move at h
  split_ifs at h
  cases h
  rfl

/-! ## Trees -/

inductive Node where
  | directory
  | file
  | link (target : Bytes)
  deriving DecidableEq

/-- A finite tree below the root directory: every entry lies in a directory. -/
structure Tree where
  entries : List (Location × Node)
  directory_of_entry : ∀ entry ∈ entries,
    entry.1.dropLast = [] ∨ entries.lookup entry.1.dropLast = some .directory

namespace Tree

variable (tree : Tree)

def node (place : Location) : Option Node :=
  if place = [] then some .directory else tree.entries.lookup place

@[simp] theorem node_nil : tree.node [] = some .directory := rfl

variable {tree}

theorem mem_entries_of_node {place : Location} {node : Node} (hplace : place ≠ [])
    (h : tree.node place = some node) : (place, node) ∈ tree.entries := by
  rw [Tree.node, if_neg hplace] at h
  obtain ⟨before, after, hentries, -⟩ := List.lookup_eq_some_iff.mp h
  simp [hentries]

theorem node_of_node_concat {place : Location} {name : Name}
    (h : (tree.node (place ++ [name])).isSome) : tree.node place = some .directory := by
  obtain ⟨node, hnode⟩ := Option.isSome_iff_exists.mp h
  have hparent := tree.directory_of_entry _ (mem_entries_of_node (by simp) hnode)
  rw [List.dropLast_concat] at hparent
  unfold Tree.node
  split_ifs with hplace
  · rfl
  · exact hparent.resolve_left hplace

/-- The place where the resolution of a link's target starts. -/
def start (here : Location) (target : Bytes) : Location :=
  if target.head? = some slash then [] else here

/-- The place that the parts of a path lead to, where `onLink` goes on from a link. -/
def walk (tree : Tree) (strict : Bool) (onLink : Location → Bytes → List Bytes → Option Location) :
    Location → List Bytes → Option Location
  | here, [] => some here
  | here, part :: rest =>
    match move part with
    | .stay => walk tree strict onLink here rest
    | .up => walk tree strict onLink here.dropLast rest
    | .down name =>
      match tree.node (here ++ [name]) with
      | some (.link target) => onLink here target rest
      | some .directory => walk tree strict onLink (here ++ [name]) rest
      | some .file =>
        if strict ∧ rest ≠ [] then none else walk tree strict onLink (here ++ [name]) rest
      | none => if strict then none else walk tree strict onLink (here ++ [name]) rest

/-- The place that the parts of a path lead to, with at most `limit` links on the way. -/
def follow (tree : Tree) (strict : Bool) : Nat → Location → List Bytes → Option Location
  | 0 => tree.walk strict fun _ _ _ => none
  | limit + 1 => tree.walk strict fun here target rest =>
    follow tree strict limit (start here target) (parts target ++ rest)

section Follow

variable {strict : Bool} {limit : Nat} {here there : Location} {path more : List Bytes}

@[simp] theorem follow_nil : tree.follow strict limit here [] = some here := by
  cases limit <;> rfl

theorem follow_cons (part : Bytes) (rest : List Bytes) :
    tree.follow strict limit here (part :: rest) =
      match move part with
      | .stay => tree.follow strict limit here rest
      | .up => tree.follow strict limit here.dropLast rest
      | .down name =>
        match tree.node (here ++ [name]) with
        | some (.link target) =>
          match limit with
          | 0 => none
          | limit + 1 => tree.follow strict limit (start here target) (parts target ++ rest)
        | some .directory => tree.follow strict limit (here ++ [name]) rest
        | some .file =>
          if strict ∧ rest ≠ [] then none else tree.follow strict limit (here ++ [name]) rest
        | none => if strict then none else tree.follow strict limit (here ++ [name]) rest := by
  cases limit <;> simp only [follow, walk]

/-- The induction along a resolution: over the parts, and at a link over the number of links. -/
theorem follow_induction {motive : Nat → Location → List Bytes → Prop}
    (nil : ∀ limit here, motive limit here [])
    (stay : ∀ limit here part rest, move part = .stay → motive limit here rest →
      motive limit here (part :: rest))
    (up : ∀ limit here part rest, move part = .up → motive limit here.dropLast rest →
      motive limit here (part :: rest))
    (link_zero : ∀ here part rest name target, move part = .down name →
      tree.node (here ++ [name]) = some (.link target) → motive 0 here (part :: rest))
    (link : ∀ limit here part rest name target, move part = .down name →
      tree.node (here ++ [name]) = some (.link target) →
      motive limit (start here target) (parts target ++ rest) →
      motive (limit + 1) here (part :: rest))
    (down : ∀ limit here part rest name, move part = .down name →
      (∀ target, tree.node (here ++ [name]) ≠ some (.link target)) →
      motive limit (here ++ [name]) rest → motive limit here (part :: rest))
    (limit : Nat) (here : Location) (path : List Bytes) : motive limit here path := by
  induction limit generalizing here path with
  | zero =>
    induction path generalizing here with
    | nil => exact nil 0 here
    | cons part rest ih =>
      cases hmove : move part with
      | stay => exact stay 0 here part rest hmove (ih here)
      | up => exact up 0 here part rest hmove (ih here.dropLast)
      | down name =>
        by_cases hlink : ∃ target, tree.node (here ++ [name]) = some (.link target)
        · obtain ⟨target, hnode⟩ := hlink
          exact link_zero here part rest name target hmove hnode
        · exact down 0 here part rest name hmove (fun target h => hlink ⟨target, h⟩) (ih _)
  | succ limit ihlimit =>
    induction path generalizing here with
    | nil => exact nil (limit + 1) here
    | cons part rest ih =>
      cases hmove : move part with
      | stay => exact stay _ here part rest hmove (ih here)
      | up => exact up _ here part rest hmove (ih here.dropLast)
      | down name =>
        by_cases hlink : ∃ target, tree.node (here ++ [name]) = some (.link target)
        · obtain ⟨target, hnode⟩ := hlink
          exact link limit here part rest name target hmove hnode (ihlimit _ _)
        · exact down _ here part rest name hmove (fun target h => hlink ⟨target, h⟩) (ih _)

theorem follow_stay {part : Bytes} (h : move part = .stay) :
    tree.follow strict limit here (part :: path) = tree.follow strict limit here path := by
  rw [follow_cons, h]

theorem follow_up {part : Bytes} (h : move part = .up) :
    tree.follow strict limit here (part :: path) = tree.follow strict limit here.dropLast path := by
  rw [follow_cons, h]

theorem follow_link {part : Bytes} {name : Name} {target : Bytes} (h : move part = .down name)
    (hnode : tree.node (here ++ [name]) = some (.link target)) :
    tree.follow strict (limit + 1) here (part :: path) =
      tree.follow strict limit (start here target) (parts target ++ path) := by
  simp only [follow_cons, h, hnode]

theorem follow_link_zero {part : Bytes} {name : Name} {target : Bytes} (h : move part = .down name)
    (hnode : tree.node (here ++ [name]) = some (.link target)) :
    tree.follow strict 0 here (part :: path) = none := by
  simp only [follow_cons, h, hnode]

/-- The system goes no further at a missing entry, and past a file it finds nothing. -/
theorem follow_down_eq {part : Bytes} {name : Name} (h : move part = .down name)
    (hnode : ∀ target, tree.node (here ++ [name]) ≠ some (.link target)) :
    tree.follow strict limit here (part :: path) =
      if strict ∧ (tree.node (here ++ [name]) = none ∨
          tree.node (here ++ [name]) = some .file ∧ path ≠ []) then none
      else tree.follow strict limit (here ++ [name]) path := by
  rw [follow_cons, h]
  cases hentry : tree.node (here ++ [name]) with
  | none => simp [hentry]
  | some entry =>
    cases entry with
    | directory => simp [hentry]
    | file => simp [hentry]
    | link target => exact absurd hentry (hnode target)

theorem follow_down {part : Bytes} {name : Name} (h : move part = .down name)
    (hnode : ∀ target, tree.node (here ++ [name]) ≠ some (.link target)) :
    tree.follow false limit here (part :: path) =
      tree.follow false limit (here ++ [name]) path := by
  simp [follow_down_eq h hnode]

theorem follow_down_directory {part : Bytes} {name : Name} (h : move part = .down name)
    (hnode : tree.node (here ++ [name]) = some .directory) :
    tree.follow strict limit here (part :: path) =
      tree.follow strict limit (here ++ [name]) path := by
  simp [follow_down_eq h, hnode]

/-- A resolution that ends also ends when it may meet more links. -/
theorem follow_mono {limit' : Nat} (hlimit : limit ≤ limit')
    (h : tree.follow strict limit here path = some there) :
    tree.follow strict limit' here path = some there := by
  induction limit, here, path using tree.follow_induction generalizing limit' with
  | nil limit here => simpa using h
  | link limit here part rest name target hmove hnode ih =>
    obtain ⟨limit', rfl⟩ : ∃ less, limit' = less + 1 := ⟨limit' - 1, by omega⟩
    rw [follow_link hmove hnode] at h ⊢
    exact ih (by omega) h
  | _ => grind [follow_stay, follow_up, follow_link_zero, follow_down_eq]

/-- A resolution that ends passes through every part of its path. -/
theorem follow_append (h : tree.follow strict limit here (path ++ more) = some there) :
    ∃ between, tree.follow strict limit here path = some between ∧
      tree.follow strict limit between more = some there := by
  induction limit, here, path using tree.follow_induction with
  | nil limit here => exact ⟨here, follow_nil, h⟩
  | link limit here part rest name target hmove hnode ih =>
    rw [List.cons_append, follow_link hmove hnode, ← List.append_assoc] at h
    obtain ⟨between, hbetween, hmore⟩ := ih h
    exact ⟨between, by rw [follow_link hmove hnode, hbetween], follow_mono (Nat.le_succ _) hmore⟩
  | _ => grind [follow_stay, follow_up, follow_link_zero, follow_down_eq, List.append_eq_nil_iff]

/-- The system's resolution, where it ends, is the one that keeps missing entries. -/
theorem follow_of_strict (h : tree.follow true limit here path = some there) :
    tree.follow false limit here path = some there := by
  induction limit, here, path using tree.follow_induction with
  | nil limit here => simpa using h
  | _ => grind [follow_stay, follow_up, follow_link, follow_link_zero, follow_down_eq]

/-- The names of a directory lead to it. -/
theorem follow_directory {place : Location} (h : tree.node place = some .directory) :
    tree.follow strict limit [] (place.map Name.bytes ++ more) =
      tree.follow strict limit place more := by
  induction place using List.reverseRecOn generalizing more with
  | nil => rfl
  | append_singleton place name ih =>
    have hentry : (tree.node (place ++ [name])).isSome := by simp [h]
    have hplace := node_of_node_concat hentry
    rw [List.map_append, List.append_assoc, ih hplace]
    exact follow_down_directory (move_bytes name) h

end Follow

/-! ## Places without links -/

/-- No link leads to the place. -/
def Straight (tree : Tree) (place : Location) : Prop :=
  ∀ names, names <+: place → ∀ target, tree.node names ≠ some (.link target)

theorem straight_nil : tree.Straight [] := by
  intro names hnames target
  rw [List.prefix_nil.mp hnames]
  simp

theorem Straight.dropLast {place : Location} (h : tree.Straight place) :
    tree.Straight place.dropLast :=
  fun names hnames => h names (hnames.trans (List.dropLast_prefix place))

theorem Straight.concat {place : Location} {name : Name} (h : tree.Straight place)
    (hname : ∀ target, tree.node (place ++ [name]) ≠ some (.link target)) :
    tree.Straight (place ++ [name]) := by
  intro names hnames
  rcases List.prefix_concat_iff.mp hnames with rfl | hnames
  · exact hname
  · exact h names hnames

theorem Straight.start {place : Location} (h : tree.Straight place) (target : Bytes) :
    tree.Straight (start place target) := by
  unfold Tree.start
  split_ifs
  · exact straight_nil
  · exact h

theorem straight_of_directory {place : Location} (h : tree.node place = some .directory) :
    tree.Straight place := by
  induction place using List.reverseRecOn with
  | nil => exact straight_nil
  | append_singleton place name ih =>
    have hentry : (tree.node (place ++ [name])).isSome := by simp [h]
    exact (ih (node_of_node_concat hentry)).concat (by simp [h])

/-- A resolution that ends leads to a place without links. -/
theorem Straight.follow {strict : Bool} {limit : Nat} {here there : Location} {path : List Bytes}
    (hhere : tree.Straight here) (h : tree.follow strict limit here path = some there) :
    tree.Straight there := by
  induction limit, here, path using tree.follow_induction with
  | nil limit here => simp_all
  | _ =>
    grind [follow_stay, follow_up, follow_link, follow_link_zero, follow_down_eq,
      Straight.dropLast, Straight.concat, Straight.start]

/-- The names of a place without links lead to it. -/
theorem Straight.follow_names {limit : Nat} {place : Location} {more : List Bytes}
    (h : tree.Straight place) :
    tree.follow false limit [] (place.map Name.bytes ++ more) =
      tree.follow false limit place more := by
  induction place using List.reverseRecOn generalizing more with
  | nil => rfl
  | append_singleton place name ih =>
    have hplace : tree.Straight place :=
      fun names hnames => h names (hnames.trans (List.prefix_append _ _))
    rw [List.map_append, List.append_assoc, ih hplace]
    exact follow_down (move_bytes name) (h _ (List.prefix_refl _))

/-- The resolution of every path ends: the links form no loop. -/
def Loopless (tree : Tree) : Prop :=
  ∀ path, ∃ limit there, tree.follow false limit [] path = some there

theorem Loopless.follow_directory {here : Location} (h : tree.Loopless)
    (hhere : tree.node here = some .directory) (path : List Bytes) :
    ∃ limit there, tree.follow false limit here path = some there := by
  obtain ⟨limit, there, hthere⟩ := h (here.map Name.bytes ++ path)
  exact ⟨limit, there, (Tree.follow_directory hhere).symm.trans hthere⟩

/-! ## The names that a resolution adds -/

/-- A place that leaves some place above `base` by names with the property. -/
def Grown (p : Bytes → Prop) (base place : Location) : Prop :=
  ∃ kept names, kept <+: base ∧ place = kept ++ names ∧ ∀ name ∈ names, p name.bytes

section Grown

variable {p : Bytes → Prop} {base place : Location}

theorem grown_self : Grown p base base :=
  ⟨base, [], List.prefix_refl _, by simp, by simp⟩

theorem grown_nil : Grown p base [] :=
  ⟨[], [], List.nil_prefix, rfl, by simp⟩

theorem Grown.dropLast (h : Grown p base place) : Grown p base place.dropLast := by
  obtain ⟨kept, names, hkept, rfl, hnames⟩ := h
  rcases names.eq_nil_or_concat with rfl | ⟨names, name, rfl⟩
  · exact ⟨kept.dropLast, [], (List.dropLast_prefix kept).trans hkept, by simp, by simp⟩
  · refine ⟨kept, names, hkept, ?_, fun other hother => hnames other (by simp [hother])⟩
    rw [List.concat_eq_append, ← List.append_assoc, List.dropLast_concat]

theorem Grown.concat {name : Name} (h : Grown p base place) (hname : p name.bytes) :
    Grown p base (place ++ [name]) := by
  obtain ⟨kept, names, hkept, rfl, hnames⟩ := h
  refine ⟨kept, names ++ [name], hkept, by simp, ?_⟩
  intro other hother
  rcases List.mem_append.mp hother with hother | hother
  · exact hnames other hother
  · rwa [List.mem_singleton.mp hother]

theorem Grown.start (h : Grown p base place) (target : Bytes) :
    Grown p base (start place target) := by
  unfold Tree.start
  split_ifs
  · exact grown_nil
  · exact h

/-- A resolution adds only names that its path and the targets of links hold. -/
theorem Grown.follow {strict : Bool} {limit : Nat} {there : Location} {path : List Bytes}
    (h : Grown p base place) (hpath : ∀ part ∈ path, p part)
    (hlinks : ∀ link target, tree.node link = some (.link target) → ∀ part ∈ parts target, p part)
    (hthere : tree.follow strict limit place path = some there) : Grown p base there := by
  induction limit, place, path using tree.follow_induction with
  | nil limit here =>
    obtain rfl : here = there := by simpa using hthere
    exact h
  | stay limit here part rest hmove ih =>
    rw [follow_stay hmove] at hthere
    exact ih h (fun other hother => hpath other (List.mem_cons_of_mem _ hother)) hthere
  | up limit here part rest hmove ih =>
    rw [follow_up hmove] at hthere
    exact ih h.dropLast (fun other hother => hpath other (List.mem_cons_of_mem _ hother)) hthere
  | link_zero here part rest name target hmove hnode =>
    cases (follow_link_zero hmove hnode).symm.trans hthere
  | link limit here part rest name target hmove hnode ih =>
    rw [follow_link hmove hnode] at hthere
    refine ih (h.start target) (fun other hother => ?_) hthere
    rcases List.mem_append.mp hother with hother | hother
    · exact hlinks _ target hnode other hother
    · exact hpath other (List.mem_cons_of_mem _ hother)
  | down limit here part rest name hmove hnode ih =>
    rw [follow_down_eq hmove hnode] at hthere
    split_ifs at hthere
    refine ih (h.concat ?_) (fun other hother => hpath other (List.mem_cons_of_mem _ hother)) hthere
    exact bytes_of_move_down hmove ▸ hpath part List.mem_cons_self

theorem Grown.names_of_append {names : Location} (h : Grown p base (base ++ names)) :
    ∀ name ∈ names, p name.bytes := by
  obtain ⟨kept, added, ⟨rest, rfl⟩, hplace, hadded⟩ := h
  rw [List.append_assoc] at hplace
  intro name hname
  exact hadded name (List.append_cancel_left hplace ▸ List.mem_append_right _ hname)

end Grown

/-! ## The entry at a path -/

/-- The entry that an absolute path names, a link at its end not followed. -/
def lstat (tree : Tree) (limit : Nat) (path : Bytes) : Option Node :=
  match move ((parts path).getLastD []) with
  | .down name =>
    (tree.follow true limit [] (parts path).dropLast).bind fun place => tree.node (place ++ [name])
  | _ => (tree.follow true limit [] (parts path)).bind tree.node

theorem lstat_render_concat (limit : Nat) (place : Location) (name : Name) :
    tree.lstat limit (render (place ++ [name])) =
      (tree.follow true limit [] (place.map Name.bytes)).bind fun here =>
        tree.node (here ++ [name]) := by
  have hparts : parts (render (place ++ [name])) =
      ([] :: place.map Name.bytes) ++ [name.bytes] := by
    rw [parts_render (by simp)]
    simp
  rw [lstat, hparts, List.getLastD_concat, move_bytes, List.dropLast_concat]
  dsimp only
  rw [follow_stay move_nil]

end Tree

end Agentless.Posix
