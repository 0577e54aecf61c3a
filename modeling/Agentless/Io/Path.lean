import Agentless.Library.Posix

/-!
# Paths of the standard library

`std::path` on Unix: a path is its bytes, and it is read as components, with repeated slashes,
trailing slashes and every `.` but a leading one left out.
-/

namespace Agentless.StdPath

open Posix

inductive Component where
  | rootDir
  | curDir
  | parentDir
  | normal (name : Bytes)
  deriving DecidableEq

def isAbsolute (path : Bytes) : Bool := path.head? = some slash

def component (part : Bytes) : Option Component :=
  if part = [] ∨ part = dot then none
  else if part = dotdot then some .parentDir
  else some (.normal part)

def components (path : Bytes) : List Component :=
  match parts path with
  | [] => []
  | first :: rest =>
    (if isAbsolute path then [.rootDir]
      else if first = dot then [.curDir]
      else (component first).toList) ++ rest.filterMap component

def Component.bytes : Component → Bytes
  | .rootDir => [slash]
  | .curDir => dot
  | .parentDir => dotdot
  | .normal name => name

def join (base path : Bytes) : Bytes :=
  if isAbsolute path then path
  else if base = [] ∨ base.getLast? = some slash then base ++ path
  else base ++ slash :: path

/-- The path that collects components. -/
def ofComponents (components : List Component) : Bytes :=
  components.foldl (fun path component => join path component.bytes) []

def startsWith (path base : Bytes) : Bool := (components base).isPrefixOf (components path)

/-- The path below `base`, in its normal spelling. -/
def stripPrefix (path base : Bytes) : Option Bytes :=
  if startsWith path base then
    some (ofComponents ((components path).drop (components base).length))
  else none

/-- The path without its last component, in its normal spelling. -/
def parent (path : Bytes) : Option Bytes :=
  match (components path).getLast? with
  | none | some .rootDir => none
  | some _ => some (ofComponents (components path).dropLast)

def fileName (path : Bytes) : Option Bytes :=
  match (components path).getLast? with
  | some (.normal name) => some name
  | _ => none

/-! ## The path of a place -/

theorem component_bytes (name : Name) : component name.bytes = some (.normal name.bytes) := by
  simp [component, name.ne_nil, name.ne_dot, name.ne_dotdot]

theorem isAbsolute_render (place : Location) : isAbsolute (render place) = true := by
  cases place <;> simp [isAbsolute, render, body]

theorem isAbsolute_bytes (name : Name) : isAbsolute name.bytes = false := by
  have hslash := name.slash_notMem
  have hne := name.ne_nil
  cases hbytes : name.bytes with
  | nil => exact absurd hbytes hne
  | cons byte bytes => grind [isAbsolute]

@[simp] theorem components_render (place : Location) :
    components (render place) = .rootDir :: place.map fun name => .normal name.bytes := by
  rcases eq_or_ne place [] with rfl | hplace
  · decide
  · rw [components, parts_render hplace]
    dsimp only
    rw [isAbsolute_render, if_pos rfl, List.filterMap_map]
    simp [component_bytes]

theorem getLast?_render_concat (place : Location) (name : Name) :
    (render (place ++ [name])).getLast? ≠ some slash := by
  rw [render_concat, List.getLast?_append, List.getLast?_cons_of_ne_nil name.ne_nil]
  intro h
  have hlast := List.getLast?_eq_some_getLast name.ne_nil
  rw [hlast] at h
  exact name.slash_notMem (Option.some.inj h ▸ List.getLast_mem name.ne_nil)

theorem join_render (place : Location) (name : Name) :
    join (render place) name.bytes = render (place ++ [name]) := by
  unfold join
  rw [isAbsolute_bytes, if_neg Bool.false_ne_true]
  rcases place.eq_nil_or_concat with rfl | ⟨place, last, rfl⟩
  · simp [render, body]
  · rw [List.concat_eq_append, if_neg]
    · simp [render, body]
    · rintro (hnil | hslash)
      · simp [render, body] at hnil
      · exact getLast?_render_concat place last hslash

theorem ofComponents_render (place : Location) :
    ofComponents (.rootDir :: place.map fun name => .normal name.bytes) = render place := by
  induction place using List.reverseRecOn with
  | nil => decide
  | append_singleton place name ih =>
    unfold ofComponents at ih ⊢
    rw [List.map_append, ← List.cons_append, List.foldl_append, ih]
    exact join_render place name

@[simp] theorem parent_render_concat (place : Location) (name : Name) :
    parent (render (place ++ [name])) = some (render place) := by
  have hcomponents : components (render (place ++ [name])) =
      (.rootDir :: place.map fun name => .normal name.bytes) ++ [.normal name.bytes] := by
    simp
  rw [parent, hcomponents, List.getLast?_concat, List.dropLast_concat, ofComponents_render]

@[simp] theorem fileName_render_concat (place : Location) (name : Name) :
    fileName (render (place ++ [name])) = some name.bytes := by
  have hcomponents : components (render (place ++ [name])) =
      (.rootDir :: place.map fun name => .normal name.bytes) ++ [.normal name.bytes] := by
    simp
  rw [fileName, hcomponents, List.getLast?_concat]

/-- One place is under another when its path starts with the other's. -/
theorem startsWith_render {place base : Location} :
    startsWith (render place) (render base) ↔ base <+: place := by
  have hinjective : Function.Injective fun name : Name => Component.normal name.bytes := by
    intro name other h
    cases name
    cases other
    simpa using h
  rw [startsWith, List.isPrefixOf_iff_prefix, components_render, components_render,
    List.cons_prefix_cons, List.prefix_map_iff_of_injective hinjective]
  simp

/-- The path of a place below another. -/
def renderRelative (names : Location) : Bytes := [slash].intercalate (names.map Name.bytes)

theorem renderRelative_concat {names : Location} (h : names ≠ []) (name : Name) :
    renderRelative (names ++ [name]) = renderRelative names ++ slash :: name.bytes := by
  induction names with
  | nil => exact absurd rfl h
  | cons first names ih =>
    cases names with
    | nil => simp [renderRelative, List.intercalate_cons_cons]
    | cons second names =>
      have hrest := ih (List.cons_ne_nil _ _)
      simp only [renderRelative, List.cons_append, List.map_cons, List.intercalate_cons_cons] at hrest ⊢
      rw [hrest]
      simp

theorem getLast?_renderRelative_ne_slash {names : Location} (h : names ≠ []) :
    renderRelative names ≠ [] ∧ (renderRelative names).getLast? ≠ some slash := by
  obtain ⟨names, name, rfl⟩ := (names.eq_nil_or_concat).resolve_left h
  have hlast : name.bytes.getLast? ≠ some slash := fun hslash =>
    name.slash_notMem (List.mem_of_getLast? hslash)
  rw [List.concat_eq_append]
  rcases eq_or_ne names [] with rfl | hnames
  · simpa [renderRelative] using ⟨name.ne_nil, hlast⟩
  · rw [renderRelative_concat hnames, List.getLast?_append, List.getLast?_cons_of_ne_nil name.ne_nil]
    simpa [List.getLast?_eq_none_iff, Option.or_eq_some_iff, name.ne_nil] using hlast

theorem ofComponents_renderRelative (names : Location) :
    ofComponents (names.map fun name => .normal name.bytes) = renderRelative names := by
  induction names using List.reverseRecOn with
  | nil => rfl
  | append_singleton names name ih =>
    unfold ofComponents at ih ⊢
    rw [List.map_append, List.foldl_append, ih]
    change join (renderRelative names) name.bytes = _
    rcases eq_or_ne names [] with rfl | hnames
    · simp [join, isAbsolute_bytes, renderRelative]
    · rw [renderRelative_concat hnames, join, isAbsolute_bytes, if_neg Bool.false_ne_true, if_neg]
      exact not_or.mpr (getLast?_renderRelative_ne_slash hnames)

theorem parts_renderRelative {names : Location} (h : names ≠ []) :
    parts (renderRelative names) = names.map Name.bytes := by
  refine List.splitOn_intercalate slash ?_ (by simpa using h)
  intro bytes hbytes
  obtain ⟨name, -, rfl⟩ := List.mem_map.mp hbytes
  exact name.slash_notMem

theorem isAbsolute_renderRelative (names : Location) :
    isAbsolute (renderRelative names) = false := by
  cases names with
  | nil => rfl
  | cons name names =>
    have hfirst := isAbsolute_bytes name
    cases hbytes : name.bytes with
    | nil => exact absurd hbytes name.ne_nil
    | cons byte bytes =>
      rw [isAbsolute, hbytes] at hfirst
      cases names <;> simpa [isAbsolute, renderRelative, List.intercalate_cons_cons, hbytes] using hfirst

theorem isAbsolute_join_render (base : Location) {path : Bytes} (h : isAbsolute path = false) :
    isAbsolute (join (render base) path) = true := by
  have hbase := isAbsolute_render base
  rw [join, h, if_neg Bool.false_ne_true]
  cases hrender : render base with
  | nil => simp [hrender, isAbsolute] at hbase
  | cons byte bytes =>
    rw [hrender] at hbase
    split_ifs <;> simpa [isAbsolute] using hbase

theorem mem_join {base path : Bytes} {byte : UInt8} (h : isAbsolute path = false) :
    byte ∈ join base path ↔ byte ∈ base ∨ byte ∈ path ∨
      byte = slash ∧ ¬(base = [] ∨ base.getLast? = some slash) := by
  rw [join, h, if_neg Bool.false_ne_true]
  split_ifs with hend
  · simp [hend]
  · simp [hend]
    tauto

theorem parts_join_render (base : Location) {path : Bytes} (h : isAbsolute path = false) :
    parts (join (render base) path) = [] :: base.map Name.bytes ++ parts path := by
  rw [join, h, if_neg Bool.false_ne_true]
  rcases base.eq_nil_or_concat with rfl | ⟨base, name, rfl⟩
  · rw [if_pos (by simp), render_nil, List.singleton_append, parts, List.splitOn_cons_eq_if_modifyHead]
    simp [parts]
  · rw [List.concat_eq_append, if_neg, parts, List.splitOn_append_cons_self]
    · change parts (render (base ++ [name])) ++ _ = _
      rw [parts_render (by simp)]
      rfl
    · rintro (hnil | hslash)
      · simp [render, body] at hnil
      · exact getLast?_render_concat base name hslash

theorem stripPrefix_render (base names : Location) :
    stripPrefix (render (base ++ names)) (render base) = some (renderRelative names) := by
  rw [stripPrefix, if_pos (startsWith_render.mpr (List.prefix_append _ _))]
  simp [ofComponents_renderRelative]

theorem cons_renderRelative {rest : Location} (h : rest ≠ []) : slash :: renderRelative rest = body rest := by
  induction rest using List.reverseRecOn with
  | nil => exact absurd rfl h
  | append_singleton rest name ih =>
    rcases eq_or_ne rest [] with rfl | hrest
    · simp [renderRelative, body]
    · rw [renderRelative_concat hrest, ← List.cons_append, ih hrest]
      simp [body]

/-- The names of a place below another, joined to the other's path. -/
theorem join_renderRelative (base : Location) {rest : Location} (h : rest ≠ []) :
    join (render base) (renderRelative rest) = render (base ++ rest) := by
  have hslash := cons_renderRelative h
  rw [join, isAbsolute_renderRelative, if_neg Bool.false_ne_true]
  rcases base.eq_nil_or_concat with rfl | ⟨base, last, rfl⟩
  · simpa [render, h] using hslash
  · rw [List.concat_eq_append, if_neg]
    · simp [render, body, hslash]
    · rintro (hnil | hlast)
      · simp [render, body] at hnil
      · exact getLast?_render_concat base last hlast

end Agentless.StdPath

/-!
## Path resolution and containment

A path is inside a root when its resolved form is. The resolution keeps the parts that are left on
a stack. A link puts the parts of its target on it, above a mark with which the path that they
resolve to is remembered; a link that is met again before its mark is part of a loop and stays as
written.
-/

namespace Agentless.Io.Contain

open Posix StdPath

/-- What a process sees of the file system: a tree whose entries can all be read, the number of
links that one system call follows, and the working directory when it is known. -/
structure Host where
  tree : Tree
  limit : Nat
  cwd : Option Location
  directory_of_cwd : ∀ place ∈ cwd, tree.node place = some .directory

inductive Part where
  | name (bytes : Bytes)
  | resolved (link : Bytes)
  deriving DecidableEq

/-- A link maps to its resolved target, or to nothing while its target is being resolved. -/
abbrev Seen := List (Bytes × Option Bytes)

inductive Link where
  | keep
  | cached (target : Bytes)
  | follow (target : Bytes)

/-- The state of a resolution, with the part that comes off first at the head of `pending`. -/
structure State where
  resolved : Bytes
  pending : List Part
  seen : Seen

def pushParts (pending : List Part) (path : Bytes) : List Part :=
  (parts path).map .name ++ pending

def rposition (byte : UInt8) (bytes : Bytes) : Option Nat :=
  (bytes.reverse.idxOf? byte).map fun position => bytes.length - 1 - position

/-- The parent of the root is the root. -/
def toParent (resolved : Bytes) : Bytes :=
  match rposition slash resolved with
  | some cut => if 0 < cut then resolved.take cut else resolved.take 1
  | none => resolved.take 1

section Resolve

variable (host : Host)

/-- A loop and a part that is not a link keep the path as written. -/
def link (path : Bytes) (seen : Seen) : Link :=
  match host.tree.lstat host.limit path with
  | some (.link target) =>
    match seen.lookup path with
    | some (some cached) => .cached cached
    | some none => .keep
    | none => .follow target
  | _ => .keep

def step (s : State) (name : Bytes) : State :=
  if name = [] ∨ name = dot then s
  else if name = dotdot then { s with resolved := toParent s.resolved }
  else
    let next := (if s.resolved ≠ [slash] then s.resolved ++ [slash] else s.resolved) ++ name
    match link host next s.seen with
    | .keep => { s with resolved := next }
    | .cached target => { s with resolved := target }
    | .follow target =>
      { resolved := if target.head? = some slash then [slash] else s.resolved
        pending := pushParts (.resolved next :: s.pending) target
        seen := (next, none) :: s.seen }

def advance (s : State) : Part → State
  | .name name => step host s name
  | .resolved link => { s with seen := (link, some s.resolved) :: s.seen }

/-- At most `rounds` rounds of the loop, and nothing when parts are left after them. -/
def loop : Nat → State → Option Bytes
  | _, ⟨resolved, [], _⟩ => some resolved
  | 0, ⟨_, _ :: _, _⟩ => none
  | rounds + 1, ⟨resolved, part :: pending, seen⟩ =>
    loop rounds (advance host ⟨resolved, pending, seen⟩ part)

inductive ResolveError where
  | nulByte
  | noWorkingDirectory
  | endless
  deriving DecidableEq

/-- The parts that the links of the tree can put on the stack, each link with its mark. -/
def weight : Location × Node → Nat
  | (_, .link target) => (parts target).length + 1
  | _ => 0

/-- More rounds than the loop takes, as `loop_terminates` shows. -/
def rounds (path : Bytes) : Nat := (parts path).length + (host.tree.entries.map weight).sum

def resolve (path : Bytes) : Except ResolveError Bytes :=
  if 0 ∈ path then .error .nulByte
  else
    match if isAbsolute path then some [] else host.cwd with
    | none => .error .noWorkingDirectory
    | some place =>
      match loop host (rounds host path) ⟨render place, pushParts [] path, []⟩ with
      | some resolved => .ok resolved
      | none => .error .endless

inductive Refusal where
  | unusable
  | outside (resolved root : Bytes)
  deriving DecidableEq

def containedPath (root candidate : Bytes) : Except Refusal Bytes :=
  match resolve host root with
  | .error _ => .error .unusable
  | .ok resolvedRoot =>
    let joined := if isAbsolute candidate then candidate else join resolvedRoot candidate
    match resolve host joined with
    | .error _ => .error .unusable
    | .ok resolved =>
      if startsWith resolved resolvedRoot then .ok resolved
      else .error (.outside resolved resolvedRoot)

end Resolve

end Agentless.Io.Contain
