import Agentless.Io.ContainExact
import Agentless.Library.Fallible
import Agentless.Patch.Unidiff
import Agentless.Text.CodePointString

/-!
# Canonical edit paths

Every path that an edit names is resolved below the root and rewritten relative to it, so that the
edits of one file are grouped under one path. A resolution adds only names that the written path
and the targets of links hold, so in a tree of UTF-8 names the rewritten path is the exact path of
the place that the written one leads to.
-/

namespace Agentless.App

open Posix StdPath Io.Contain Patch

/-- The text of a path, where `lossy` replaces what is not UTF-8. -/
def toStringLossy (lossy : Bytes → Text) (path : Bytes) : Text :=
  (CodePointString.mk path).asStr.getD (lossy path)

section Canonical

variable (lossy : Bytes → Text) (host : Host)

def relative (root : Bytes) (path : Text) : Except Refusal Text :=
  match containedPath host root (utf8 path) with
  | .error refusal => .error refusal
  | .ok resolved =>
    match stripPrefix resolved root with
    | none => .error (.outside resolved root)
    | some inside =>
      let text := toStringLossy lossy inside
      .ok (if text = [] then ".".toList else text)

def canonical (root : Bytes) (edits : List Edit) : Except Refusal (List Edit) :=
  match resolve host root with
  | .error _ => .error .unusable
  | .ok root => edits.mapM fun edit => do
    return { edit with path := ← relative lossy host root edit.path }

end Canonical

/-- The bytes of a name that a UTF-8 tree can hold. -/
def Plain (bytes : Bytes) : Prop := IsUtf8 bytes ∧ 0 ∉ bytes

/-- Every link of the tree leads through plain names. -/
def PlainLinks (tree : Tree) : Prop :=
  ∀ place target, tree.node place = some (.link target) → Plain target

/-- The path of a place relative to the root. -/
def spelling (names : Location) : Bytes := if names = [] then dot else renderRelative names

theorem parts_spelling (names : Location) :
    parts (spelling names) = if names = [] then [dot] else names.map Name.bytes := by
  unfold spelling
  split_ifs with hnames
  · rfl
  · exact parts_renderRelative hnames

theorem spelling_injective : Function.Injective spelling := by
  have hdot : ∀ names : Location, [dot] ≠ names.map Name.bytes := by
    intro names heq
    cases names with
    | nil => cases heq
    | cons name names => exact name.ne_dot (List.cons.inj heq).1.symm
  have hbytes : Function.Injective Name.bytes := by
    rintro ⟨bytes, -, -, -, -⟩ ⟨bytes', -, -, -, -⟩ rfl
    rfl
  intro names names' heq
  have hparts := congrArg parts heq
  rw [parts_spelling, parts_spelling] at hparts
  split_ifs at hparts with hnames hnames' hnames'
  · rw [hnames, hnames']
  · exact absurd hparts (hdot names')
  · exact absurd hparts.symm (hdot names)
  · exact List.map_injective_iff.mpr hbytes hparts

/-! ## Plain names -/

theorem plain_utf8 {text : Text} (h : 0 ∉ utf8 text) : Plain (utf8 text) := ⟨⟨text, rfl⟩, h⟩

theorem Plain.append {bytes more : Bytes} (h : Plain bytes) (hmore : Plain more) :
    Plain (bytes ++ more) := by
  obtain ⟨⟨text, rfl⟩, hnul⟩ := h
  obtain ⟨⟨text', rfl⟩, hnul'⟩ := hmore
  refine ⟨⟨text ++ text', (utf8_append _ _).symm⟩, ?_⟩
  simp [hnul, hnul']

theorem Plain.of_mem_parts {bytes part : Bytes} (h : Plain bytes) (hpart : part ∈ parts bytes) :
    Plain part := by
  obtain ⟨⟨text, rfl⟩, hnul⟩ := h
  have hmem : ∀ byte ∈ part, byte ∈ utf8 text := fun byte hbyte => mem_of_mem_parts hpart hbyte
  rw [parts_utf8] at hpart
  obtain ⟨piece, -, rfl⟩ := List.mem_map.mp hpart
  exact plain_utf8 fun hzero => hnul (hmem 0 hzero)

theorem plain_spelling {names : Location} (h : ∀ name ∈ names, Plain name.bytes) :
    Plain (spelling names) := by
  induction names using List.reverseRecOn with
  | nil => exact plain_utf8 (by decide : 0 ∉ utf8 ['.'])
  | append_singleton names name ih =>
    have hname : Plain name.bytes := h name (by simp)
    have hslash : Plain [slash] := plain_utf8 (by decide : 0 ∉ utf8 ['/'])
    rw [spelling, if_neg (by simp)]
    rcases eq_or_ne names [] with rfl | hnames
    · simpa [renderRelative] using hname
    · have hspelling := ih fun other hother => h other (List.mem_append_left _ hother)
      rw [spelling, if_neg hnames] at hspelling
      rw [renderRelative_concat hnames]
      exact hspelling.append (hslash.append hname)

/-! ## The place of a path -/

section Place

variable {lossy : Bytes → Text} {host : Host} {root : Bytes} {base names : Location}
  {path text : Text}

/-- The written path leads to the place that the names lead to from the root. -/
structure Lands (host : Host) (root : Bytes) (base : Location) (path : Text) (names : Location) :
    Prop where
  contained : containedPath host root (utf8 path) = .ok (render (base ++ names))
  plain : ∀ name ∈ names, Plain name.bytes
  straight : host.tree.Straight (base ++ names)
  nul_notMem : 0 ∉ render base

theorem follow_spelling (hnames : host.tree.Straight (base ++ names)) (limit : Nat) :
    host.tree.follow false limit base (parts (spelling names)) = some (base ++ names) := by
  have hbase : host.tree.Straight base :=
    fun place hplace => hnames place (hplace.trans (List.prefix_append _ _))
  rw [parts_spelling]
  split_ifs with hnil
  · rw [hnil, Tree.follow_stay rfl, Tree.follow_nil, List.append_nil]
  · have hall : host.tree.follow false limit [] ((base ++ names).map Name.bytes ++ []) =
        some (base ++ names) := by rw [hnames.follow_names, Tree.follow_nil]
    rwa [List.map_append, List.append_assoc, hbase.follow_names, List.append_nil] at hall

/-- The names of a place lead to it. -/
theorem Lands.respell (h : Lands host root base path names)
    (hroot : resolve host root = .ok (render base)) (htext : utf8 text = spelling names) :
    Lands host root base text names where
  contained := by
    have hbase : host.tree.Straight base :=
      fun place hplace => h.straight place (hplace.trans (List.prefix_append _ _))
    refine containedPath_of_leading hroot hbase h.nul_notMem ⟨?_, ?_, ?_⟩
    · rw [htext, spelling]
      split_ifs
      · rfl
      · exact isAbsolute_renderRelative names
    · exact htext ▸ (plain_spelling h.plain).2
    · exact htext ▸ follow_spelling h.straight 0
  plain := h.plain
  straight := h.straight
  nul_notMem := h.nul_notMem

theorem utf8_toStringLossy (lossy : Bytes → Text) (hnames : ∀ name ∈ names, Plain name.bytes) :
    utf8 (if toStringLossy lossy (renderRelative names) = [] then ".".toList
      else toStringLossy lossy (renderRelative names)) = spelling names := by
  rcases eq_or_ne names [] with rfl | hne
  · have hempty : toStringLossy lossy (renderRelative []) = [] := by
      change toStringLossy lossy (utf8 []) = []
      rw [toStringLossy, CodePointString.asStr_utf8, Option.getD_some]
    rw [if_pos hempty]
    rfl
  · obtain ⟨⟨text, htext⟩, -⟩ := plain_spelling hnames
    rw [spelling, if_neg hne] at htext ⊢
    have htext' : toStringLossy lossy (renderRelative names) = text := by
      rw [htext, toStringLossy, CodePointString.asStr_utf8, Option.getD_some]
    have hnonempty : text ≠ [] := by
      rintro rfl
      exact (getLast?_renderRelative_ne_slash hne).1 htext
    rw [htext', if_neg hnonempty, htext]

theorem relative_of_lands (lossy : Bytes → Text) (hroot : resolve host root = .ok (render base))
    (hbase : host.tree.Straight base) (h : Lands host root base path names) :
    ∃ text, relative lossy host (render base) path = .ok text ∧ utf8 text = spelling names := by
  refine ⟨_, ?_, utf8_toStringLossy lossy h.plain⟩
  rw [relative, containedPath_render hroot hbase h.nul_notMem, h.contained]
  dsimp only
  rw [stripPrefix_render]

theorem plain_of_follow {limit : Nat} (hlinks : PlainLinks host.tree) (hpath : 0 ∉ utf8 path)
    (h : host.tree.follow false limit (origin base (utf8 path)) (parts (utf8 path)) =
      some (base ++ names)) : ∀ name ∈ names, Plain name.bytes := by
  have hstart : Tree.Grown Plain base (origin base (utf8 path)) := by
    unfold origin
    split_ifs
    · exact Tree.grown_nil
    · exact Tree.grown_self
  refine (hstart.follow (fun part hpart => ?_) (fun link target hlink part hpart => ?_) h).names_of_append
  · exact (plain_utf8 hpath).of_mem_parts hpart
  · exact (hlinks link target hlink).of_mem_parts hpart

/-- An accepted path leads to a place below the root, and its rewritten path is the names that
lead there. -/
theorem lands_of_relative (hloops : host.tree.Loopless) (hlinks : PlainLinks host.tree)
    (hroot : resolve host root = .ok (render base)) (hbase : host.tree.Straight base)
    (h : relative lossy host (render base) path = .ok text) :
    ∃ names, Lands host root base path names ∧ utf8 text = spelling names := by
  have haccepted : ∃ inside, containedPath host (render base) (utf8 path) = .ok inside := by
    unfold relative at h
    split at h
    · cases h
    · exact ⟨_, ‹_›⟩
  obtain ⟨inside, hinside⟩ := haccepted
  obtain ⟨base', names, limit, hbase', rfl, -, hstraight, hnul, hfollow⟩ :=
    containedPath_lands hloops hinside
  have hrender : 0 ∉ render base := (first_of_resolve hbase').1
  rw [resolve_render hbase hrender] at hbase'
  obtain rfl : base = base' := render_injective (Except.ok.inj hbase')
  have hlands : Lands host root base path names :=
    ⟨(containedPath_render hroot hbase hrender).symm.trans hinside,
      plain_of_follow hlinks hnul hfollow, hstraight, hrender⟩
  obtain ⟨text', htext', hspelling⟩ := relative_of_lands lossy hroot hbase hlands
  obtain rfl : text' = text := Except.ok.inj (htext'.symm.trans h)
  exact ⟨names, hlands, hspelling⟩

end Place

/-! ## The rewritten edits -/

/-- An edit, and the edit that it is rewritten to: nothing but the path changes, and the new path is
the names that lead from the root to the place of the written one. -/
def Rewritten (host : Host) (root : Bytes) (base : Location) (edit new : Edit) : Prop :=
  new = { edit with path := new.path } ∧
    ∃ names, Lands host root base edit.path names ∧ utf8 new.path = spelling names

section Rewritten

variable {lossy : Bytes → Text} {host : Host} {root : Bytes} {base : Location}
  {edit new other other' : Edit} {edits rewritten : List Edit}

theorem canonical_eq_ok_iff (hroot : resolve host root = .ok (render base)) :
    canonical lossy host root edits = .ok rewritten ↔
      List.Forall₂ (fun edit new => new = { edit with path := new.path } ∧
        relative lossy host (render base) edit.path = .ok new.path) edits rewritten := by
  have hstep : ∀ edit new : Edit,
      (do return { edit with path := ← relative lossy host (render base) edit.path }) =
        (.ok new : Except Refusal Edit) ↔
      new = { edit with path := new.path } ∧
        relative lossy host (render base) edit.path = .ok new.path := by
    intro edit new
    cases hrelative : relative lossy host (render base) edit.path with
    | error refusal => exact ⟨nofun, fun h => nomatch h.2⟩
    | ok text =>
      cases edit
      cases new
      change Except.ok _ = Except.ok _ ↔ _
      simp [eq_comm]
      tauto
  rw [canonical, hroot]
  dsimp only
  rw [Except.mapM_eq_ok_iff]
  simp only [hstep]

theorem rewritten_of_canonical (hloops : host.tree.Loopless) (hlinks : PlainLinks host.tree)
    (h : canonical lossy host root edits = .ok rewritten) :
    ∃ base, resolve host root = .ok (render base) ∧ host.tree.Straight base ∧
      List.Forall₂ (Rewritten host root base) edits rewritten := by
  have haccepted : ∃ resolved, resolve host root = .ok resolved := by
    unfold canonical at h
    split at h
    · cases h
    · exact ⟨_, ‹_›⟩
  obtain ⟨resolved, hroot⟩ := haccepted
  obtain ⟨-, -, base, -, rfl, -, hbase, -⟩ := resolve_loopless hloops hroot
  refine ⟨base, hroot, hbase, ((canonical_eq_ok_iff hroot).mp h).imp ?_⟩
  rintro edit new ⟨hnew, hrelative⟩
  exact ⟨hnew, lands_of_relative hloops hlinks hroot hbase hrelative⟩

theorem Rewritten.same_place (h : Rewritten host root base edit new)
    (hroot : resolve host root = .ok (render base)) :
    ∃ inside, containedPath host root (utf8 edit.path) = .ok inside ∧
      containedPath host root (utf8 new.path) = .ok inside := by
  obtain ⟨-, names, hlands, hspelling⟩ := h
  exact ⟨_, hlands.contained, (hlands.respell hroot hspelling).contained⟩

theorem Rewritten.path_eq_iff (h : Rewritten host root base edit new)
    (hother : Rewritten host root base other other') :
    new.path = other'.path ↔
      containedPath host root (utf8 edit.path) = containedPath host root (utf8 other.path) := by
  obtain ⟨-, names, hlands, hspelling⟩ := h
  obtain ⟨-, names', hlands', hspelling'⟩ := hother
  rw [hlands.contained, hlands'.contained, Except.ok.injEq, ← utf8_injective.eq_iff, hspelling,
    hspelling', spelling_injective.eq_iff]
  constructor
  · rintro rfl
    rfl
  · intro hrender
    exact List.append_cancel_left (render_injective hrender)

theorem Rewritten.again (lossy : Bytes → Text) (h : Rewritten host root base edit new)
    (hroot : resolve host root = .ok (render base)) (hbase : host.tree.Straight base) :
    relative lossy host (render base) new.path = .ok new.path := by
  obtain ⟨-, names, hlands, hspelling⟩ := h
  obtain ⟨text, htext, hspelling'⟩ :=
    relative_of_lands lossy hroot hbase (hlands.respell hroot hspelling)
  rw [htext, utf8_injective (hspelling'.trans hspelling.symm)]

end Rewritten

/-- In a tree of UTF-8 names whose links form no loop, an accepted edit is rewritten to a path that
leads below the root to the place of the written one; two edits get the same path exactly when
they name the same place; and the rewritten edits are rewritten to themselves. -/
theorem canonical_names_same_place (lossy : Bytes → Text) (host : Host) (root : Bytes)
    (edits rewritten : List Edit) (hloops : host.tree.Loopless) (hlinks : PlainLinks host.tree)
    (h : canonical lossy host root edits = .ok rewritten) :
    List.Forall₂ (fun edit new => new = { edit with path := new.path } ∧
      ∃ inside, containedPath host root (utf8 edit.path) = .ok inside ∧
        containedPath host root (utf8 new.path) = .ok inside) edits rewritten ∧
    (∀ pair ∈ edits.zip rewritten, ∀ other ∈ edits.zip rewritten,
      pair.2.path = other.2.path ↔
        containedPath host root (utf8 pair.1.path) = containedPath host root (utf8 other.1.path)) ∧
    canonical lossy host root rewritten = .ok rewritten := by
  obtain ⟨base, hroot, hbase, hrewritten⟩ := rewritten_of_canonical hloops hlinks h
  refine ⟨hrewritten.imp fun edit new hnew => ⟨hnew.1, hnew.same_place hroot⟩, ?_, ?_⟩
  · rintro ⟨edit, new⟩ hpair ⟨other, other'⟩ hother
    obtain ⟨-, hzip⟩ := List.forall₂_iff_zip.mp hrewritten
    exact (hzip hpair).path_eq_iff (hzip hother)
  · refine (canonical_eq_ok_iff hroot).mpr (List.forall₂_same.mpr fun new hnew => ⟨rfl, ?_⟩)
    have hagain := hrewritten.flip.imp fun new edit (hedit : Rewritten host root base edit new) =>
      And.intro (hedit.again lossy hroot hbase) hedit
    exact ((List.forall₂_and_left _ _).mp hagain).1 new hnew

def Linked.p : Name := ⟨utf8 "p".toList, by decide, by decide, by decide, by decide⟩

def Linked.a : Name := ⟨utf8 "a".toList, by decide, by decide, by decide, by decide⟩

def Linked.k : Name := ⟨utf8 "k".toList, by decide, by decide, by decide, by decide⟩

/-- A root with a file and a link to it. -/
def linked : Host where
  tree :=
    { entries :=
        [([Linked.p], .directory), ([Linked.p, Linked.a], .file),
          ([Linked.p, Linked.k], .link (utf8 "a".toList))]
      directory_of_entry := by decide }
  limit := 40
  cwd := none
  directory_of_cwd := by simp

theorem linked_link {place : Location} {target : Bytes}
    (h : linked.tree.node place = some (.link target)) :
    target = utf8 "a".toList ∧ place = [Linked.p, Linked.k] := by
  rcases eq_or_ne place [] with rfl | hne
  · cases h
  · have hmem := Tree.mem_entries_of_node hne h
    simp only [linked, List.mem_cons, Prod.mk.injEq, reduceCtorEq, and_false, false_or,
      Node.link.injEq, List.not_mem_nil, or_false] at hmem
    exact ⟨hmem.2, hmem.1⟩

/-- The link leads to a file, so a path meets no more links than it has parts. -/
theorem linked_loopless : linked.tree.Loopless := by
  have hends : ∀ path here, ∃ limit there, linked.tree.follow false limit here path = some there := by
    intro path
    induction path with
    | nil => exact fun here => ⟨0, here, rfl⟩
    | cons part rest ih =>
      intro here
      cases hmove : move part with
      | stay =>
        obtain ⟨limit, there, hthere⟩ := ih here
        exact ⟨limit, there, (Tree.follow_stay hmove).trans hthere⟩
      | up =>
        obtain ⟨limit, there, hthere⟩ := ih here.dropLast
        exact ⟨limit, there, (Tree.follow_up hmove).trans hthere⟩
      | down name =>
        by_cases hlink : ∃ target, linked.tree.node (here ++ [name]) = some (.link target)
        · obtain ⟨target, hnode⟩ := hlink
          obtain ⟨rfl, hplace⟩ := linked_link hnode
          obtain rfl : here = [Linked.p] := by simpa using congrArg List.dropLast hplace
          obtain ⟨limit, there, hthere⟩ := ih [Linked.p, Linked.a]
          refine ⟨limit + 1, there, (Tree.follow_link hmove hnode).trans ?_⟩
          have hparts : parts (utf8 "a".toList) = [Linked.a.bytes] := by decide
          have hfile : ∀ target, linked.tree.node ([Linked.p] ++ [Linked.a]) ≠ some (.link target) := by
            intro target h
            cases h
          rw [hparts]
          exact (Tree.follow_down (move_bytes Linked.a) hfile).trans hthere
        · obtain ⟨limit, there, hthere⟩ := ih (here ++ [name])
          exact ⟨limit, there, (Tree.follow_down hmove fun target h => hlink ⟨target, h⟩).trans hthere⟩
  exact fun path => hends path []

theorem linked_plainLinks : PlainLinks linked.tree := by
  intro place target h
  obtain ⟨rfl, -⟩ := linked_link h
  exact plain_utf8 (by decide)

/-- A link, a climb and the file itself are rewritten to one path. -/
theorem canonical_names_same_place_linked :
    let edits : List Edit := [⟨0, "k".toList, [], []⟩, ⟨1, "../p//./a".toList, [], []⟩,
      ⟨2, "/p/a".toList, [], []⟩]
    let rewritten : List Edit := [⟨0, "a".toList, [], []⟩, ⟨1, "a".toList, [], []⟩,
      ⟨2, "a".toList, [], []⟩]
    canonical (fun _ => []) linked (utf8 "/p".toList) edits = .ok rewritten ∧
    canonical (fun _ => []) linked (utf8 "/p".toList) rewritten = .ok rewritten := by
  have hrewritten : canonical (fun _ => []) linked (utf8 "/p".toList)
      [⟨0, "k".toList, [], []⟩, ⟨1, "../p//./a".toList, [], []⟩, ⟨2, "/p/a".toList, [], []⟩] =
      .ok [⟨0, "a".toList, [], []⟩, ⟨1, "a".toList, [], []⟩, ⟨2, "a".toList, [], []⟩] := by
    decide +kernel
  exact ⟨hrewritten, (canonical_names_same_place _ linked _ _ _ linked_loopless linked_plainLinks
    hrewritten).2.2⟩

end Agentless.App
