import Agentless.Checks.ContractExact
import Agentless.Library.Queues
import Agentless.Text.Diff

/-!
# The blocks a change adds

`clone_delta` pairs the old blocks of a run with the new ones: first within each file, where a block
on a line that the diff left in place pairs with itself, and then across files. The new blocks that
no pass pairs are the added ones. Every pass keeps the counts of a key apart that the passes before
it left, so the added blocks of a Type-2 key are exactly those beyond the old ones.
-/

namespace Agentless.Checks.Copies

open Metrics (Block)
open Queues Groups

/-- One block of a run. The program keeps the number and looks the block up under it. -/
structure Placed where
  id : Nat
  path : Text
  block : Block
deriving DecidableEq, Repr

namespace Placed

def line (placed : Placed) : Nat := placed.block.startLine

def exact (placed : Placed) : Bytes := placed.block.exact

def type2 (placed : Placed) : Bytes := placed.block.key

/-- By path, then by the first line, then by the last. -/
def precedes (x y : Placed) : Prop :=
  x.path < y.path ∨ x.path = y.path ∧ (x.block.startLine < y.block.startLine ∨
    x.block.startLine = y.block.startLine ∧ x.block.endLine ≤ y.block.endLine)

instance : DecidableRel precedes := fun x y => inferInstanceAs (Decidable
  (x.path < y.path ∨ x.path = y.path ∧ (x.block.startLine < y.block.startLine ∨
    x.block.startLine = y.block.startLine ∧ x.block.endLine ≤ y.block.endLine)))

end Placed

def sortByPlace (blocks : List Placed) : List Placed := blocks.insertionSort Placed.precedes

/-- A side that does not exist has no blocks. -/
def blocks (blocksOf : Measured Parsed → List Block) (side : Option (Measured Parsed)) :
    List Block :=
  (side.map blocksOf).getD []

/-- The blocks of the two texts of one file. The map takes a line of the old text, from one, to the
line of the new text where the diff left it. -/
structure Indexed where
  old : List Placed
  new : List Placed
  unchanged : Nat → Option Nat

structure Run where
  blocks : List Placed
  indexed : List Indexed

/-- Lines end at a line feed alone. -/
def unchangedLines (old new : Option (Measured Parsed)) : Nat → Option Nat :=
  match old, new with
  | some old, some new =>
    let oldRows := old.parsed.source.splitOn '\n'
    let newRows := new.parsed.source.splitOn '\n'
    filled <| (Text.Diff.matchingBlocks oldRows newRows).flatMap fun block =>
      (List.range block.size).map fun at_ => (block.aAt + at_ + 1, block.bAt + at_ + 1)
  | _, _ => fun _ => none

namespace Run

def pushAll (run : Run) (path : Text) (blocks : List Block) : Run × List Placed :=
  let pushed := blocks.mapIdx fun index block => { id := run.blocks.length + index, path, block }
  ({ run with blocks := run.blocks ++ pushed }, pushed)

/-- A file of the index that the run does not change. -/
def pushFile (changed : List Text) (run : Run) (file : Text × List Block) : Run :=
  if file.1 ∈ changed then run else (run.pushAll file.1 file.2).1

/-- The new text's blocks are pushed before the old text's. -/
def pushSides (blocksOf : Measured Parsed → List Block) (run : Run) (sides : Sides Parsed) : Run :=
  let (run, new) := run.pushAll sides.path (Copies.blocks blocksOf sides.new)
  let (run, old) := run.pushAll sides.path (Copies.blocks blocksOf sides.old)
  let unchanged := unchangedLines sides.old sides.new
  { run with indexed := run.indexed ++ [{ old, new, unchanged }] }

/-- The run over the files of the index and the sides that were read. -/
def new (blocksOf : Measured Parsed → List Block) (files : List (Text × List Block))
    (read : List (Sides Parsed)) (changed : List Text) : Run :=
  read.foldl (pushSides blocksOf) (files.foldl (pushFile changed) { blocks := [], indexed := [] })

end Run

/-! ## The passes -/

/-- The old and the new blocks that are left when each new block takes the first old one that waits
under its key. The old ones come back by place. -/
def pairBy {κ : Type} [DecidableEq κ] (old new : List Placed) (oldKey newKey : Placed → κ) :
    List Placed × List Placed :=
  let (waiting, newLeft) := takeAll newKey (grouped oldKey old) new
  (sortByPlace (flat waiting), newLeft)

/-- A block on lines the diff left in place pairs with itself before any copy of it can. -/
def onUnchangedLines (item : Indexed) : List Placed × List Placed :=
  pairBy item.old item.new (fun placed => (item.unchanged placed.line, placed.exact))
    (fun placed => (some placed.line, placed.exact))

def withinFile (item : Indexed) : List Placed × List Placed :=
  let (olds, news) := onUnchangedLines item
  let (olds, news) := pairBy olds news Placed.exact Placed.exact
  pairBy olds news Placed.type2 Placed.type2

/-- Each file pairs its own blocks first, so a copy beside its original is the added one, and only
then do the leftovers pair across files as moves. -/
def Run.added (run : Run) : List Placed :=
  let left := run.indexed.map withinFile
  let oldLeft := sortByPlace (left.flatMap Prod.fst)
  let newLeft := sortByPlace (left.flatMap Prod.snd)
  let (olds, news) := pairBy oldLeft newLeft Placed.exact Placed.exact
  (pairBy olds news Placed.type2 Placed.type2).2

/-- The new blocks of a run. -/
def Run.news (run : Run) : List Placed := run.indexed.flatMap Indexed.new

/-- The old blocks of a run. -/
def Run.olds (run : Run) : List Placed := run.indexed.flatMap Indexed.old

/-! ## What a pass leaves -/

/-- As many new as old blocks with the property are gone. -/
def Balanced (p : Placed → Bool) (old new : List Placed)
    (left : List Placed × List Placed) : Prop :=
  ∃ met, old.countP p = met + left.1.countP p ∧ new.countP p = met + left.2.countP p

section Passes

variable {p : Placed → Bool} {old new : List Placed} {left next : List Placed × List Placed}

theorem Balanced.trans (h : Balanced p old new left) (hnext : Balanced p left.1 left.2 next) :
    Balanced p old new next := by
  obtain ⟨met, hold, hnew⟩ := h
  obtain ⟨more, hold', hnew'⟩ := hnext
  exact ⟨met + more, by omega, by omega⟩

theorem sortByPlace_perm (blocks : List Placed) : (sortByPlace blocks).Perm blocks :=
  List.perm_insertionSort _ _

variable {κ : Type} [DecidableEq κ] {oldKey newKey : Placed → κ}

theorem met_pairBy (old new : List Placed) (oldKey newKey : Placed → κ) :
    ∃ pairs, Met oldKey newKey old new (pairBy old new oldKey newKey).1
      (pairBy old new oldKey newKey).2 pairs := by
  have hkeyed : Keyed oldKey (grouped oldKey old) := keyed_grouped old
  obtain ⟨pairs, hmet⟩ := @met_takeAll _ _ κ _ oldKey newKey _ hkeyed new
  have hflat : (flat (grouped oldKey old)).Perm old := flat_grouped old
  have hsorted := sortByPlace_perm (flat (takeAll newKey (grouped oldKey old) new).1)
  refine ⟨pairs, ?_, hmet.new_perm, hmet.same, fun left hleft => ?_, hmet.sublist⟩
  · exact hflat.symm.trans (hmet.old_perm.trans (hsorted.symm.append_left _))
  · exact hmet.apart left (hsorted.mem_iff.mp hleft)

theorem balanced_pairBy (hsame : ∀ x ∈ old, ∀ y ∈ new, oldKey x = newKey y → p x = p y) :
    Balanced p old new (pairBy old new oldKey newKey) := by
  obtain ⟨pairs, hmet⟩ := met_pairBy old new oldKey newKey
  exact hmet.countP_eq hsame

theorem pairBy_subset {x : Placed} (hx : x ∈ (pairBy old new oldKey newKey).1) : x ∈ old := by
  obtain ⟨pairs, hmet⟩ := met_pairBy old new oldKey newKey
  exact hmet.old_perm.mem_iff.mpr (List.mem_append_right _ hx)

theorem pairBy_sublist (old new : List Placed) (oldKey newKey : Placed → κ) :
    (pairBy old new oldKey newKey).2.Sublist new := by
  obtain ⟨pairs, hmet⟩ := met_pairBy old new oldKey newKey
  exact hmet.sublist

/-- The passes of exact keys and then of Type-2 keys keep the counts of a Type-2 key balanced. -/
theorem balanced_exact_type2 (key : Bytes)
    (hexact : ∀ x ∈ old, ∀ y ∈ new, x.exact = y.exact → x.type2 = y.type2) :
    let left := pairBy old new Placed.exact Placed.exact
    Balanced (fun placed => placed.type2 = key) left.1 left.2
        (pairBy left.1 left.2 Placed.type2 Placed.type2) ∧
      Balanced (fun placed => placed.type2 = key) old new left := by
  refine ⟨balanced_pairBy fun x _ y _ heq => ?_, balanced_pairBy fun x hx y hy heq => ?_⟩
  · rw [heq]
  · rw [hexact x hx y hy heq]

end Passes

/-! ## Within a file -/

section Within

variable {item : Indexed}

theorem onUnchangedLines_sublist (item : Indexed) : (onUnchangedLines item).2.Sublist item.new :=
  pairBy_sublist _ _ _ _

theorem onUnchangedLines_subset {x : Placed} (hx : x ∈ (onUnchangedLines item).1) : x ∈ item.old :=
  pairBy_subset hx

theorem balanced_onUnchangedLines {p : Placed → Bool}
    (hsame : ∀ x ∈ item.old, ∀ y ∈ item.new, x.exact = y.exact → p x = p y) :
    Balanced p item.old item.new (onUnchangedLines item) :=
  balanced_pairBy fun x hx y hy heq => hsame x hx y hy (Prod.mk.inj heq).2

theorem withinFile_sublist (item : Indexed) : (withinFile item).2.Sublist item.new :=
  (pairBy_sublist _ _ _ _).trans ((pairBy_sublist _ _ _ _).trans (onUnchangedLines_sublist item))

theorem withinFile_subset {x : Placed} (hx : x ∈ (withinFile item).1) : x ∈ item.old :=
  onUnchangedLines_subset (pairBy_subset (pairBy_subset hx))

theorem balanced_withinFile (key : Bytes)
    (hexact : ∀ x ∈ item.old, ∀ y ∈ item.new, x.exact = y.exact → x.type2 = y.type2) :
    Balanced (fun placed => placed.type2 = key) item.old item.new (withinFile item) := by
  have hlines : Balanced (fun placed => placed.type2 = key) item.old item.new
      (onUnchangedLines item) :=
    balanced_onUnchangedLines fun x hx y hy heq => by rw [hexact x hx y hy heq]
  obtain ⟨hlast, hsecond⟩ := balanced_exact_type2 key fun x hx y hy =>
    hexact x (onUnchangedLines_subset hx) y ((onUnchangedLines_sublist item).subset hy)
  exact (hlines.trans hsecond).trans hlast

/-- Two texts with the same blocks pair all of them by the second pass. -/
theorem withinFile_eq_nil (hsame : item.new.map Placed.block = item.old.map Placed.block) :
    (withinFile item).2 = [] := by
  let lines := onUnchangedLines item
  let left := pairBy lines.1 lines.2 Placed.exact Placed.exact
  have hcount (key : Bytes) : item.new.countP (fun placed => placed.exact = key) =
      item.old.countP (fun placed => placed.exact = key) := by
    have hblocks := congrArg (List.countP fun block => block.exact = key) hsame
    rwa [List.countP_map, List.countP_map] at hblocks
  have hlines (key : Bytes) : Balanced (fun placed => placed.exact = key) item.old item.new lines :=
    balanced_onUnchangedLines fun x _ y _ heq => by rw [heq]
  have hleft : left.2 = [] := by
    refine List.eq_nil_iff_forall_not_mem.mpr fun x hx => ?_
    obtain ⟨pairs, hmet⟩ := met_pairBy lines.1 lines.2 Placed.exact Placed.exact
    have hkey := hmet.countP_key x.exact
    obtain ⟨met, hold, hnew⟩ := hlines x.exact
    have hpos : 0 < left.2.countP fun placed => placed.exact = x.exact :=
      List.countP_pos_iff.mpr ⟨x, hx, decide_eq_true rfl⟩
    have hboth := hcount x.exact
    change left.2.countP _ = _ at hkey
    omega
  have hsub := pairBy_sublist left.1 left.2 Placed.type2 Placed.type2
  exact List.sublist_nil.mp (hleft ▸ hsub)

end Within

/-! ## Over the run -/

section Added

variable {run : Run}

/-- What is left of the files is balanced over the run. -/
theorem balanced_files (key : Bytes) {items : List Indexed}
    (hexact : ∀ item ∈ items, ∀ x ∈ item.old, ∀ y ∈ item.new, x.exact = y.exact →
      x.type2 = y.type2) :
    Balanced (fun placed => placed.type2 = key) (items.flatMap Indexed.old)
      (items.flatMap Indexed.new)
      ((items.map withinFile).flatMap Prod.fst, (items.map withinFile).flatMap Prod.snd) := by
  induction items with
  | nil => exact ⟨0, rfl, rfl⟩
  | cons item items ih =>
    obtain ⟨met, hold, hnew⟩ := balanced_withinFile key (hexact item List.mem_cons_self)
    obtain ⟨more, hold', hnew'⟩ := ih fun other hother =>
      hexact other (List.mem_cons_of_mem _ hother)
    refine ⟨met + more, ?_, ?_⟩
    · simp only [List.flatMap_cons, List.map_cons, List.countP_append] at hold' ⊢
      omega
    · simp only [List.flatMap_cons, List.map_cons, List.countP_append] at hnew' ⊢
      omega

theorem added_subperm (run : Run) :
    run.added.Subperm ((run.indexed.map withinFile).flatMap Prod.snd) := by
  have hsub := (pairBy_sublist (sortByPlace ((run.indexed.map withinFile).flatMap Prod.fst))
    (sortByPlace ((run.indexed.map withinFile).flatMap Prod.snd)) Placed.exact Placed.exact)
  exact ((pairBy_sublist _ _ _ _).trans hsub).subperm.trans (sortByPlace_perm _).subperm

theorem left_sublist (run : Run) :
    ((run.indexed.map withinFile).flatMap Prod.snd).Sublist run.news := by
  rw [List.flatMap_map]
  unfold Run.news
  induction run.indexed with
  | nil => exact List.Sublist.refl _
  | cons item items ih => exact (withinFile_sublist item).append ih

theorem countP_added (key : Bytes)
    (hexact : ∀ x ∈ run.olds, ∀ y ∈ run.news, x.exact = y.exact → x.type2 = y.type2) :
    run.added.countP (fun placed => placed.type2 = key) =
      run.news.countP (fun placed => placed.type2 = key) -
        run.olds.countP (fun placed => placed.type2 = key) := by
  let oldLeft := sortByPlace ((run.indexed.map withinFile).flatMap Prod.fst)
  let newLeft := sortByPlace ((run.indexed.map withinFile).flatMap Prod.snd)
  let left := pairBy oldLeft newLeft Placed.exact Placed.exact
  have hfiles := @balanced_files key run.indexed fun item hitem x hx y hy =>
    hexact x (List.mem_flatMap.mpr ⟨item, hitem, hx⟩) y (List.mem_flatMap.mpr ⟨item, hitem, hy⟩)
  have holds : ∀ x ∈ oldLeft, x ∈ run.olds := fun x hx => by
    obtain ⟨pair, hpair, hx⟩ := List.mem_flatMap.mp ((sortByPlace_perm _).mem_iff.mp hx)
    obtain ⟨item, hitem, rfl⟩ := List.mem_map.mp hpair
    exact List.mem_flatMap.mpr ⟨item, hitem, withinFile_subset hx⟩
  have hnews : ∀ y ∈ newLeft, y ∈ run.news := fun y hy => by
    obtain ⟨pair, hpair, hy⟩ := List.mem_flatMap.mp ((sortByPlace_perm _).mem_iff.mp hy)
    obtain ⟨item, hitem, rfl⟩ := List.mem_map.mp hpair
    exact List.mem_flatMap.mpr ⟨item, hitem, (withinFile_sublist item).subset hy⟩
  have hmoved : Balanced (fun placed => placed.type2 = key) oldLeft newLeft left :=
    (balanced_exact_type2 key fun x hx y hy => hexact x (holds x hx) y (hnews y hy)).2
  obtain ⟨pairs, hmet⟩ := met_pairBy left.1 left.2 Placed.type2 Placed.type2
  have hkey := hmet.countP_key key
  obtain ⟨met, hold, hnew⟩ := hfiles
  obtain ⟨more, hold', hnew'⟩ := hmoved
  dsimp only at hold hnew
  have holdPerm : oldLeft.countP (fun placed => placed.type2 = key) = _ :=
    (sortByPlace_perm _).countP_eq _
  have hnewPerm : newLeft.countP (fun placed => placed.type2 = key) = _ :=
    (sortByPlace_perm _).countP_eq _
  change run.added.countP _ = _ at hkey
  unfold Run.olds Run.news
  omega

end Added

/-! ## From the texts -/

section Texts

variable {blocksOf : Measured Parsed → List Block}

/-- The item holds the blocks of the sides, under their path. -/
structure Holds (blocksOf : Measured Parsed → List Block) (item : Indexed) (sides : Sides Parsed) :
    Prop where
  new : item.new.map Placed.block = blocks blocksOf sides.new
  old : item.old.map Placed.block = blocks blocksOf sides.old
  path : ∀ placed ∈ item.new, placed.path = sides.path

theorem map_block_pushAll (run : Run) (path : Text) (blocks : List Block) :
    (run.pushAll path blocks).2.map Placed.block = blocks := by
  simp [Run.pushAll, List.mapIdx_eq_zipIdx_map, Function.comp_def]

theorem path_pushAll {run : Run} {path : Text} {blocks : List Block} {placed : Placed}
    (h : placed ∈ (run.pushAll path blocks).2) : placed.path = path := by
  obtain ⟨index, hindex, rfl⟩ := List.mem_mapIdx.mp h
  rfl

theorem indexed_pushFiles (changed : List Text) (files : List (Text × List Block)) (run : Run) :
    (files.foldl (Run.pushFile changed) run).indexed = run.indexed := by
  induction files generalizing run with
  | nil => rfl
  | cons file files ih =>
    rw [List.foldl_cons, ih]
    unfold Run.pushFile
    split_ifs <;> rfl

/-- Each item of a run holds the blocks of sides that were read. -/
theorem holds_new {files : List (Text × List Block)} {read : List (Sides Parsed)}
    {changed : List Text} {item : Indexed}
    (h : item ∈ (Run.new blocksOf files read changed).indexed) :
    ∃ sides ∈ read, Holds blocksOf item sides := by
  have hrun (run : Run) (more : List (Sides Parsed))
      (hitem : item ∈ (more.foldl (Run.pushSides blocksOf) run).indexed) :
      item ∈ run.indexed ∨ ∃ sides ∈ more, Holds blocksOf item sides := by
    induction more generalizing run with
    | nil => exact .inl hitem
    | cons sides more ih =>
      obtain hbefore | ⟨other, hother, hholds⟩ := ih (run.pushSides blocksOf sides) hitem
      · obtain hrun | hitem := List.mem_append.mp hbefore
        · exact .inl hrun
        · obtain rfl := List.mem_singleton.mp hitem
          exact .inr ⟨sides, List.mem_cons_self, map_block_pushAll _ _ _, map_block_pushAll _ _ _,
            fun placed => path_pushAll⟩
      · exact .inr ⟨other, List.mem_cons_of_mem _ hother, hholds⟩
  obtain hbefore | hread := hrun _ _ h
  · rw [indexed_pushFiles] at hbefore
    exact absurd hbefore List.not_mem_nil
  · exact hread

/-- Pairs that are not refused have paths of their own. -/
theorem nodup_of_refuseRepeats {pairs : List Pair} (h : refuseRepeats.{0} pairs = .ok ⟨⟩) :
    (pairs.map Pair.path).Nodup := by
  have hseen (seen : List Text) (pairs : List Pair) (hnone : repeated seen pairs = none) :
      (pairs.map Pair.path).Nodup ∧ ∀ pair ∈ pairs, pair.path ∉ seen := by
    induction pairs generalizing seen with
    | nil => exact ⟨List.nodup_nil, fun _ hpair => absurd hpair List.not_mem_nil⟩
    | cons pair pairs ih =>
      unfold repeated at hnone
      split_ifs at hnone with hmem
      obtain ⟨hnodup, hrest⟩ := ih _ hnone
      refine ⟨List.nodup_cons.mpr ⟨fun hagain => ?_, hnodup⟩, ?_⟩
      · obtain ⟨other, hother, hpath⟩ := List.mem_map.mp hagain
        exact hrest other hother (List.mem_cons.mpr (.inl hpath))
      · exact List.forall_mem_cons.mpr ⟨hmem, fun other hother hold =>
          hrest other hother (List.mem_cons_of_mem _ hold)⟩
  unfold refuseRepeats at h
  cases hrepeated : repeated [] pairs with
  | none => exact (hseen [] pairs hrepeated).1
  | some path =>
    rw [hrepeated] at h
    cases h

/-- The blocks that a run adds under a Type-2 key are the new ones beyond the old ones, when blocks
of one exact key have one Type-2 key, and a file whose text does not change adds none. -/
theorem added_beyond_old (measurer : Measurer) (blocksOf : Measured Parsed → List Block)
    (files : List (Text × List Block)) (texts : List TextPair) (run : Run)
    (hrun : run = Run.new blocksOf files ((texts.map measurer.pair).filterMap Pair.sides)
      (texts.map TextPair.path))
    (hexact : ∀ x ∈ run.olds, ∀ y ∈ run.news, x.exact = y.exact → x.type2 = y.type2) :
    run.added.Subperm run.news ∧
    (∀ key, run.added.countP (fun placed => placed.type2 = key) =
      run.news.countP (fun placed => placed.type2 = key) -
        run.olds.countP (fun placed => placed.type2 = key)) ∧
    (refuseRepeats.{0} (texts.map measurer.pair) = .ok ⟨⟩ → ∀ text ∈ texts, text.new = text.old →
      ∀ placed ∈ run.added, placed.path ≠ text.path) := by
  refine ⟨(added_subperm run).trans (left_sublist run).subperm,
    fun key => countP_added key hexact, ?_⟩
  subst hrun
  intro hdistinct text htext hsame placed hplaced hpath
  have hmem := (added_subperm _).subset hplaced
  obtain ⟨pair, hpair, hplaced⟩ := List.mem_flatMap.mp hmem
  obtain ⟨item, hitem, rfl⟩ := List.mem_map.mp hpair
  obtain ⟨sides, hsides, hholds⟩ := holds_new hitem
  obtain ⟨other, hother, hsome⟩ := List.mem_filterMap.mp hsides
  obtain ⟨measured, hmeasured, rfl⟩ := List.mem_map.mp hother
  obtain ⟨hown, hunchanged⟩ := sides_pair hsome
  -- The path tells the texts apart, so the block is of the text that does not change.
  have hnodup : (texts.map TextPair.path).Nodup := by
    have := nodup_of_refuseRepeats hdistinct
    rwa [List.map_map] at this
  have hnew := hholds.path placed ((withinFile_sublist item).subset hplaced)
  have hpaths := hown.symm.trans (hnew.symm.trans hpath)
  obtain rfl := List.inj_on_of_nodup_map hnodup hmeasured htext hpaths
  have hnil := @withinFile_eq_nil item (by rw [hholds.new, hholds.old, hunchanged hsame])
  rw [hnil] at hplaced
  exact absurd hplaced List.not_mem_nil

end Texts

/-! ## A copied line -/

namespace CopiedLine

open Syntax

def measurer : Measurer where
  pairLanguage _ := some .rust
  measured language text :=
    .ok {
      parsed := { language, source := text, flat := { records := [], lineStarts := [0] } }
      units := [] }

/-- Every row is a block, and its Type-2 key is its length. -/
def rows (measured : Measured Parsed) : List Block :=
  (measured.parsed.source.splitOn '\n').mapIdx fun index row =>
    { startLine := index + 1
      endLine := index + 1
      key := [UInt8.ofNat row.length]
      exact := row.map fun c => UInt8.ofNat c.toNat
      function := false
      tokens := 40 }

def copied : TextPair where
  path := "a".toList
  old := some "f()".toList
  new := some "f()\nf()\ng()".toList

def same : TextPair where
  path := "b".toList
  old := some "f()".toList
  new := some "f()".toList

def run : Run := Run.new rows [] (([copied, same].map measurer.pair).filterMap Pair.sides)
  ([copied, same].map TextPair.path)

theorem added_beyond_old_copied : run.added.countP (fun placed => placed.type2 = [3]) = 2 ∧
    ∀ placed ∈ run.added, placed.path ≠ "b".toList := by
  obtain ⟨-, hcount, hsame⟩ := added_beyond_old measurer rows [] [copied, same] run rfl (by decide)
  exact ⟨(hcount [3]).trans (by decide), hsame rfl same (by decide) rfl⟩

end CopiedLine

end Agentless.Checks.Copies
