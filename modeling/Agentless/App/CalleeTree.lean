import Agentless.Checks.CalleesExact
import Agentless.Graph.Resolver
import Agentless.Library.Sequence

/-!
# The tree of callee overlap

The functions that the check reads, from the facts of a scan. A function spells every identifier on
its lines, so it spells each function whose name starts on one of them.
-/

namespace Agentless.App.CalleeTree

open Agentless.Graph Checks.Callees

/-- Each name that an identifier on the symbol's lines spells, sorted, each once. The references
are in document order, so the symbol's first one is found by its line. -/
def spelled (refs : List Ref) (symbol : Symbol) : List Text :=
  let names := ((refs.dropWhile fun reference => reference.line < symbol.line).takeWhile
    fun reference => reference.line ≤ symbol.endLine).map Ref.name
  (names.insertionSort (· ≤ ·)).destutter (· ≠ ·)

/-- What the check reads of a scan: the files in its scope, the functions and methods among their
symbols, and the functions that an edge of a function reaches. -/
structure Scope where
  inScope : FileFacts → Bool
  counted : FileFacts → Symbol → Bool
  callees : Text → List Callee

variable (scope : Scope)

def fileFunctions (file : FileFacts) : List TreeFunction :=
  (file.symbols.filter (scope.counted file)).map fun symbol =>
    { path := file.path
      name := symbol.name
      qualname := symbol.qualname
      line := symbol.line
      nameLine := symbol.nameLine
      callees := scope.callees (stableId file.language file.path symbol)
      spelled := spelled file.refs symbol }

def functions (files : List FileFacts) : List TreeFunction :=
  (files.filter scope.inScope).flatMap (fileFunctions scope)

/-- The identifiers of a file are in document order, and each function's name is one of them, on one
of the function's lines. -/
structure Extracted (file : FileFacts) : Prop where
  ordered : (file.refs.map Ref.line).Pairwise (· ≤ ·)
  named : ∀ symbol ∈ file.symbols, scope.counted file symbol → symbol.line ≤ symbol.nameLine ∧
    symbol.nameLine ≤ symbol.endLine ∧
    ∃ reference ∈ file.refs, reference.name = symbol.name ∧ reference.line = symbol.nameLine

variable {scope}

theorem mem_spelled {refs : List Ref} (hordered : (refs.map Ref.line).Pairwise (· ≤ ·))
    {symbol : Symbol} {reference : Ref} (hreference : reference ∈ refs)
    (hfirst : symbol.line ≤ reference.line) (hlast : reference.line ≤ symbol.endLine) :
    reference.name ∈ spelled refs symbol := by
  unfold spelled
  dsimp only
  rw [Sequence.mem_destutter_ne, List.mem_insertionSort]
  refine List.mem_map_of_mem ?_
  have hinside : reference ∈ refs.dropWhile fun other => other.line < symbol.line := by
    rw [← List.takeWhile_append_dropWhile (p := fun other : Ref => other.line < symbol.line)
      (l := refs)] at hreference
    obtain hbefore | hafter := List.mem_append.mp hreference
    · have hline := List.mem_takeWhile_imp hbefore
      exact absurd (of_decide_eq_true hline) (by omega)
    · exact hafter
  have hrest := hordered.sublist ((List.dropWhile_sublist fun other : Ref =>
    other.line < symbol.line).map Ref.line)
  generalize refs.dropWhile (fun other => other.line < symbol.line) = rest at hinside hrest
  induction rest with
  | nil => cases hinside
  | cons other rest ih =>
    obtain ⟨hless, hrest⟩ := List.pairwise_cons.mp hrest
    obtain rfl | hinside := List.mem_cons.mp hinside
    · simp [hlast]
    · have hother := hless _ (List.mem_map_of_mem hinside)
      rw [List.takeWhile_cons_of_pos (by simpa using hother.trans hlast)]
      exact List.mem_cons_of_mem _ (ih hinside hrest)

theorem spellsItsLine_functions {files : List FileFacts} (hpaths : (files.map FileFacts.path).Nodup)
    (hfiles : ∀ file ∈ files, Extracted scope file) : SpellsItsLine (functions scope files) := by
  intro f hf g hg hpath hline
  obtain ⟨file, hfile, hf⟩ := List.mem_flatMap.mp hf
  obtain ⟨other, hother, hg⟩ := List.mem_flatMap.mp hg
  obtain ⟨symbol, hsymbol, rfl⟩ := List.mem_map.mp hf
  obtain ⟨named, hnamed, rfl⟩ := List.mem_map.mp hg
  have hfile := List.mem_of_mem_filter hfile
  obtain rfl := List.inj_on_of_nodup_map hpaths hfile (List.mem_of_mem_filter hother) hpath
  obtain ⟨hordered, hnames⟩ := hfiles file hfile
  obtain ⟨hsymbol, hcounted⟩ := List.mem_filter.mp hsymbol
  obtain ⟨hfirst, hlast, -⟩ := hnames symbol hsymbol hcounted
  obtain ⟨hnamed, hcounted⟩ := List.mem_filter.mp hnamed
  obtain ⟨-, -, reference, hreference, hname, hat⟩ := hnames named hnamed hcounted
  have hsame : symbol.nameLine = reference.line := hline.trans hat.symm
  dsimp only
  rw [← hname]
  exact mem_spelled hordered hreference (hsame ▸ hfirst) (hsame ▸ hlast)

theorem kept_direction_scanned {files : List FileFacts} (hpaths : (files.map FileFacts.path).Nodup)
    (hfiles : ∀ file ∈ files, Extracted scope file)
    (hcallees : ∀ id, ((scope.callees id).map Callee.id).Nodup)
    (units : List (Checked (functions scope files))) (f g : Checks.Callees.At (functions scope files))
    (hrow : ∃ row ∈ allRows [] units, Row.direction _ row = (f, g) ∨ Row.direction _ row = (g, f)) :
    Xor (∃ row ∈ kept units, Row.direction _ row = (f, g))
      (∃ row ∈ kept units, Row.direction _ row = (g, f)) := by
  have honce : CalleesOnce (functions scope files) := by
    intro function hfunction
    obtain ⟨file, -, hfunction⟩ := List.mem_flatMap.mp hfunction
    obtain ⟨symbol, -, rfl⟩ := List.mem_map.mp hfunction
    exact hcallees _
  exact direction_once honce (spellsItsLine_functions hpaths hfiles) hrow

end Agentless.App.CalleeTree
