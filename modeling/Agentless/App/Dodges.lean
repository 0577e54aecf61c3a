import Agentless.Checks.Dodges
import Agentless.Graph.Cycles

/-!
# The trees of cycle dodges

The import graph of each of the two trees of a change with the imports that run at load, and the
chains between files that the check asks for. Each search is made once, and a spent budget leaves no
finding. The findings are the statements that close a cycle after the change when none of their
identity did before, so skipping a statement changes nothing.
-/

namespace Agentless.App.Dodges

open Agentless.Graph Checks Checks.Dodges Memo Groups

/-- One tree's import graph, and the statement lines of its imports that do not run at load. -/
structure Loads where
  scopes : Scopes
  late : List (Text × Nat)

namespace Loads

variable (loads : Loads)

def graph : SymbolGraph := SymbolGraph.imports loads.scopes

def atLoad (path : Text) (line : Nat) : Bool := !loads.late.contains (path, line)

/-- The pairs of files that the imports which run at load connect. -/
def pairs : Finset (Text × Text) :=
  ((loads.graph.importEdges.filter fun edge =>
    loads.atLoad edge.source.path edge.source.line).map fun edge =>
      (edge.source.path, edge.target.path)).toFinset

def search (from_ to_ : Text) : Option (List ChainHop) :=
  (importChain loads.graph from_ to_ loads.atLoad).map fun chain => chain.map fun edge =>
    { path := edge.source.path, line := edge.source.line, target := edge.target.path }

end Loads

/-- The two trees of a change. -/
structure Trees where
  after : Loads
  before : Loads

def Trees.loads (trees : Trees) : Tree → Loads
  | .after => trees.after
  | .before => trees.before

/-- The chain of a tree and two files. -/
def Trees.answer (trees : Trees) (tree : Tree) (from_ to_ : Text) : Option (List ChainHop) :=
  (trees.loads tree).search from_ to_

/-- The time budget of a scan: whether it is spent at each check of it, counted from the first. -/
structure Deadline where
  spent : Nat → Bool
  seconds : Nat

/-- The check of the deadline before a search. -/
def checkpoint (deadline : Deadline) (checks : Nat) : Except BudgetSpent Nat :=
  if deadline.spent checks then .error ⟨deadline.seconds⟩ else .ok (checks + 1)

/-- What was found by tree and files, and how often the deadline was checked. -/
abbrev Found : Type := List ((Tree × Text × Text) × Option (List ChainHop)) × Nat

/-- The chains of the two trees, each search found once per run. -/
def chains (trees : Trees) (deadline : Deadline) : LoadChains Found := fun tree from_ to_ =>
  memoized (checkpoint deadline) (fun key => trees.answer key.1 key.2.1 key.2.2) (tree, from_, to_)

/-- The imports in function bodies of the two trees, with the load-time imports compared. -/
def localImports (trees : Trees) (after before : List LocalImport)
    (beforeLoads : List LoadedModule) (unparsed : List Unparsed) : LocalImports where
  after
  before
  beforeLoads
  loadsChanged := trees.after.pairs ≠ trees.before.pairs
  unparsed

def cycleDodge (trees : Trees) (deadline : Deadline) (after before : List LocalImport)
    (beforeLoads : List LoadedModule) (unparsed : List Unparsed) (pairs : List Checks.Pair) :
    Except Checks.Error (List DodgeRow) :=
  Checks.Dodges.cycleDodge pairs <|
    .built (localImports trees after before beforeLoads unparsed) (chains trees deadline) ([], 0)

/-! ## Chains that load -/

/-- An import that runs at load connects the files. -/
def Loads.Connects (loads : Loads) (source target : Text) : Prop :=
  ∃ edge ∈ loads.graph.importEdges, loads.atLoad edge.source.path edge.source.line = true ∧
    edge.source.path = source ∧ edge.target.path = target

/-- Imports that run at load lead from the one file to the other. -/
def Loads.Chain (loads : Loads) : Text → Text → Prop := Relation.TransGen loads.Connects

theorem Loads.mem_pairs {loads : Loads} {source target : Text} :
    (source, target) ∈ loads.pairs ↔ loads.Connects source target := by
  simp only [pairs, Connects, List.mem_toFinset, List.mem_map, List.mem_filter, Prod.mk.injEq,
    and_assoc]

theorem chain_of_chainOf {loads : Loads} {edges : List SymbolEdge} {from_ to_ : Text}
    (h : ChainOf loads.graph loads.atLoad from_ to_ edges) (hne : edges ≠ []) :
    loads.Chain from_ to_ := by
  induction edges generalizing from_ with
  | nil => exact absurd rfl hne
  | cons edge edges ih =>
    obtain ⟨hall, hlinked⟩ := h
    obtain ⟨⟨hedge, hload⟩, hall⟩ := List.forall_mem_cons.mp hall
    simp only [List.map_cons, List.cons_append, List.cons.injEq] at hlinked
    obtain ⟨hfrom, hlinked⟩ := hlinked
    have hstep : loads.Connects from_ edge.target.path := ⟨edge, hedge, hload, hfrom, rfl⟩
    cases edges with
    | nil =>
      obtain rfl : to_ = edge.target.path := by simpa using hlinked
      exact .single hstep
    | cons next edges => exact .head hstep (ih ⟨hall, hlinked⟩ (List.cons_ne_nil _ _))

theorem exists_chainOf {loads : Loads} {from_ to_ : Text} (h : loads.Chain from_ to_) :
    ∃ edges, edges ≠ [] ∧ ChainOf loads.graph loads.atLoad from_ to_ edges := by
  induction h using Relation.TransGen.head_induction_on with
  | single h =>
    obtain ⟨edge, hedge, hload, rfl, rfl⟩ := h
    exact ⟨[edge], by simp, by simp [ChainOf, hedge, hload]⟩
  | head h _ ih =>
    obtain ⟨edge, hedge, hload, rfl, rfl⟩ := h
    obtain ⟨edges, -, hall, hlinked⟩ := ih
    refine ⟨edge :: edges, by simp, List.forall_mem_cons.mpr ⟨⟨hedge, hload⟩, hall⟩, ?_⟩
    simp [hlinked]

theorem isSome_search {loads : Loads} {from_ to_ : Text} :
    (loads.search from_ to_).isSome ↔ loads.Chain from_ to_ := by
  have hspec := @importChain_spec loads.scopes loads.graph loads.atLoad from_ to_ .imports
  unfold Loads.search
  rw [Option.isSome_map]
  generalize importChain loads.graph from_ to_ loads.atLoad = found at hspec ⊢
  cases found with
  | none =>
    refine ⟨nofun, fun hchain => ?_⟩
    obtain ⟨edges, hne, hedges⟩ := exists_chainOf hchain
    exact absurd (hspec edges hedges) hne
  | some chain => exact ⟨fun _ => chain_of_chainOf hspec.2.1 hspec.1, fun _ => rfl⟩

theorem chain_congr {loads other : Loads} (h : loads.pairs = other.pairs) :
    loads.Chain = other.Chain := by
  have hconnects : loads.Connects = other.Connects := by
    funext source target
    rw [← propext Loads.mem_pairs, ← propext Loads.mem_pairs, h]
  rw [Loads.Chain, Loads.Chain, hconnects]

/-! ## Statements that close a cycle -/

/-- Some target of the statement imports its file back at load. -/
def Closes (loads : Loads) (statement : LocalImport) : Prop :=
  ∃ target ∈ statement.targets, loads.Chain target.path statement.path

/-- The change made the statement close a cycle: no statement of its identity did before. -/
def IsDodge (trees : Trees) (before : List LocalImport) (statement : LocalImport) : Prop :=
  Closes trees.after statement ∧
    ∀ held ∈ before, identity held = identity statement → ¬ Closes trees.before held

/-- The first target with a chain back. -/
def firstAnswer (trees : Trees) (tree : Tree) (statement : LocalImport) :
    Option (ImportTarget × List ChainHop) :=
  statement.targets.findSome? fun target =>
    (trees.answer tree target.path statement.path).map fun chain => (target, chain)

/-- The row that a statement gives when no search stops. -/
def rowOf (trees : Trees) (imports : LocalImports) (statement : LocalImport) : Option DodgeRow :=
  match dodgeVia imports statement (oldStatements imports statement) with
  | none => none
  | some via =>
    match firstAnswer trees .after statement with
    | none => none
    | some (target, chain) =>
      match (oldStatements imports statement).findSome? (firstAnswer trees .before) with
      | some _ => none
      | none => some (finding statement target chain via)

section Rows

variable {trees : Trees} {deadline : Deadline} {imports : LocalImports} {statement : LocalImport}

/-- What the searches keep. -/
abbrev FoundKept (trees : Trees) : Found → Prop :=
  Kept fun key : Tree × Text × Text => trees.answer key.1 key.2.1 key.2.2

theorem gives_firstChain (tree : Tree) (statement : LocalImport) :
    Gives (FoundKept trees) (firstChain (chains trees deadline) tree statement)
      (firstAnswer trees tree statement) := by
  refine gives_firstSome (fun target => ?_) statement.targets
  exact (gives_memoized _ _ (tree, target.path, statement.path)).bind (gives_pure _)

theorem gives_dodge (imports : LocalImports) (statement : LocalImport) :
    Gives (FoundKept trees)
      (dodge (chains trees deadline) imports (oldStatements imports statement) statement)
      (rowOf trees imports statement) := by
  unfold dodge rowOf
  cases dodgeVia imports statement (oldStatements imports statement) with
  | none => exact gives_pure none
  | some via =>
    refine (gives_firstChain .after statement).bind ?_
    cases firstAnswer trees .after statement with
    | none => exact gives_pure none
    | some found =>
      refine (gives_firstSome (gives_firstChain .before) _).bind ?_
      cases (oldStatements imports statement).findSome? (firstAnswer trees .before) with
      | none => exact gives_pure _
      | some _ => exact gives_pure none

/-- A run that is not stopped gives the row of each statement that is compared. -/
theorem dodges_eq {unread : List Text} {rows : List DodgeRow} {last : Found}
    (h : dodges (chains trees deadline) imports unread ([], 0) = .ok (rows, last)) :
    rows = (compared imports unread).filterMap (rowOf trees imports) := by
  have hempty : FoundKept trees ([], 0) := fun _ _ hlookup => by cases hlookup
  exact (gives_collect (gives_dodge imports) _ ([], 0) rows last hempty h).1

theorem isSome_firstAnswer (tree : Tree) :
    (firstAnswer trees tree statement).isSome ↔ Closes (trees.loads tree) statement := by
  unfold firstAnswer Closes
  rw [List.isSome_findSome?, List.any_eq_true]
  refine exists_congr fun target => and_congr_right fun _ => ?_
  rw [Option.isSome_map]
  exact isSome_search

theorem mem_oldStatements {held : LocalImport} :
    held ∈ oldStatements imports statement ↔
      held ∈ imports.before ∧ identity held = identity statement := by
  rw [oldStatements, lookup_grouped, List.mem_filter, decide_eq_true_eq]

theorem firstAnswer_before :
    (oldStatements imports statement).findSome? (firstAnswer trees .before) = none ↔
      ∀ held ∈ imports.before, identity held = identity statement →
        ¬ Closes trees.before held := by
  rw [List.findSome?_eq_none_iff]
  refine ⟨fun h held hheld hsame hcloses => ?_, fun h held hheld => ?_⟩
  · have hnone := h held (mem_oldStatements.mpr ⟨hheld, hsame⟩)
    have hsome := (isSome_firstAnswer .before).mpr hcloses
    rw [hnone] at hsome
    cases hsome
  · obtain ⟨hheld, hsame⟩ := mem_oldStatements.mp hheld
    refine Option.not_isSome_iff_eq_none.mp fun hsome => ?_
    exact h held hheld hsame ((isSome_firstAnswer .before).mp hsome)

/-- A statement that is skipped closes no cycle that an old one of its identity did not close. -/
theorem not_isDodge_of_skipped
    (hloads : imports.loadsChanged = decide (trees.after.pairs ≠ trees.before.pairs))
    (h : dodgeVia imports statement (oldStatements imports statement) = none) :
    ¬ IsDodge trees imports.before statement := by
  rintro ⟨⟨target, htarget, hchain⟩, hold⟩
  cases holds : oldStatements imports statement with
  | nil =>
    rw [holds] at h
    cases h
  | cons held rest =>
    rw [holds] at h
    unfold dodgeVia at h
    dsimp only at h
    split_ifs at h with hskip
    obtain ⟨hunchanged, hsame⟩ := Bool.and_eq_true_iff.mp hskip
    have hpairs : trees.after.pairs = trees.before.pairs := by
      rw [hloads] at hunchanged
      simpa using hunchanged
    have hheld : held ∈ oldStatements imports statement := by
      rw [holds]
      exact List.mem_cons_self
    obtain ⟨hbefore, hidentity⟩ := mem_oldStatements.mp hheld
    have htargets := of_decide_eq_true (List.all_eq_true.mp hsame held List.mem_cons_self)
    have hpath : held.path = statement.path := congrArg Identity.path hidentity
    refine hold held hbefore hidentity ⟨target, htargets ▸ htarget, ?_⟩
    rw [← chain_congr hpairs, hpath]
    exact hchain

/-- A statement gives a row exactly when the change made it close a cycle. -/
theorem isSome_rowOf
    (hloads : imports.loadsChanged = decide (trees.after.pairs ≠ trees.before.pairs)) :
    (rowOf trees imports statement).isSome ↔ IsDodge trees imports.before statement := by
  unfold rowOf
  cases hvia : dodgeVia imports statement (oldStatements imports statement) with
  | none => exact ⟨nofun, fun h => absurd h (not_isDodge_of_skipped hloads hvia)⟩
  | some via =>
    have hafter := @isSome_firstAnswer trees statement .after
    cases hfound : firstAnswer trees .after statement with
    | none =>
      rw [hfound] at hafter
      exact ⟨nofun, fun h => absurd (hafter.mpr h.1) nofun⟩
    | some found =>
      rw [hfound] at hafter
      have hbefore := @firstAnswer_before trees imports statement
      cases hold : (oldStatements imports statement).findSome? (firstAnswer trees .before) with
      | none =>
        rw [hold] at hbefore
        exact ⟨fun _ => ⟨hafter.mp rfl, hbefore.mp rfl⟩, fun _ => rfl⟩
      | some _ =>
        rw [hold] at hbefore
        exact ⟨nofun, fun h => absurd (hbefore.mpr h.2) nofun⟩

/-- The row names the statement, a target of it and a shortest chain back. -/
theorem rowOf_eq_some {found : DodgeRow} (h : rowOf trees imports statement = some found) :
    found.finding.severity = .advisory ∧ found.finding.path = statement.path ∧
      found.finding.line = statement.line ∧
      ∃ dodge ∈ found.detail, ∃ target ∈ statement.targets, dodge.target = target.path ∧
        trees.after.search target.path statement.path = some dodge.chain := by
  unfold rowOf at h
  cases hvia : dodgeVia imports statement (oldStatements imports statement) with
  | none =>
    rw [hvia] at h
    cases h
  | some via =>
    rw [hvia] at h
    cases hfirst : firstAnswer trees .after statement with
    | none =>
      rw [hfirst] at h
      cases h
    | some answer =>
      rw [hfirst] at h
      dsimp only at h
      obtain ⟨target, htarget, hanswer⟩ := List.exists_of_findSome?_eq_some hfirst
      obtain ⟨chain, hchain, rfl⟩ := Option.map_eq_some_iff.mp hanswer
      split at h
      · cases h
      · cases h
        exact ⟨rfl, rfl, rfl, _, rfl, target, htarget, rfl, hchain⟩

end Rows

/-! ## The findings -/

/-- What is not compared is reported as not checked. -/
theorem unchecked_unparsedRows {unparsed : List Unparsed} {pairs : List Checks.Pair}
    {gaps : List DodgeRow} (h : unparsedRows unparsed pairs = .ok gaps) :
    ∀ row ∈ gaps, row.finding.severity = .notChecked := by
  induction pairs generalizing gaps with
  | nil =>
    cases h
    exact fun _ hrow => absurd hrow List.not_mem_nil
  | cons pair pairs ih =>
    unfold unparsedRows at h
    cases hlanguage : pair.language with
    | none =>
      rw [hlanguage] at h
      exact ih h
    | some language =>
      rw [hlanguage] at h
      obtain ⟨row, hrow, hrest⟩ := Except.bind_eq_ok_iff.mp h
      obtain ⟨rows, hrows, hgaps⟩ := Except.bind_eq_ok_iff.mp hrest
      cases hgaps
      refine List.forall_mem_append.mpr ⟨fun found hfound => ?_, ih hrows⟩
      obtain ⟨-, -, hrow⟩ := Except.bind_eq_ok_iff.mp hrow
      cases hrow
      obtain ⟨side, -, rfl⟩ := Option.map_eq_some_iff.mp (Option.mem_toList.mp hfound)
      rfl

/-- A run reports the files that it did not compare and, unless a search reached the budget, one row
for each compared statement that the change made close a cycle. -/
theorem cycleDodge_findings (trees : Trees) (deadline : Deadline) (after before : List LocalImport)
    (beforeLoads : List LoadedModule) (unparsed : List Unparsed) (pairs : List Checks.Pair)
    {outcome : List DodgeRow}
    (hrun : cycleDodge trees deadline after before beforeLoads unparsed pairs = .ok outcome) :
    ∃ gaps, unparsedRows unparsed pairs = .ok gaps ∧
      (∀ row ∈ gaps, row.finding.severity = .notChecked) ∧
      (∀ spent, dodges (chains trees deadline)
          (localImports trees after before beforeLoads unparsed)
          (gaps.map fun row => row.finding.path) ([], 0) = .error spent →
        outcome = [budgetSpent spent.seconds] ∧
          (budgetSpent spent.seconds).finding.severity = .notChecked) ∧
      ∀ rows last, dodges (chains trees deadline)
          (localImports trees after before beforeLoads unparsed)
          (gaps.map fun row => row.finding.path) ([], 0) = .ok (rows, last) →
        outcome.Perm (gaps ++ rows) ∧
        ∃ row : LocalImport → Option DodgeRow,
          rows = (after.filter fun statement =>
            !(gaps.map fun row => row.finding.path).contains statement.path).filterMap row ∧
          (∀ statement, (row statement).isSome ↔ IsDodge trees before statement) ∧
          ∀ statement found, row statement = some found →
            found.finding.severity = .advisory ∧ found.finding.path = statement.path ∧
              found.finding.line = statement.line ∧
              ∃ dodge ∈ found.detail, ∃ target ∈ statement.targets, dodge.target = target.path ∧
                trees.after.search target.path statement.path = some dodge.chain := by
  obtain ⟨-, -, hrun⟩ := Except.bind_eq_ok_iff.mp hrun
  obtain ⟨gaps, hgaps, hrun⟩ := Except.bind_eq_ok_iff.mp hrun
  refine ⟨gaps, hgaps, unchecked_unparsedRows hgaps, fun spent hspent => ?_,
    fun rows last hrows => ⟨?_, rowOf trees _, dodges_eq hrows, fun statement => isSome_rowOf rfl,
      fun statement found => rowOf_eq_some⟩⟩
  · rw [hspent] at hrun
    cases hrun
    exact ⟨rfl, rfl⟩
  · rw [hrows] at hrun
    cases hrun
    exact List.perm_insertionSort _ _

/-! ## A moved import -/

namespace MovedImport

/-- Two files that import each other. -/
def scopes : Scopes where
  files := ["a", "b"].map fun path => ⟨path.toList, .python, [], []⟩
  perFile position := { statements := [⟨"m".toList, 1, (["b", "a"][position]?).map String.toList⟩] }

/-- The import in the first file runs at load before the change, and not after it. -/
def trees : Trees where
  after := { scopes, late := [("a".toList, 1)] }
  before := { scopes, late := [] }

def statement : LocalImport where
  path := "a".toList
  line := 1
  function := some "f".toList
  module := "b".toList
  level := 0
  names := []
  targets := [{ module := "b".toList, path := "b".toList }]

def deadline : Deadline where
  spent _ := false
  seconds := 5

def reported : DodgeRow :=
  finding statement { module := "b".toList, path := "b".toList }
    [{ path := "b".toList, line := 1, target := "a".toList }] .moved

theorem cycleDodge_findings_moved :
    cycleDodge trees deadline [statement] [] [⟨"a".toList, "b".toList, 0⟩] [] [] = .ok [reported] ∧
      IsDodge trees [] statement := by
  have hrun : cycleDodge trees deadline [statement] [] [⟨"a".toList, "b".toList, 0⟩] [] [] =
      .ok [reported] := by decide +kernel
  refine ⟨hrun, ?_⟩
  obtain ⟨gaps, hgaps, -, hstopped, hfindings⟩ := cycleDodge_findings trees deadline [statement] []
    [⟨"a".toList, "b".toList, 0⟩] [] [] hrun
  cases hgaps
  cases hrows : dodges (chains trees deadline)
    (localImports trees [statement] [] [⟨"a".toList, "b".toList, 0⟩] []) [] ([], 0) with
  | error spent => cases (hstopped spent hrows).1
  | ok result =>
    obtain ⟨hperm, row, hrow, hdodge, -⟩ := hfindings result.1 result.2 hrows
    refine (hdodge statement).mp (Option.isSome_iff_ne_none.mpr fun hnone => ?_)
    have hnil : result.1 = [] := by
      rw [hrow]
      exact List.filterMap_cons_none hnone
    rw [hnil] at hperm
    cases hperm.length_eq

end MovedImport

end Agentless.App.Dodges
