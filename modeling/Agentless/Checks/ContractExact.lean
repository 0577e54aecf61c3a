import Agentless.Checks.Contract
import Agentless.Checks.MatchingExact
import Agentless.Library.Fallible

/-!
# Contract drift reports what a change adds

The map of identities is keyed by where units start, so it finds the match of a unit when no other
unit of its text starts there. Then the drift of a key is its new hits less its old ones, and texts
that do not change have none.
-/

namespace Agentless.Checks

open Groups Syntax

/-! ## Old identities -/

/-- The unit that the matching paired the new unit with, or the new unit itself. -/
def oldIdentity (run : List Paired) (new : UnitRef) : UnitRef :=
  ((run.find? fun paired => paired.new = new).bind Paired.old).getD new

/-- No two units of one new text start at the same byte. -/
def DistinctStarts {π : Type} (measured : List (Sides π)) : Prop :=
  ∀ sides ∈ measured, ((units sides.new).map Metrics.Unit.startByte).Nodup

/-- The new units of a run. -/
def newUnits {π : Type} (measured : List (Sides π)) : List UnitRef :=
  (fileUnits measured).flatMap FileUnits.new

section Identity

variable {π : Type} {measured : List (Sides π)}

theorem newUnits_eq (measured : List (Sides π)) :
    newUnits measured = measured.zipIdx.flatMap fun item =>
      unitRefs item.2 item.1.path (units item.1.new) := by
  rw [newUnits, fileUnits_eq, List.flatMap_map]

theorem nodup_starts (h : DistinctStarts measured) :
    ((newUnits measured).map fun unit => (unit.file, unit.unit.startByte)).Nodup := by
  have hunits (file : Nat) (path : Text) (units : List Metrics.Unit) :
      (unitRefs file path units).map (fun unit => (unit.file, unit.unit.startByte)) =
        (units.map Metrics.Unit.startByte).map fun start => (file, start) := by
    unfold unitRefs
    rw [List.mapIdx_eq_zipIdx_map, List.map_map, List.map_map]
    conv_rhs => rw [← List.zipIdx_map_fst 0 units, List.map_map]
    rfl
  rw [newUnits_eq, List.map_flatMap]
  simp only [hunits]
  refine nodup_flatMap_zipIdx fun item hitem => ?_
  exact h item.1 (List.fst_mem_of_mem_zipIdx hitem)

theorem mem_newUnits {file index : Nat} {sides : Sides π} {unit : Metrics.Unit}
    (hsides : (sides, file) ∈ measured.zipIdx) (hunit : (units sides.new)[index]? = some unit) :
    { file, index, path := sides.path, unit } ∈ newUnits measured := by
  rw [newUnits_eq]
  refine List.mem_flatMap.mpr ⟨(sides, file), hsides, ?_⟩
  unfold unitRefs
  refine List.mem_of_getElem? (i := index) ?_
  rw [List.getElem?_mapIdx, hunit]
  rfl

theorem identity_eq (h : DistinctStarts measured) {new : UnitRef} (hnew : new ∈ newUnits measured) :
    identity (matchRun (fileUnits measured)) (new.file, new.unit.startByte) =
      some (oldIdentity (matchRun (fileUnits measured)) new) := by
  have hindexed := indexed_fileUnits measured
  have hperm := map_new_matchRun hindexed
  have hnodup := hperm.nodup_iff.mpr hindexed.new.nodup
  have hkeys : (((matchRun (fileUnits measured)).map fun paired =>
      ((paired.new.file, paired.new.unit.startByte), paired.old.getD paired.new)).map
        Prod.fst).Nodup := by
    have hstarts := (hperm.map fun unit => (unit.file, unit.unit.startByte)).nodup_iff.mpr
      (nodup_starts h)
    rwa [List.map_map] at hstarts ⊢
  obtain ⟨paired, hpaired, rfl⟩ := List.mem_map.mp (hperm.mem_iff.mpr hnew)
  have hfind : (matchRun (fileUnits measured)).find? (fun other => other.new = paired.new) =
      some paired := by
    cases hfound : (matchRun (fileUnits measured)).find? (fun other => other.new = paired.new) with
    | none =>
      have := List.find?_eq_none.mp hfound paired hpaired
      simp at this
    | some other =>
      have heq : other.new = paired.new := by simpa using List.find?_some hfound
      rw [List.inj_on_of_nodup_map hnodup (List.mem_of_find?_eq_some hfound) hpaired heq]
  unfold identity
  rw [filled_eq_some_iff hkeys, oldIdentity, hfind, Option.bind_some]
  exact List.mem_map.mpr ⟨paired, hpaired, rfl⟩

end Identity

/-! ## Charged hits -/

namespace Engine

variable (engine : Engine)

/-- The hits of the new texts, each charged to the old identity of the unit that holds it. -/
def chargedHits (measured : List (Sides Parsed)) : List NewHit :=
  measured.zipIdx.flatMap fun entry =>
    match entry.1.new with
    | none => []
    | some new => (engine.sideHits measured new).map fun hit =>
      { path := entry.1.path
        hit
        own := hit.unit.bind (new.units[·]?)
        owner := hit.unit.bind fun index => (new.units[index]?).map fun unit =>
          oldIdentity (matchRun (fileUnits measured))
            { file := entry.2, index, path := entry.1.path, unit } }

variable {engine} {measured : List (Sides Parsed)}

theorem newTextHits_eq (h : DistinctStarts measured) :
    engine.newTextHits measured (matchRun (fileUnits measured)) = engine.chargedHits measured := by
  refine List.flatMap_congr fun entry hentry => ?_
  cases hnew : entry.1.new with
  | none => rfl
  | some new =>
    refine List.map_congr_left fun hit _ => ?_
    have howner : ((hit.unit.bind (new.units[·]?)).bind fun unit =>
        identity (matchRun (fileUnits measured)) (entry.2, unit.startByte)) =
        hit.unit.bind fun index => (new.units[index]?).map fun unit =>
          oldIdentity (matchRun (fileUnits measured))
            { file := entry.2, index, path := entry.1.path, unit } := by
      cases hit.unit with
      | none => rfl
      | some index =>
        rw [Option.bind_some, Option.bind_some]
        cases hunit : new.units[index]? with
        | none => rfl
        | some unit =>
          have hmem : { file := entry.2, index, path := entry.1.path, unit } ∈ newUnits measured := by
            refine mem_newUnits hentry ?_
            rw [units, hnew]
            exact hunit
          exact identity_eq h hmem
    simp only [howner]

/-- A key has as many hits reported as the new texts have beyond the old ones. -/
theorem countP_newHits (h : DistinctStarts measured) (key : HitKey) :
    (engine.newHits measured (matchRun (fileUnits measured))).1.countP (fun found => found.key = key) =
      (engine.chargedHits measured).countP (fun found => found.key = key) -
        (engine.oldKeys measured).count key := by
  unfold newHits
  dsimp only
  rw [newTextHits_eq h]
  exact countP_surplus _ _ _ key

/-- Texts that do not change have the same hits under the same keys. -/
theorem map_key_chargedHits (hsame : ∀ sides ∈ measured, sides.new = sides.old) :
    (engine.chargedHits measured).map NewHit.key = engine.oldKeys measured := by
  have hunits : ∀ sides ∈ measured, units sides.new = units sides.old := fun sides hsides => by
    rw [hsame sides hsides]
  have hself := (matchRun_matching measured).2.2.2.2.2.2 hunits
  have hidentity (new : UnitRef) : oldIdentity (matchRun (fileUnits measured)) new = new := by
    unfold oldIdentity
    cases hfound : (matchRun (fileUnits measured)).find? (fun paired => paired.new = new) with
    | none => rfl
    | some paired =>
      have heq : paired.new = new := by simpa using List.find?_some hfound
      have hmem := List.mem_of_find?_eq_some hfound
      rw [hself] at hmem
      obtain ⟨unit, -, rfl⟩ := List.mem_map.mp hmem
      exact heq
  have hflat : engine.oldKeys measured = measured.zipIdx.flatMap fun entry =>
      match entry.1.old with
      | none => []
      | some old => (engine.sideHits measured old).map fun hit =>
        hitKey hit ((hit.unit.bind (old.units[·]?)).map fun unit =>
          (entry.1.path, unit.qualname)) entry.1.path := by
    conv_lhs => rw [oldKeys, ← List.zipIdx_map_fst 0 measured, List.flatMap_map]
    rewrite [List.zipIdx_map_fst]
    rfl
  rw [hflat, chargedHits, List.map_flatMap]
  refine List.flatMap_congr fun entry hentry => ?_
  rw [← hsame entry.1 (List.fst_mem_of_mem_zipIdx hentry)]
  cases entry.1.new with
  | none => rfl
  | some new =>
    dsimp only
    rw [List.map_map]
    refine List.map_congr_left fun hit _ => ?_
    rw [Function.comp_apply, NewHit.key]
    simp only [hidentity]
    congr 1
    cases hit.unit with
    | none => rfl
    | some index =>
      rw [Option.bind_some, Option.bind_some]
      cases new.units[index]? <;> rfl

theorem newHits_eq_nil (h : DistinctStarts measured)
    (hsame : ∀ sides ∈ measured, sides.new = sides.old) :
    (engine.newHits measured (matchRun (fileUnits measured))).1 = [] := by
  refine List.eq_nil_iff_forall_not_mem.mpr fun found hfound => ?_
  have hcarried : (engine.oldKeys measured).count found.key =
      (engine.chargedHits measured).countP fun other => other.key = found.key := by
    rw [← map_key_chargedHits hsame, List.count, List.countP_map]
    exact List.countP_congr fun other _ => by simp
  have hcount := @countP_newHits engine measured h found.key
  have hpos : 0 < (engine.newHits measured (matchRun (fileUnits measured))).1.countP
      fun other => other.key = found.key :=
    List.countP_pos_iff.mpr ⟨found, hfound, decide_eq_true rfl⟩
  omega

end Engine

/-! ## What is read -/

/-- What a side shows when it has a measurement or does not exist. -/
def readable : Option Side → Option (Option (Measured Parsed))
  | none => some none
  | some (.ok measured) => some (some measured)
  | some (.error _) => none

/-- The sides of a pair that the checks can compare. -/
def Pair.sides (pair : Pair) : Option (Sides Parsed) := do
  let language ← pair.language
  let old ← readable pair.old
  let new ← readable pair.new
  return { path := pair.path, language, old, new }

theorem sides_pair {measurer : Measurer} {text : TextPair} {sides : Sides Parsed}
    (h : (measurer.pair text).sides = some sides) :
    sides.path = text.path ∧ (text.new = text.old → sides.new = sides.old) := by
  obtain ⟨language, -, hsome⟩ := Option.bind_eq_some_iff.mp h
  obtain ⟨old, hold, hsome⟩ := Option.bind_eq_some_iff.mp hsome
  obtain ⟨new, hnew, hsome⟩ := Option.bind_eq_some_iff.mp hsome
  cases hsome
  refine ⟨rfl, fun hsame => ?_⟩
  have heq : (measurer.pair text).new = (measurer.pair text).old := by rw [Measurer.pair, hsame]
  exact Option.some.inj (hnew.symm.trans ((congrArg readable heq).trans hold))

/-- A row that reports no drift. -/
def Unchecked (row : PairFinding) : Prop := row.finding.severity = .notChecked

/-- What was read is the value there is, or a row when there is none. -/
def Read.Reads {α : Type} (value : Option α) : Read α → Prop
  | .value found => value = some found
  | .row reported => value = none ∧ Unchecked reported

theorem reads_readSide {path change : Text} {side : Option Side}
    {read : Read (Option (Measured Parsed))} (h : readSide path change side = .ok read) :
    read.Reads (readable side) := by
  cases side with
  | none =>
    cases h
    rfl
  | some side =>
    cases side with
    | ok measured =>
      cases h
      rfl
    | error error =>
      obtain ⟨reason, -, hread⟩ := Except.bind_eq_ok_iff.mp h
      cases hread
      exact ⟨rfl, rfl⟩

theorem reads_readSides {pair : Pair} {language : Language} {read : Read (Sides Parsed)}
    (hlanguage : pair.language = some language) (h : readSides pair language = .ok read) :
    read.Reads pair.sides := by
  obtain ⟨old, hold, hrest⟩ := Except.bind_eq_ok_iff.mp h
  have hold := reads_readSide hold
  unfold Pair.sides
  rw [hlanguage, Option.bind_eq_bind, Option.bind_some]
  cases old with
  | row row =>
    cases hrest
    rw [hold.1]
    exact ⟨rfl, hold.2⟩
  | value old =>
    obtain ⟨new, hnew, hrest⟩ := Except.bind_eq_ok_iff.mp hrest
    have hnew := reads_readSide hnew
    rw [show readable pair.old = some old from hold]
    cases new with
    | row row =>
      cases hrest
      rw [hnew.1]
      exact ⟨rfl, hnew.2⟩
    | value new =>
      cases hrest
      rw [show readable pair.new = some new from hnew]
      rfl

theorem readPairs_eq {pairs : List Pair} {values : List (Sides Parsed)} {rows : List PairFinding}
    (h : readPairs pairs = .ok (values, rows)) :
    values = pairs.filterMap Pair.sides ∧ ∀ row ∈ rows, Unchecked row := by
  induction pairs generalizing values rows with
  | nil =>
    cases h
    exact ⟨rfl, by simp⟩
  | cons pair pairs ih =>
    unfold readPairs at h
    cases hlanguage : pair.language with
    | none =>
      rw [hlanguage] at h
      have hnone : pair.sides = none := by
        rw [Pair.sides, hlanguage]
        rfl
      rw [List.filterMap_cons_none hnone]
      exact ih h
    | some language =>
      rw [hlanguage] at h
      obtain ⟨read, hread, hrest⟩ := Except.bind_eq_ok_iff.mp h
      obtain ⟨⟨restValues, restRows⟩, hrest, hvalues⟩ := Except.bind_eq_ok_iff.mp hrest
      obtain ⟨rfl, hrows⟩ := ih hrest
      have hreads := reads_readSides hlanguage hread
      cases read with
      | value sides =>
        cases hvalues
        exact ⟨(List.filterMap_cons_some hreads).symm, hrows⟩
      | row row =>
        cases hvalues
        exact ⟨(List.filterMap_cons_none hreads.1).symm, List.forall_mem_cons.mpr ⟨hreads.2, hrows⟩⟩

/-! ## What is reported -/

namespace Engine

variable (engine : Engine)

/-- The sides of the pairs that the check admits, where they have measurements. -/
def comparedSides (globs : List Text) (pairs : List Pair) : List (Sides Parsed) :=
  (pairs.filter fun pair => engine.Admits globs pair).filterMap Pair.sides

variable {engine}

theorem unchecked_noRulesRows {globs : List Text} {pairs : List Pair} :
    ∀ row ∈ engine.noRulesRows globs pairs, Unchecked row := by
  intro row hrow
  obtain ⟨pair, -, hpair⟩ := List.mem_filterMap.mp hrow
  obtain ⟨language, -, hsome⟩ := Option.bind_eq_some_iff.mp hpair
  split_ifs at hsome
  cases hsome
  rfl

theorem compared_eq {globs : List Text} {pairs : List Pair} {measured : List (Sides Parsed)}
    {rows : List PairFinding} (h : engine.compared pairs globs = .ok (measured, rows)) :
    measured = engine.comparedSides globs pairs ∧ ∀ row ∈ rows, Unchecked row := by
  obtain ⟨⟨values, gaps⟩, hread, hresult⟩ := Except.bind_eq_ok_iff.mp h
  obtain ⟨-, -, hread⟩ := Except.bind_eq_ok_iff.mp hread
  obtain ⟨hvalues, hgaps⟩ := readPairs_eq hread
  cases hresult
  exact ⟨hvalues, List.forall_mem_append.mpr ⟨unchecked_noRulesRows, hgaps⟩⟩

/-- Without globs no pair is admitted. -/
theorem comparedSides_nil (pairs : List Pair) : engine.comparedSides [] pairs = [] := by
  have hnone : pairs.filter (fun pair => engine.Admits [] pair) = [] := by
    refine List.filter_eq_nil_iff.mpr fun pair _ hadmits => ?_
    obtain ⟨language, -, hboundary, -⟩ := of_decide_eq_true hadmits
    cases hboundary
  rw [comparedSides, hnone]
  rfl

theorem unchecked_noBoundaryRows (pairs : List Pair) : ∀ row ∈ noBoundaryRows pairs, Unchecked row := by
  unfold noBoundaryRows
  split_ifs
  · exact fun _ hrow => absurd hrow (List.not_mem_nil)
  · exact List.forall_mem_singleton.mpr rfl

/-- A run reports rows of what it did not check, and the new hits of the sides that it compared. -/
theorem contractDrift_eq {pairs : List Pair} {globs : List Text} {outcome : Outcome}
    (h : engine.contractDrift pairs globs = .ok outcome) :
    ∃ rows, (∀ row ∈ rows, Unchecked row) ∧
      outcome.findings.Perm (rows ++ (engine.newHits (engine.comparedSides globs pairs)
        (matchRun (fileUnits (engine.comparedSides globs pairs)))).1.map NewHit.finding) := by
  unfold contractDrift at h
  split_ifs at h with hglobs
  · cases h
    obtain rfl := List.isEmpty_iff.mp hglobs
    refine ⟨noBoundaryRows pairs, unchecked_noBoundaryRows pairs, ?_⟩
    rw [comparedSides_nil]
    exact List.Perm.of_eq (List.append_nil _).symm
  · obtain ⟨⟨measured, rows⟩, hcompared, hresult⟩ := Except.bind_eq_ok_iff.mp h
    obtain ⟨rfl, hrows⟩ := compared_eq hcompared
    cases hresult
    exact ⟨rows, hrows, List.perm_insertionSort _ _⟩

/-- The unit holds the offset, and every other unit that holds it starts before. -/
def HoldsInnermost (units : List Metrics.Unit) (offset index : Nat) : Prop :=
  ∃ unit, units[index]? = some unit ∧ holds unit offset ∧
    ∀ (other : Nat) (found : Metrics.Unit), units[other]? = some found → holds found offset →
      other ≠ index → found.startByte < unit.startByte

/-- The hit is found in a new text and charged to the old identity of its innermost unit. -/
def Charged (engine : Engine) (measured : List (Sides Parsed)) (found : NewHit) : Prop :=
  ∃ (file : Nat) (sides : Sides Parsed) (new : Measured Parsed) (node : new.parsed.Node),
    measured[file]? = some sides ∧ sides.new = some new ∧ found.path = sides.path ∧
    found.hit.capture = engine.capture new.parsed node ∧
    (∀ index, found.hit.unit = some index ↔
      HoldsInnermost new.units (new.parsed.record node).start index) ∧
    found.owner = found.hit.unit.bind fun index => (new.units[index]?).map fun unit =>
      oldIdentity (matchRun (fileUnits measured)) { file, index, path := sides.path, unit }

theorem charged_of_mem {measured : List (Sides Parsed)} (h : DistinctStarts measured)
    {found : NewHit} (hfound : found ∈ engine.chargedHits measured) :
    engine.Charged measured found := by
  obtain ⟨⟨sides, file⟩, hentry, hhits⟩ := List.mem_flatMap.mp hfound
  have hsides : measured[file]? = some sides := List.mem_zipIdx_iff_getElem?.mp hentry
  cases hnew : sides.new with
  | none =>
    rw [show (sides, file).1.new = none from hnew] at hhits
    exact absurd hhits List.not_mem_nil
  | some new =>
    rw [show (sides, file).1.new = some new from hnew] at hhits
    obtain ⟨hit, hhit, rfl⟩ := List.mem_map.mp hhits
    have hstarts : (new.units.map Metrics.Unit.startByte).Nodup := by
      have hdistinct := h sides (List.mem_of_getElem? hsides)
      rwa [units, hnew] at hdistinct
    unfold sideHits at hhit
    dsimp only at hhit
    split_ifs at hhit
    · obtain ⟨entry, hentry, rfl⟩ := List.mem_map.mp hhit
      obtain ⟨item, -, hnodes⟩ := List.mem_flatMap.mp ((List.mem_insertionSort _).mp hentry)
      obtain ⟨node, -, rfl⟩ := List.mem_map.mp hnodes
      exact ⟨file, sides, new, node, hsides, hnew, rfl, rfl,
        fun index => enclosing_eq_some_iff hstarts, rfl⟩
    · exact absurd hhit List.not_mem_nil

/-- A text that does not change is compared with itself. -/
theorem new_eq_old {measurer : Measurer} {texts : List TextPair} {globs : List Text}
    (hsame : ∀ text ∈ texts, engine.Admits globs (measurer.pair text) → text.new = text.old) :
    ∀ sides ∈ engine.comparedSides globs (texts.map measurer.pair), sides.new = sides.old := by
  intro sides hsides
  obtain ⟨pair, hpair, hsome⟩ := List.mem_filterMap.mp hsides
  obtain ⟨hmem, hadmits⟩ := List.mem_filter.mp hpair
  obtain ⟨text, htext, rfl⟩ := List.mem_map.mp hmem
  exact (sides_pair hsome).2 (hsame text htext (of_decide_eq_true hadmits))

/-- The findings of a run are rows of what it did not check and its drift: for each key, the new hits
beyond the old ones, and none when no text changes. -/
theorem contractDrift_findings (measurer : Measurer) (texts : List TextPair) (globs : List Text)
    {outcome : Outcome}
    (hrun : engine.contractDrift (texts.map measurer.pair) globs = .ok outcome)
    (hstarts : DistinctStarts (engine.comparedSides globs (texts.map measurer.pair))) :
    ∃ (rows : List PairFinding) (drift : List NewHit),
      outcome.findings.Perm (rows ++ drift.map NewHit.finding) ∧
      (∀ row ∈ rows, Unchecked row) ∧ (∀ found ∈ drift, ¬ Unchecked found.finding) ∧
      drift.Sublist (engine.chargedHits (engine.comparedSides globs (texts.map measurer.pair))) ∧
      (∀ key, drift.countP (fun found => found.key = key) =
        (engine.chargedHits (engine.comparedSides globs (texts.map measurer.pair))).countP
          (fun found => found.key = key) -
          (engine.oldKeys (engine.comparedSides globs (texts.map measurer.pair))).count key) ∧
      (∀ found ∈ drift,
        engine.Charged (engine.comparedSides globs (texts.map measurer.pair)) found) ∧
      ((∀ text ∈ texts, engine.Admits globs (measurer.pair text) → text.new = text.old) →
        drift = []) := by
  obtain ⟨rows, hrows, hperm⟩ := contractDrift_eq hrun
  have hsublist : ((engine.newHits (engine.comparedSides globs (texts.map measurer.pair))
      (matchRun (fileUnits (engine.comparedSides globs (texts.map measurer.pair))))).1).Sublist
        (engine.chargedHits (engine.comparedSides globs (texts.map measurer.pair))) := by
    rw [← newTextHits_eq hstarts]
    exact surplus_sublist _ _ _
  refine ⟨rows, _, hperm, hrows, ?_, hsublist, countP_newHits hstarts, ?_, ?_⟩
  · intro found _
    cases hseverity : found.hit.rule.severity <;> simp [Unchecked, NewHit.finding, hseverity]
  · exact fun found hfound => charged_of_mem hstarts (hsublist.subset hfound)
  · exact fun hsame => newHits_eq_nil hstarts (new_eq_old hsame)

end Engine

/-! ## One file -/

namespace OneRule

def rule : ContractRule where
  id := "cast".toList
  language := Language.rust.name
  severity := .warning
  query := "(call) @hit".toList
  message := "Check it.".toList

/-- Every node is a hit of the one rule. -/
def engine : Engine where
  contractRules := [rule]
  comments _ := none
  patternStarts _ _ := [0]
  captureNames _ _ := [hitCapture]
  matches_ parsed _ := (List.finRange parsed.flat.records.length).map fun node =>
    { pattern := 0, captures := [(0, node)] }

def record : Record where
  start := 1
  stop := 4
  parent := 0
  subtreeEnd := 1
  kind := 0
  field := 0
  flags := 0

/-- A unit of five bytes. -/
def unit (qualname : Text) : Metrics.Unit where
  qualname
  startByte := 0
  endByte := 5
  startLine := 1
  bodyKey := []
  cc := 1
  sloc := 1

/-- A text of five bytes has the named units around one node, and any other does not parse. -/
def measurer (names : List Text) : Measurer where
  pairLanguage _ := some .rust
  measured language text :=
    if text.length = 5 then
      .ok {
        parsed := { language, source := text, flat := { records := [record], lineStarts := [0] } }
        units := names.map unit }
    else .error (.unmeasurable (.doesNotParse 1))

def boundary : List Text := ["a".toList]

def added : TextPair := { path := "a".toList, old := none, new := some "{f()}".toList }

def same (text : Text) : TextPair := { path := "a".toList, old := some text, new := some text }

/-- What the new file adds. -/
def reported : Outcome where
  findings := [{
    finding := {
      check := contractDriftName
      severity := .warning
      message := "g: f() is new in a boundary module (cast). Check it.".toList
      path := "a".toList
      line := 1
      evidence := "rule cast; unit g; capture f()".toList }
    detail := some (.drift { rule := "cast".toList, unit := "g".toList, capture := "f()".toList }) }]
  contractKeys := some [{
    path := "a".toList, rule := "cast".toList, unit := "g".toList, capture := "f()".toList }]

theorem reported_added : ∃ (rows : List PairFinding) (drift : List NewHit),
    reported.findings.Perm (rows ++ drift.map NewHit.finding) ∧
      (∀ row ∈ rows, Unchecked row) ∧ drift.countP (fun found => found.key =
        ("cast".toList, "a".toList, "g".toList, "f()".toList)) = 1 := by
  have hrun : engine.contractDrift ([added].map (measurer ["g".toList]).pair) boundary =
      .ok reported := rfl
  have hstarts : DistinctStarts (engine.comparedSides boundary
      ([added].map (measurer ["g".toList]).pair)) := by
    intro sides hsides
    obtain ⟨pair, hpair, hsome⟩ := List.mem_filterMap.mp hsides
    obtain rfl := List.mem_singleton.mp (List.mem_of_mem_filter hpair)
    cases hsome
    exact List.nodup_singleton 0
  obtain ⟨rows, drift, hperm, hrows, -, -, hcount, -⟩ :=
    Engine.contractDrift_findings (measurer ["g".toList]) [added] boundary hrun hstarts
  exact ⟨rows, drift, hperm, hrows, (hcount _).trans rfl⟩

/-- A file that does not change is reported when it does not parse, and when two of its units start
together. -/
theorem same_is_reported :
    (∃ outcome, engine.contractDrift ([same "(".toList].map (measurer []).pair) boundary =
      .ok outcome ∧ outcome.findings ≠ []) ∧
    ∃ outcome, engine.contractDrift
      ([same "{f()}".toList].map (measurer ["g".toList, "h".toList]).pair) boundary =
        .ok outcome ∧ outcome.findings ≠ [] :=
  ⟨⟨_, rfl, List.cons_ne_nil _ _⟩, ⟨_, rfl, List.cons_ne_nil _ _⟩⟩

end OneRule

end Agentless.Checks
