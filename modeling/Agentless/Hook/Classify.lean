import Agentless.Hook.ReportLog

/-!
# The class of each logged finding

A finding is not applied, unresolved, unobserved, acted on or not acted on. Its class comes from what
its transcript says of its call and of the later calls on the same file.
-/

namespace Agentless.Hook.Report

inductive Class where
  | notApplied | unresolved | unobserved | actedOn | notActedOn
deriving DecidableEq, Repr

namespace Class

/-- The classes of a finding whose call was applied. -/
def appliedClasses : List Class := [unobserved, actedOn, notActedOn]

def applied (held : Class) : Bool := appliedClasses.contains held

end Class

inductive Status where
  | applied | rejected
deriving DecidableEq, Repr

/-- The result of each call in one transcript. There is none when the file is missing. -/
structure Transcript where
  results : Option (List (CodePointString × Status))
  unreadableLines : Nat := 0
deriving DecidableEq, Repr

abbrev Transcripts := List (CodePointString × Transcript)

variable {φ : Type}

/-- One finding with its class and a stable id for the labeling file. -/
structure Classified (φ : Type) where
  findingId : CodePointString
  held : Class
  record : Record φ
  finding : Finding

/-- The status that the transcript of a call gives it, when a result settles it. -/
def status (record : Record φ) (transcripts : Transcripts) : Option Status := do
  let path ← record.transcriptPath
  let transcript ← transcripts.lookup path
  let results ← transcript.results
  results.lookup (← record.toolUseId)

def observes (tracked : Tracked) (observed : Observed) : Bool :=
  match tracked with
  | .complexity .. => observed.unitsOverThreshold.isSome
  | .contract .. => observed.contractKeys.isSome
  | .clone _ => observed.cloneInstances.isSome

/-- Undone when fewer rows match than at the finding, or none when that state is unknown. -/
def fewer {α : Type} (after : List α) (before : Option (List α)) (same : α → Bool) : Bool :=
  let now := after.countP same
  match before with
  | some before => now < before.countP same
  | none => now = 0

/-- Growth is undone at the old complexity. A crossing or a new unit is undone under the threshold. -/
def complexityActed (finding : Finding) (ccOld : Option LogInt) (threshold : LogInt)
    (units : List UnitCc) : Bool :=
  let limit :=
    match ccOld with
    | some old => if old.cmp threshold = .gt then old else threshold
    | none => threshold
  !units.any fun row =>
    row.path = finding.path && some row.unit = finding.unit && row.cc.cmp limit = .gt

/-- Whether the later state no longer holds the finding, by the rule of its check. -/
def acted (finding : Finding) (tracked : Tracked) (atFinding : Option Observed) (later : Observed) :
    Bool :=
  match tracked with
  | .complexity ccOld threshold =>
    later.unitsOverThreshold.any (complexityActed finding ccOld threshold)
  | .contract rule capture =>
    later.contractKeys.any fun after =>
      fewer after (atFinding.bind (·.contractKeys)) fun hit =>
        hit.path = finding.path && hit.rule = rule && hit.capture = capture
  | .clone key =>
    later.cloneInstances.any fun after =>
      fewer after (atFinding.bind (·.cloneInstances)) fun copy =>
        copy.path = finding.path && copy.key = key

def classOf (finding : Finding) (atFinding : Option Observed) (resolved : Option Status)
    (evidence : List Observed) : Class :=
  match resolved with
  | some .rejected => .notApplied
  | none => .unresolved
  | some .applied =>
    match finding.tracked with
    | none => .unobserved
    | some tracked =>
      let seen := evidence.filter (observes tracked)
      if seen = [] then .unobserved
      else if seen.any (acted finding tracked atFinding) then .actedOn
      else .notActedOn

/-- The observed states of the applied calls on the same file of the same session that follow. -/
def evidenceAfter (record : Record φ) (records : List (Record φ)) (transcripts : Transcripts) :
    List Observed :=
  (records.filter fun later =>
    later.observed.isSome && later.sessionId = record.sessionId && later.path = record.path &&
      record.lineNo < later.lineNo && status later transcripts = some .applied).filterMap
    (·.observed)

/-- A record with findings names its call, so that its findings get ids. -/
def classes (record : Record φ) (records : List (Record φ)) (transcripts : Transcripts) :
    List (Classified φ) :=
  match record.toolUseId with
  | none => []
  | some toolUseId =>
    record.findings.zipIdx.map fun (finding, place) =>
      { findingId := toolUseId.pushStr (utf8 ('#' :: Nat.toDigits 10 place))
        held := classOf finding record.observed (status record transcripts)
          (evidenceAfter record records transcripts)
        record := record
        finding := finding }

/-- Whether the findings of a record are classified. -/
def carries (record : Record φ) : Bool := record.outcome = .advisory || record.outcome = .blocked

def classify (records : List (Record φ)) (transcripts : Transcripts) : List (Classified φ) :=
  (records.filter carries).flatMap fun record => classes record records transcripts

/-! ## The log and the transcripts grow -/

/-- How many findings of a check are of applied calls. -/
def appliedCount (check : CodePointString) (items : List (Classified φ)) : Nat :=
  items.countP fun item => item.finding.check = check && item.held.applied

/-- Every status that is known stays known. -/
def Extends (φ : Type) (before after : Transcripts) : Prop :=
  ∀ (record : Record φ) (known : Status),
    status record before = some known → status record after = some known

/-- How a class can change: a call that was not settled may become any, a finding that nothing
observed may be observed, and one that was not acted on may be. -/
inductive Advances : Class → Class → Prop where
  | same (held : Class) : Advances held held
  | settled (held : Class) : Advances .unresolved held
  | observed {held : Class} (h : held = .actedOn ∨ held = .notActedOn) : Advances .unobserved held
  | acted : Advances .notActedOn .actedOn

theorem Advances.applied {old new : Class} (h : Advances old new) (hold : old.applied = true) :
    new.applied = true := by
  cases h with
  | same => exact hold
  | settled => exact absurd hold (by decide)
  | observed hnew => rcases hnew with rfl | rfl <;> decide
  | acted => decide

variable {records more : List (Record φ)} {before after : Transcripts}

theorem evidenceAfter_sublist (h : Extends φ before after) (record : Record φ) :
    (evidenceAfter record records before).Sublist (evidenceAfter record (records ++ more) after) := by
  apply List.Sublist.filterMap
  rw [List.filter_append]
  refine List.Sublist.trans ?_ (List.sublist_append_left _ _)
  apply List.monotone_filter_right
  intro later hlater
  simp only [Bool.and_eq_true, decide_eq_true_eq] at hlater ⊢
  exact ⟨hlater.1, h later _ hlater.2⟩

theorem classOf_advances (finding : Finding) (atFinding : Option Observed)
    {old new : Option Status} {evidence more : List Observed}
    (hstatus : ∀ known, old = some known → new = some known) (hevidence : evidence.Sublist more) :
    Advances (classOf finding atFinding old evidence) (classOf finding atFinding new more) := by
  cases old with
  | none => exact .settled _
  | some known =>
    rw [hstatus known rfl]
    cases known with
    | rejected => exact .same _
    | applied =>
      unfold classOf
      cases finding.tracked with
      | none => exact .same _
      | some tracked =>
        have hseen := hevidence.filter (observes tracked)
        dsimp only
        by_cases hnone : evidence.filter (observes tracked) = []
        · rw [if_pos hnone]
          split_ifs
          · exact .same _
          · exact .observed (.inl rfl)
          · exact .observed (.inr rfl)
        · have hnone' : more.filter (observes tracked) ≠ [] := by
            intro hempty
            rw [hempty] at hseen
            exact hnone (List.sublist_nil.mp hseen)
          rw [if_neg hnone, if_neg hnone']
          by_cases hacted : (evidence.filter (observes tracked)).any (acted finding tracked atFinding)
          · obtain ⟨later, hlater, hundone⟩ := List.any_eq_true.mp hacted
            have hacted' := List.any_eq_true.mpr ⟨later, hseen.subset hlater, hundone⟩
            rw [if_pos hacted, if_pos hacted']
            exact .same _
          · rw [if_neg hacted]
            split_ifs
            · exact .acted
            · exact .same _

/-- The same finding with its class before and after. -/
structure Later (old new : Classified φ) : Prop where
  findingId : old.findingId = new.findingId
  finding : old.finding = new.finding
  held : Advances old.held new.held

theorem forall₂_classes (h : Extends φ before after) (record : Record φ) :
    List.Forall₂ Later (classes record records before) (classes record (records ++ more) after) := by
  unfold classes
  cases record.toolUseId with
  | none => exact .nil
  | some toolUseId =>
    rw [List.forall₂_map_left_iff, List.forall₂_map_right_iff, List.forall₂_same]
    intro item hitem
    exact ⟨rfl, rfl, classOf_advances _ _ (h record) (evidenceAfter_sublist h record)⟩

theorem forall₂_flatMap (h : Extends φ before after) (carried : List (Record φ)) :
    List.Forall₂ Later (carried.flatMap fun record => classes record records before)
      (carried.flatMap fun record => classes record (records ++ more) after) := by
  induction carried with
  | nil => exact .nil
  | cons record carried ih => exact List.rel_append (forall₂_classes h record) ih

theorem appliedCount_le (check : CodePointString) {items items' : List (Classified φ)}
    (h : List.Forall₂ Later items items') : appliedCount check items ≤ appliedCount check items' := by
  induction h with
  | nil => exact Nat.le_refl _
  | cons hitem _ ih =>
    unfold appliedCount at ih ⊢
    rw [List.countP_cons, List.countP_cons]
    refine Nat.add_le_add ih ?_
    have hfinding := hitem.finding
    have happlied := hitem.held.applied
    grind

/-- When the log gets more records and its transcripts more results, the findings that were there
keep their places and ids, and their classes only advance. No check loses an applied finding. -/
theorem classify_advances (h : Extends φ before after) :
    ∃ firsts added, classify (records ++ more) after = firsts ++ added ∧
      List.Forall₂ Later (classify records before) firsts ∧
      ∀ check, appliedCount check (classify records before) ≤
        appliedCount check (classify (records ++ more) after) := by
  have hfirsts : List.Forall₂ Later (classify records before)
      ((records.filter carries).flatMap fun record => classes record (records ++ more) after) :=
    forall₂_flatMap h (records.filter carries)
  refine ⟨_, _, by rw [classify, List.filter_append, List.flatMap_append], hfirsts, ?_⟩
  intro check
  refine (appliedCount_le check hfirsts).trans ?_
  rw [classify, List.filter_append, List.flatMap_append, appliedCount, appliedCount,
    List.countP_append]
  exact Nat.le_add_right _ _

/-- A call that reported a copied block. -/
def copyingCall : Record Unit where
  lineNo := 1
  ts := ()
  sessionId := some (ofText "s".toList)
  transcriptPath := some (ofText "t".toList)
  toolUseId := some (ofText "u".toList)
  path := some (ofText "a.py".toList)
  outcome := .advisory
  reason := none
  binary := none
  findings :=
    [{ check := ofText "clone_delta".toList, path := ofText "a.py".toList, line := ⟨"3".toList⟩,
       message := ofText "copied".toList, evidence := ofText "b.py".toList,
       tracked := some (.clone (ofText "k".toList)) }]
  observed := some ⟨none, none, some [⟨ofText "a.py".toList, ofText "k".toList⟩]⟩

/-- A later call on the same file, which left no copy. -/
def cleanCall : Record Unit :=
  { copyingCall with
    lineNo := 2, toolUseId := some (ofText "v".toList), outcome := .clean, findings := []
    observed := some ⟨none, none, some []⟩ }

def appliedCalls (calls : List Text) : Transcripts :=
  [(ofText "t".toList, { results := some (calls.map fun call => (ofText call, .applied)) })]

/-- A transcript that got the results of more calls. -/
theorem extends_appliedCalls (calls more : List Text) :
    Extends Unit (appliedCalls calls) (appliedCalls (calls ++ more)) := by
  intro record known h
  unfold status appliedCalls at h ⊢
  cases hpath : record.transcriptPath with
  | none => simp [hpath] at h
  | some path =>
    by_cases hsession : path = ofText "t".toList
    · cases hcall : record.toolUseId with
      | none => simp [hpath, hcall, hsession] at h
      | some call =>
        simp only [hpath, hcall, hsession, Option.bind_eq_bind, Option.bind_some,
          List.lookup_cons_self, List.map_append, List.lookup_append] at h ⊢
        simp [h]
    · have hbeq : (path == ofText "t".toList) = false := by simpa using hsession
      simp only [hpath, Option.bind_eq_bind, Option.bind_some, List.lookup_cons, hbeq,
        List.lookup_nil] at h
      simp at h

theorem classify_advances_to_acted :
    ∃ firsts added, classify ([copyingCall] ++ [cleanCall])
        (appliedCalls (["u".toList] ++ ["v".toList])) = firsts ++ added ∧
      List.Forall₂ Later (classify [copyingCall] (appliedCalls ["u".toList])) firsts ∧
      ∀ check, appliedCount check (classify [copyingCall] (appliedCalls ["u".toList])) ≤
        appliedCount check (classify ([copyingCall] ++ [cleanCall])
          (appliedCalls (["u".toList] ++ ["v".toList]))) :=
  classify_advances (extends_appliedCalls ["u".toList] ["v".toList])

example : ((classify [copyingCall, cleanCall] (appliedCalls ["u".toList])).map (·.held),
    (classify [copyingCall, cleanCall] (appliedCalls ["u".toList, "v".toList])).map (·.held)) =
    ([.unobserved], [.actedOn]) := by decide

end Agentless.Hook.Report
