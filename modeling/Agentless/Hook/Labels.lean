import Agentless.Hook.Classify
import Agentless.Hook.CsvExact
import Agentless.Hook.Random
import Agentless.Library.Sequence

/-!
# The labeling sample

Up to thirty applied findings of each check are drawn into a file with an empty label column. The
filled file is read back, with each row matched to the log, into the counts of each check.
-/

namespace Agentless.Hook.Report

open Csv

variable {φ : Type}

/-! ## The sample -/

def SAMPLE_SIZE : Nat := 30

def FINDING_ID : Text := "finding_id".toList

def CHECK : Text := "check".toList

def LABEL : Text := "label".toList

def FIELDS : List Text :=
  [FINDING_ID, CHECK, LABEL, "session_id".toList, "path".toList, "line".toList, "unit".toList,
    "message".toList, "evidence".toList]

/-- The checks of the findings: the gated ones in their order, then the others in sorted order. -/
def checks (items : List (Classified φ)) : List CodePointString :=
  let present := (items.map (·.finding.check)).dedup
  let gated := GatedCheck.all.map fun check => ofText check.name
  gated.filter (· ∈ present) ++
    (present.filter (· ∉ gated)).insertionSort fun a b => (a.cmp b).isLE

def population (items : List (Classified φ)) (check : CodePointString) : List (Classified φ) :=
  items.filter fun item => item.finding.check = check && item.held.applied

/-- The drawn findings, where `draw` gives positions from a seed text, how many there are and how
many to take. The seed of each check has its name. -/
def sample (draw : Text → Nat → Nat → List Nat) (items : List (Classified φ)) (seed : Text) :
    List (Classified φ) :=
  (checks items).flatMap fun check =>
    let population := population items check
    let size := min population.length SAMPLE_SIZE
    (draw (seed ++ ":".toList ++ lossy check) population.length size).filterMap (population[·]?)

/-- A row of the labeling file, with its label. -/
def sampleRow (item : Classified φ) (label : Text) : List Text :=
  [lossy item.findingId, lossy item.finding.check, label,
    (item.record.sessionId.map lossy).getD [], lossy item.finding.path, item.finding.line.digits,
    (item.finding.unit.map lossy).getD [], lossy item.finding.message, lossy item.finding.evidence]

/-- The labeling file: the header, then a row with an empty label for each drawn finding. -/
def sampleCsv (rows : List (Classified φ)) : Text :=
  excelRow FIELDS ++ rows.flatMap fun item => excelRow (sampleRow item [])

/-! ## The labels -/

def REQUIRED : List Text := [FINDING_ID, CHECK, LABEL]

def CORRECT : Text := "correct".toList

def WRONG : Text := "wrong".toList

/-- The labels that one check received. -/
structure LabelCount where
  correct : Nat := 0
  wrong : Nat := 0
  unlabeled : Nat := 0
deriving DecidableEq, Repr

def LabelCount.add (count : LabelCount) (label : Text) : LabelCount :=
  if label = CORRECT then { count with correct := count.correct + 1 }
  else if label = WRONG then { count with wrong := count.wrong + 1 }
  else { count with unlabeled := count.unlabeled + 1 }

abbrev Labels := List (CodePointString × LabelCount)

/-- A check that no row names has no labels. -/
def labelsFor (labels : Labels) (check : CodePointString) : LabelCount :=
  (labels.lookup check).getD {}

def bump (labels : Labels) (check : CodePointString) (label : Text) : Labels :=
  (check, (labelsFor labels check).add label) :: labels.filter (·.1 ≠ check)

def checkHeader (names : Option (List Text)) (path : Text) : Except Text Unit :=
  match names with
  | none => .error (path ++ " is empty".toList)
  | some names =>
    let missing := REQUIRED.filter (· ∉ names)
    if missing = [] then .ok ()
    else .error (path ++ ": the header lacks ".toList ++ ", ".toList.intercalate missing)

/-- The text of the column, or nothing for a column that the row lacks. -/
def textOf (row : Row) (name : Text) : Option Text :=
  match (row.find? (·.1 = some name)).map Prod.snd with
  | some (.text text) => some text
  | _ => none

section Reading

variable (isPrintable : Nat → Bool)

/-- The check and the label of a row, and the ids seen with this one. -/
def labelRow (row : Row) (items : List (Classified φ)) (seen : List Text) (at_ : Text) :
    Except Text (CodePointString × Text × List Text) :=
  match textOf row FINDING_ID, textOf row CHECK, textOf row LABEL with
  | some findingId, some check, some label =>
    let label := Text.strip label
    if label ∉ [CORRECT, WRONG, []] then
      .error (at_ ++ ": label ".toList ++ (ofText label).quoted isPrintable ++
        " is not correct, wrong, or empty".toList)
    else if findingId ∈ seen then
      .error (at_ ++ ": ".toList ++ findingId ++ " appears twice".toList)
    else
      -- a later finding with the same id stands for the earlier one
      match items.reverse.find? fun item => item.held.applied && item.findingId = ofText findingId with
      | none =>
        .error (at_ ++ ": ".toList ++ findingId ++ " is not an applied finding in the log".toList)
      | some item =>
        let logged := item.finding.check
        if logged.asStr ≠ some check then
          .error (at_ ++ ": ".toList ++ findingId ++ " is a ".toList ++ lossy logged ++
            " finding, not ".toList ++ check)
        else .ok (logged, label, findingId :: seen)
  | _, _, _ => .error (at_ ++ ": the row has fewer columns than the header".toList)

variable (chunk : Nat) (path : Text) (items : List (Classified φ))

def unreadable (error : Text) : Text := "cannot read ".toList ++ path ++ ": ".toList ++ error

def countRows (dict : DictReader) (hheader : dict.readHeader = true) (labels : Labels)
    (seen : List Text) : Except Text Labels :=
  match h : dict.nextRow chunk with
  | (none, _) => .ok labels
  | (some (.error error), _) => .error (unreadable path error)
  | (some (.ok row), after) =>
    let at_ := path ++ ":".toList ++ Nat.toDigits 10 after.reader.lineNum
    match labelRow isPrintable row items seen at_ with
    | .error error => .error error
    | .ok (check, label, seen) =>
      countRows after (DictReader.size_nextRow hheader h).2 (bump labels check label) seen
termination_by dict.reader.lines.size
decreasing_by exact (DictReader.size_nextRow hheader h).1

/-- The labels of the file that was read as `bytes`. -/
def readLabels (bytes : Bytes) : Except Text Labels :=
  match h : (DictReader.new bytes).header chunk with
  | (.error error, _) => .error (unreadable path error)
  | (.ok (), dict) =>
    match checkHeader dict.fieldnames path with
    | .error error => .error error
    | .ok () => countRows isPrintable chunk path items dict (DictReader.readHeader_header h) [] []

end Reading

end Agentless.Hook.Report

/-!
## A filled sample is counted exactly

The rows of a sample are findings of the log with ids of their own, so a file that was filled with
labels is read back with the count of each label for each check.
-/


namespace Agentless.Hook.Report

open Csv

variable {φ : Type}

/-! ## Ids -/

theorem findingId_inj {call call' : CodePointString} {place place' : Nat}
    (h : call.pushStr (utf8 ('#' :: Nat.toDigits 10 place)) =
      call'.pushStr (utf8 ('#' :: Nat.toDigits 10 place'))) : call = call' ∧ place = place' := by
  have hhash (n : Nat) : ∀ byte ∈ (utf8 (Nat.toDigits 10 n)).reverse, (byte == 0x23) = false := by
    intro byte hbyte
    have hnot : UInt8.ofNat '#'.toNat ∉ utf8 (Nat.toDigits 10 n) := by
      apply ascii_notMem_utf8 (by decide)
      intro hdigit
      exact absurd (Nat.isDigit_of_mem_toDigits (by decide) (by decide) hdigit) (by decide)
    rw [beq_eq_false_iff_ne]
    rintro rfl
    exact hnot (List.mem_reverse.mp hbyte)
  have hsplit (text : CodePointString) (n : Nat) :
      (text.pushStr (utf8 ('#' :: Nat.toDigits 10 n))).bytes.reverse =
        (utf8 (Nat.toDigits 10 n)).reverse ++ 0x23 :: text.bytes.reverse := by
    rw [CodePointString.pushStr, utf8_cons, utf8EncodeChar_ascii (by decide)]
    simp
  have hbytes := congrArg (fun text : CodePointString => text.bytes.reverse) h
  rw [hsplit, hsplit] at hbytes
  obtain ⟨hdigits, hcall⟩ := @Sequence.append_inj_of_head _ (· == 0x23) _ _ _ _ (hhash place)
    (hhash place') (by simp) (by simp) hbytes
  constructor
  · cases call
    cases call'
    simpa using hcall
  · have hplace := utf8_injective (List.reverse_injective hdigits)
    rw [← @Nat.ofDigitChars_ten_toDigits place, hplace, Nat.ofDigitChars_ten_toDigits]

/-- The findings of distinct calls have distinct ids. -/
theorem nodup_findingId {records : List (Record φ)} {transcripts : Transcripts}
    (h : ((records.filter carries).filterMap (·.toolUseId)).Nodup) :
    ((classify records transcripts).map (·.findingId)).Nodup := by
  rw [classify, List.map_flatMap]
  refine List.nodup_flatMap.mpr ⟨?_, ?_⟩
  · intro record _
    unfold classes
    cases record.toolUseId with
    | none => exact List.nodup_nil
    | some call =>
      rw [List.map_map]
      refine List.Nodup.map_on ?_ (List.Nodup.of_map Prod.snd ?_)
      · intro item hitem item' hitem' hid
        have hplace := (findingId_inj hid).2
        rw [List.mem_zipIdx_iff_getElem?] at hitem hitem'
        rw [hplace] at hitem
        exact Prod.ext (Option.some.inj (hitem.symm.trans hitem')) hplace
      · rw [List.zipIdx_map_snd]
        exact List.nodup_range'
  · refine (List.pairwise_filterMap.mp h).imp ?_
    intro record record' hne id hid hid'
    have hcall (record : Record φ)
        (hid : id ∈ (classes record records transcripts).map (·.findingId)) :
        ∃ call place, record.toolUseId = some call ∧
          call.pushStr (utf8 ('#' :: Nat.toDigits 10 place)) = id := by
      unfold classes at hid
      cases hcall : record.toolUseId with
      | none => simp [hcall] at hid
      | some call =>
        simp only [hcall, List.map_map, List.mem_map] at hid
        obtain ⟨item, -, hid⟩ := hid
        exact ⟨call, item.2, rfl, hid⟩
    obtain ⟨call, place, hrecord, rfl⟩ := hcall record hid
    obtain ⟨call', place', hrecord', hsame⟩ := hcall record' hid'
    exact hne _ hrecord _ hrecord' (findingId_inj hsame).1.symm

/-! ## The sample -/

theorem nodup_checks (items : List (Classified φ)) : (checks items).Nodup := by
  have hgated : (GatedCheck.all.map fun check => ofText check.name).Nodup := by decide
  refine List.Nodup.append (hgated.filter _) ?_ ?_
  · exact ((List.perm_insertionSort _ _).nodup_iff).mpr ((List.nodup_dedup _).filter _)
  · intro check hknown hother
    rw [(List.perm_insertionSort _ _).mem_iff] at hother
    simp only [List.mem_filter, decide_eq_true_eq] at hknown hother
    exact hother.2 hknown.1

section Sample

variable {items : List (Classified φ)}

/-- The applied findings with ids of their own. -/
def Identified (items : List (Classified φ)) : Prop :=
  ((items.filter fun item => item.held.applied).map (·.findingId)).Nodup

theorem Identified.eq_of_findingId (h : Identified items) {item item' : Classified φ}
    (hitem : item ∈ items) (happlied : item.held.applied = true) (hitem' : item' ∈ items)
    (happlied' : item'.held.applied = true) (hid : item.findingId = item'.findingId) :
    item = item' :=
  List.inj_on_of_nodup_map h (List.mem_filter.mpr ⟨hitem, happlied⟩)
    (List.mem_filter.mpr ⟨hitem', happlied'⟩) hid

variable {draw : Text → Nat → Nat → List Nat}

theorem mem_sample {seed : Text} {item : Classified φ} (h : item ∈ sample draw items seed) :
    item ∈ items ∧ item.held.applied = true := by
  obtain ⟨check, -, hitem⟩ := List.mem_flatMap.mp h
  obtain ⟨place, -, hplace⟩ := List.mem_filterMap.mp hitem
  have hpopulation := List.mem_of_getElem? hplace
  simp only [population, List.mem_filter, Bool.and_eq_true] at hpopulation
  exact ⟨hpopulation.1, hpopulation.2.2⟩

/-- Distinct positions draw findings with distinct ids. -/
theorem nodup_sample (hdraw : ∀ seed n k, k ≤ n → Distinct n k (draw seed n k))
    (h : Identified items) (seed : Text) :
    ((sample draw items seed).map (·.findingId)).Nodup := by
  rw [sample, List.map_flatMap]
  refine List.nodup_flatMap.mpr ⟨?_, ?_⟩
  · intro check _
    have hpopulation : ((population items check).map (·.findingId)).Nodup := by
      refine List.Nodup.sublist (List.Sublist.map _ (List.monotone_filter_right _ ?_)) h
      intro item hitem
      exact (Bool.and_eq_true_iff.mp hitem).2
    rw [List.map_filterMap]
    refine List.Nodup.filterMap ?_ (hdraw _ _ _ (Nat.min_le_left _ _)).nodup
    intro place place' id hid hid'
    rw [Option.mem_def, ← List.getElem?_map] at hid hid'
    exact (List.getElem?_inj (List.getElem?_eq_some_iff.mp hid).1 hpopulation).mp (hid.trans hid'.symm)
  · refine (nodup_checks items).imp ?_
    intro check check' hne id hid hid'
    have hmem (check : CodePointString) (hid : id ∈ (((draw (seed ++ ":".toList ++ lossy check)
        (population items check).length (min (population items check).length SAMPLE_SIZE)).filterMap
          ((population items check)[·]?)).map (·.findingId))) :
        ∃ item ∈ items, item.held.applied = true ∧ item.finding.check = check ∧
          item.findingId = id := by
      obtain ⟨item, hitem, rfl⟩ := List.mem_map.mp hid
      obtain ⟨place, -, hplace⟩ := List.mem_filterMap.mp hitem
      have hpopulation := List.mem_of_getElem? hplace
      simp only [population, List.mem_filter, Bool.and_eq_true, decide_eq_true_eq] at hpopulation
      exact ⟨item, hpopulation.1, hpopulation.2.2, hpopulation.2.1, rfl⟩
    obtain ⟨item, hitem, happlied, rfl, hitemId⟩ := hmem check hid
    obtain ⟨item', hitem', happlied', rfl, hitemId'⟩ := hmem check' hid'
    have hsame := h.eq_of_findingId hitem happlied hitem' happlied' (hitemId.trans hitemId'.symm)
    exact hne (by rw [hsame])

end Sample

/-! ## The labels -/

theorem labelsFor_bump (labels : Labels) (check other : CodePointString) (label : Text) :
    labelsFor (bump labels check label) other =
      if other = check then (labelsFor labels check).add label else labelsFor labels other := by
  unfold labelsFor bump
  rw [List.lookup_cons]
  by_cases h : other = check
  · simp [h, labelsFor]
  · have hfilter : ∀ labels : Labels, (labels.filter (·.1 ≠ check)).lookup other = labels.lookup other := by
      intro labels
      induction labels with
      | nil => rfl
      | cons entry labels ih =>
        obtain ⟨key, count⟩ := entry
        rw [List.filter_cons, List.lookup_cons]
        split_ifs with hkey
        · rw [List.lookup_cons, ih]
        · have hother : (other == key) = false := by
            simp only [ne_eq, decide_not, Bool.not_eq_true', decide_eq_false_iff_not,
              not_not] at hkey
            simpa [hkey] using h
          rw [ih, hother]
    have hbeq : (other == check) = false := by simpa using h
    rw [hbeq, hfilter, if_neg h]

/-- The labels of the rows of a check. -/
def countOf (rows : List (Classified φ × Text)) (check : CodePointString) : LabelCount where
  correct := rows.countP fun row => row.1.finding.check = check && Text.strip row.2 = CORRECT
  wrong := rows.countP fun row => row.1.finding.check = check && Text.strip row.2 = WRONG
  unlabeled := rows.countP fun row => row.1.finding.check = check && Text.strip row.2 = []

/-- The labels of some rows, with each row's label counted for its check. -/
def counted (labels : Labels) (rows : List (Classified φ × Text)) : Labels :=
  rows.foldl (fun labels row => bump labels row.1.finding.check (Text.strip row.2)) labels

theorem labelsFor_counted (labels : Labels) (check : CodePointString)
    {rows : List (Classified φ × Text)}
    (hlabels : ∀ row ∈ rows, Text.strip row.2 ∈ [CORRECT, WRONG, []]) :
    labelsFor (counted labels rows) check =
      ⟨(labelsFor labels check).correct + (countOf rows check).correct,
        (labelsFor labels check).wrong + (countOf rows check).wrong,
        (labelsFor labels check).unlabeled + (countOf rows check).unlabeled⟩ := by
  induction rows generalizing labels with
  | nil => rfl
  | cons row rows ih =>
    obtain ⟨hrow, hrows⟩ := List.forall_mem_cons.mp hlabels
    have hdistinct : WRONG ≠ CORRECT ∧ ([] : Text) ≠ CORRECT ∧ ([] : Text) ≠ WRONG := by decide
    rw [counted, List.foldl_cons, ← counted, ih _ hrows, labelsFor_bump]
    unfold countOf
    simp only [List.countP_cons]
    by_cases hcheck : check = row.1.finding.check
    · subst hcheck
      rw [if_pos rfl]
      unfold LabelCount.add
      simp only [List.mem_cons, List.not_mem_nil, or_false] at hrow
      rcases hrow with hrow | hrow | hrow <;> simp [hrow, hdistinct, Ne.symm hdistinct.1,
        Ne.symm hdistinct.2.1, Ne.symm hdistinct.2.2] <;> omega
    · have hne : row.1.finding.check ≠ check := Ne.symm hcheck
      simp [hcheck, hne]

theorem textOf_sampleRow (item : Classified φ) (label : Text) :
    textOf (byName FIELDS (sampleRow item label)) FINDING_ID = some (lossy item.findingId) ∧
      textOf (byName FIELDS (sampleRow item label)) CHECK = some (lossy item.finding.check) ∧
      textOf (byName FIELDS (sampleRow item label)) LABEL = some label :=
  ⟨rfl, rfl, rfl⟩

@[simp] theorem asStr_ofText (text : Text) : (ofText text).asStr = some text :=
  CodePointString.asStr_utf8 text

/-- A string without lone surrogates is shown as it is. -/
@[simp] theorem lossy_ofText (text : Text) : lossy (ofText text) = text := by
  unfold lossy ofText
  rw [CodePointString.codePoints_utf8, List.map_map]
  refine List.map_id'' (fun c => ?_) text
  have hvalid : c.toNat.isValidChar := c.valid
  simp only [Function.comp_apply, hvalid, if_true]
  exact Char.ofNat_toNat c

theorem asStr_lossy {string : CodePointString} (h : string.asStr.isSome) :
    string.asStr = some (lossy string) := by
  obtain ⟨text, htext⟩ := Option.isSome_iff_exists.mp h
  obtain ⟨bytes⟩ := string
  obtain rfl : bytes = utf8 text := CodePointString.asStr_eq_some_iff.mp htext
  rw [htext]
  exact congrArg some (lossy_ofText text).symm

theorem ofText_lossy {string : CodePointString} (h : string.asStr.isSome) :
    ofText (lossy string) = string := by
  have hbytes := CodePointString.asStr_eq_some_iff.mp (asStr_lossy h)
  cases string
  exact congrArg CodePointString.mk hbytes.symm

section Reading

variable {items : List (Classified φ)} {isPrintable : Nat → Bool} {chunk : Nat} {path : Text}

/-- A row of the sample that was labeled. -/
structure Filled (items : List (Classified φ)) (row : Classified φ × Text) : Prop where
  mem : row.1 ∈ items
  applied : row.1.held.applied = true
  label : Text.strip row.2 ∈ [CORRECT, WRONG, []]
  findingId : row.1.findingId.asStr.isSome
  check : row.1.finding.check.asStr.isSome
  length : ∀ field ∈ sampleRow row.1 row.2, field.length ≤ FIELD_LIMIT

theorem labelRow_filled (hitems : Identified items) {row : Classified φ × Text}
    (h : Filled items row) {seen : List Text} (hseen : lossy row.1.findingId ∉ seen) (at_ : Text) :
    labelRow isPrintable (byName FIELDS (sampleRow row.1 row.2)) items seen at_ =
      .ok (row.1.finding.check, Text.strip row.2, lossy row.1.findingId :: seen) := by
  obtain ⟨hid, hcheck, hlabel⟩ := textOf_sampleRow row.1 row.2
  have hfind : (items.reverse.find? fun item =>
      item.held.applied && item.findingId = ofText (lossy row.1.findingId)) = some row.1 := by
    rw [ofText_lossy h.findingId]
    cases hfound : items.reverse.find? fun item =>
        item.held.applied && item.findingId = row.1.findingId with
    | none =>
      have hnone := List.find?_eq_none.mp hfound row.1 (List.mem_reverse.mpr h.mem)
      simp [h.applied] at hnone
    | some item =>
      have hitem := List.find?_some hfound
      simp only [Bool.and_eq_true, decide_eq_true_eq] at hitem
      have hmem := List.mem_reverse.mp (List.mem_of_find?_eq_some hfound)
      rw [hitems.eq_of_findingId hmem hitem.1 h.mem h.applied hitem.2]
  unfold labelRow
  simp only [hid, hcheck, hlabel, hfind]
  rw [if_neg (not_not.mpr h.label), if_neg hseen, if_neg (by simp [asStr_lossy h.check])]

theorem nextRow_eq {dict : DictReader} {names fields : List Text} {after : Reader}
    (hheader : dict.readHeader = true) (hnames : dict.fieldnames = some names) (hne : fields ≠ [])
    (h : dict.reader.nextRecord chunk = (some (.ok fields), after)) :
    dict.nextRow chunk =
      (some (.ok (byName names fields)), { dict with reader := after }) := by
  have hfilled : dict.reader.nextFilled chunk = (some (.ok fields), after) := by
    rw [Reader.nextFilled]
    split
    · rename_i hread
      rw [h] at hread
      simp_all
    · rename_i hread
      rw [h] at hread
      exact hread.symm
  rw [DictReader.nextRow, DictReader.header, if_pos hheader]
  simp only [hfilled, hnames]
  rfl

theorem countRows_filled (hitems : Identified items) {rows : List (Classified φ × Text)}
    (hrows : ∀ row ∈ rows, Filled items row)
    (hnodup : (rows.map fun row => lossy row.1.findingId).Nodup) {dict : DictReader}
    (hheader : dict.readHeader = true) (hnames : dict.fieldnames = some FIELDS) (labels : Labels)
    {seen : List Text} (hseen : ∀ row ∈ rows, lossy row.1.findingId ∉ seen)
    (h : Reader.Records chunk dict.reader (rows.map fun row => sampleRow row.1 row.2)) :
    countRows isPrintable chunk path items dict hheader labels seen = .ok (counted labels rows) := by
  induction rows generalizing dict labels seen with
  | nil =>
    obtain ⟨after, hnext⟩ : ∃ after, dict.reader.nextRecord chunk = (none, after) := by
      cases h with
      | done hnext => exact ⟨_, hnext⟩
    have hfilled : dict.reader.nextFilled chunk = (none, after) := by
      rw [Reader.nextFilled]
      split <;> simp_all
    have hread : dict.nextRow chunk = (none, { dict with reader := after }) := by
      rw [DictReader.nextRow, DictReader.header, if_pos hheader]
      simp only [hfilled]
    rw [countRows]
    split
    · rfl
    · simp_all
    · simp_all
  | cons row rows ih =>
    obtain ⟨hrow, hrows⟩ := List.forall_mem_cons.mp hrows
    obtain ⟨hnew, hseen⟩ := List.forall_mem_cons.mp hseen
    obtain ⟨hid, hnodup⟩ := List.nodup_cons.mp hnodup
    obtain ⟨after, hnext, hafter⟩ : ∃ after,
        dict.reader.nextRecord chunk = (some (.ok (sampleRow row.1 row.2)), after) ∧
          Reader.Records chunk after (rows.map fun row => sampleRow row.1 row.2) := by
      cases h with
      | more hnext hafter => exact ⟨_, hnext, hafter⟩
    have hread := nextRow_eq hheader hnames (by simp [sampleRow]) hnext
    rw [countRows]
    split
    · simp_all
    · simp_all
    · rename_i read after' hread'
      obtain ⟨hitem, rfl⟩ := Prod.mk.inj (hread'.symm.trans hread)
      obtain rfl : read = byName FIELDS (sampleRow row.1 row.2) := by simpa using hitem
      simp only [labelRow_filled hitems hrow hnew]
      apply @ih hrows hnodup { dict with reader := after } hheader hnames _ _ _ hafter
      intro other hother
      have hne : lossy other.1.findingId ≠ lossy row.1.findingId :=
        fun heq => hid (List.mem_map.mpr ⟨other, hother, heq⟩)
      exact List.mem_cons.not.mpr (not_or.mpr ⟨hne, hseen other hother⟩)

theorem readLabels_filled (hchunk : 0 < chunk) (hitems : Identified items)
    {rows : List (Classified φ × Text)} (hrows : ∀ row ∈ rows, Filled items row)
    (hnodup : (rows.map fun row => lossy row.1.findingId).Nodup) :
    readLabels isPrintable chunk path items (utf8 (excelRow FIELDS ++
      rows.flatMap fun row => excelRow (sampleRow row.1 row.2))) = .ok (counted [] rows) := by
  have hbytes : utf8 (excelRow FIELDS ++ rows.flatMap fun row => excelRow (sampleRow row.1 row.2)) =
      utf8 (excelRow FIELDS ++ rows.flatMap fun row => excelRow (sampleRow row.1 row.2)) ++ [] :=
    (List.append_nil _).symm
  have hreads := (Lines.reads_new hbytes firstChar_nil).yields hchunk
  rw [if_pos rfl] at hreads
  have hrecords := @records_of_yields chunk { lines := { rest := _ } }
    (FIELDS :: rows.map fun row => sampleRow row.1 row.2) ?_
    (by rwa [List.flatMap_cons, List.flatMap_map])
  · rw [List.map_cons, List.map_map] at hrecords
    have hplain : rows.map (readBack ∘ fun row => sampleRow row.1 row.2) =
        rows.map fun row => sampleRow row.1 row.2 :=
      List.map_congr_left fun row _ => if_neg (by simp [sampleRow])
    rw [hplain] at hrecords
    obtain ⟨after, hnext, hafter⟩ : ∃ after,
        (DictReader.new (utf8 (excelRow FIELDS ++ rows.flatMap fun row =>
          excelRow (sampleRow row.1 row.2)))).reader.nextRecord chunk =
            (some (.ok FIELDS), after) ∧
          Reader.Records chunk after (rows.map fun row => sampleRow row.1 row.2) := by
      cases hrecords with
      | more hnext hafter => exact ⟨_, hnext, hafter⟩
    have hheader : (DictReader.new (utf8 (excelRow FIELDS ++ rows.flatMap fun row =>
        excelRow (sampleRow row.1 row.2)))).header chunk = (.ok (), ⟨after, some FIELDS, true⟩) := by
      rw [DictReader.header, if_neg (by simp [DictReader.new]), hnext]
    unfold readLabels
    split
    · simp_all
    · rename_i dict hread
      obtain ⟨-, rfl⟩ := Prod.mk.inj (hread.symm.trans hheader)
      have hnames : checkHeader (some FIELDS) path = .ok () := rfl
      simp only [hnames]
      exact countRows_filled hitems hrows hnodup rfl rfl [] (by simp) hafter
  · intro fields hfields field hfield
    rcases List.mem_cons.mp hfields with rfl | hfields
    · have hshort : ∀ field ∈ FIELDS, field.length ≤ 12 := by decide
      exact (hshort field hfield).trans (by simp [FIELD_LIMIT])
    · obtain ⟨row, hrow, rfl⟩ := List.mem_map.mp hfields
      exact (hrows row hrow).length field hfield

end Reading

/-! ## From the log to the labels -/

theorem identified_classify {records : List (Record φ)} {transcripts : Transcripts}
    (h : ((records.filter carries).filterMap (·.toolUseId)).Nodup) :
    Identified (classify records transcripts) :=
  List.Nodup.sublist (List.filter_sublist.map _) (nodup_findingId h)

/-- A sample of a log whose calls have ids of their own is drawn, written and filled with labels. The
file is read back, and each check has the count of each label that its rows were given. -/
theorem labels_of_sample {records : List (Record φ)} {transcripts : Transcripts}
    (draw : Text → Nat → Nat → List Nat) (seed : Text) {path : Text} {isPrintable : Nat → Bool}
    {chunk : Nat} {rows : List (Classified φ × Text)}
    (hcalls : ((records.filter carries).filterMap (·.toolUseId)).Nodup)
    (hdraw : ∀ seed n k, k ≤ n → Distinct n k (draw seed n k)) (hchunk : 0 < chunk)
    (hrows : rows.map Prod.fst = sample draw (classify records transcripts) seed)
    (hlabels : ∀ row ∈ rows, Text.strip row.2 ∈ [CORRECT, WRONG, []])
    (htext : ∀ row ∈ rows, row.1.findingId.asStr.isSome ∧ row.1.finding.check.asStr.isSome)
    (hlength : ∀ row ∈ rows, ∀ field ∈ sampleRow row.1 row.2, field.length ≤ FIELD_LIMIT) :
    ∃ labels, readLabels isPrintable chunk path (classify records transcripts)
        (utf8 (excelRow FIELDS ++ rows.flatMap fun row => excelRow (sampleRow row.1 row.2))) =
          .ok labels ∧
      ∀ check, labelsFor labels check = countOf rows check := by
  have hitems : Identified (classify records transcripts) := identified_classify hcalls
  have hfilled : ∀ row ∈ rows, Filled (classify records transcripts) row := by
    intro row hrow
    have hdrawn : row.1 ∈ sample draw (classify records transcripts) seed :=
      hrows ▸ List.mem_map_of_mem hrow
    exact ⟨(mem_sample hdrawn).1, (mem_sample hdrawn).2, hlabels row hrow, (htext row hrow).1,
      (htext row hrow).2, hlength row hrow⟩
  have hnodup : (rows.map fun row => lossy row.1.findingId).Nodup := by
    have hids := nodup_sample hdraw hitems seed
    rw [← hrows, List.map_map] at hids
    refine List.Nodup.of_map ofText ?_
    rw [List.map_map]
    have hsame : rows.map (ofText ∘ fun row => lossy row.1.findingId) =
        rows.map ((·.findingId) ∘ Prod.fst) :=
      List.map_congr_left fun row hrow => ofText_lossy (htext row hrow).1
    rwa [hsame]
  refine ⟨counted [] rows, readLabels_filled hchunk hitems hfilled hnodup, fun check => ?_⟩
  rw [labelsFor_counted [] check hlabels]
  simp [labelsFor]

/-- The finding of `copyingCall`, with a label. -/
def labeledCopy : Classified Unit × Text :=
  (⟨ofText "u#0".toList, .unobserved, copyingCall,
    { check := ofText "clone_delta".toList, path := ofText "a.py".toList, line := ⟨"3".toList⟩,
      message := ofText "copied".toList, evidence := ofText "b.py".toList,
      tracked := some (.clone (ofText "k".toList)) }⟩, " correct".toList)

theorem labels_of_sample_of_one :
    ∃ labels, readLabels (fun _ => true) CHUNK [] (classify [copyingCall] (appliedCalls ["u".toList]))
        (utf8 (excelRow FIELDS ++
          [labeledCopy].flatMap fun row => excelRow (sampleRow row.1 row.2))) = .ok labels ∧
      ∀ check, labelsFor labels check = countOf [labeledCopy] check :=
  labels_of_sample (fun _ _ k => List.range k) "7".toList (by decide)
    (fun _ _ k h => ⟨List.length_range, List.nodup_range, fun _ hposition =>
      (List.mem_range.mp hposition).trans_le h⟩)
    (by decide) rfl (by decide) (by simp [labeledCopy])
    (by simp [labeledCopy, sampleRow, copyingCall, FIELD_LIMIT])

end Agentless.Hook.Report
