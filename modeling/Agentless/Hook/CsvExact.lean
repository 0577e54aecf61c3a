import Agentless.Hook.CsvLines

/-!
# The labeling file is read back

The records that were written are the records that are read, whatever their fields hold and however
the file falls into chunks and lines.
-/


namespace Agentless.Hook.Csv

/-! ## A record of some lines -/

/-- A record of a list of lines, and the lines after it. -/
def recordOf (parse : Parse) : List Text → Option (Except Text (List Text)) × List Text
  | [] => (parse.atEnd, [])
  | line :: lines =>
    match parse.line line with
    | .error message => (some (.error message), lines)
    | .ok parse =>
      if parse.state = .startRecord then (some (.ok parse.fields), lines) else recordOf parse lines

namespace Lines

theorem next_none {chunk : Nat} {lines after : Lines} (h : lines.next chunk = (none, after)) :
    after.next chunk = (none, after) := by
  fun_induction next chunk lines with
  | case1 => simp at h
  | case2 lines hend hfailed =>
    obtain ⟨-, rfl⟩ := Prod.mk.inj h
    rw [next, hend]
    simp [hfailed]
  | case3 lines hend hfailed hended =>
    obtain ⟨-, rfl⟩ := Prod.mk.inj h
    have hnil : lineEnd [] = none := rfl
    rw [next]
    simp only [hnil]
    rw [if_neg hfailed, if_pos hended]
    rfl
  | case4 => simp at h
  | case5 lines hend hfailed hended after' hread ih => exact ih h

end Lines

theorem recordFrom_eq {chunk : Nat} {reader : Reader} {lines : List Text} (parse : Parse)
    (h : Lines.Yields chunk reader.lines (lines.map .ok)) :
    ∃ after, reader.recordFrom chunk parse = ((recordOf parse lines).1, after) ∧
      Lines.Yields chunk after.lines ((recordOf parse lines).2.map .ok) := by
  induction lines generalizing reader parse with
  | nil =>
    obtain ⟨after, hnext⟩ : ∃ after, reader.lines.next chunk = (none, after) := by
      cases h with
      | done hnext => exact ⟨_, hnext⟩
    refine ⟨{ reader with lines := after }, ?_, .done (Lines.next_none hnext)⟩
    rw [Reader.recordFrom]
    split <;> simp_all [recordOf]
  | cons line lines ih =>
    obtain ⟨after, hnext, hafter⟩ : ∃ after, reader.lines.next chunk = (some (.ok line), after) ∧
        Lines.Yields chunk after (lines.map .ok) := by
      cases h with
      | more hnext hafter => exact ⟨_, hnext, hafter⟩
    rw [Reader.recordFrom]
    split
    · simp_all
    · simp_all
    · rename_i line' lines' hline
      obtain ⟨hitem, rfl⟩ := Prod.mk.inj (hline.symm.trans hnext)
      obtain rfl : line' = line := by simpa using hitem
      rw [recordOf]
      cases hparse : parse.line line' with
      | error message => exact ⟨_, rfl, hafter⟩
      | ok parse' =>
        dsimp only
        split_ifs with hstate
        · exact ⟨_, rfl, hafter⟩
        · exact ih parse' hafter

/-! ## Characters of a record -/

variable {text : Text}

theorem recordOf_char {parse parse' : Parse} {c : Char}
    (hc : ¬(c = '\n' ∨ c = '\r' ∧ text.head? ≠ some '\n')) (htext : text ≠ [])
    (hstep : parse.step (some c) = .ok parse') :
    recordOf parse (cut (c :: text)) = recordOf parse' (cut text) := by
  obtain ⟨line, lines, hlines⟩ := List.exists_cons_of_ne_nil (mt cut_eq_nil.mp htext)
  rw [cut_char hc hlines, hlines]
  have hline : parse.line (c :: line) = parse'.line line := by
    simp only [Parse.line, List.map_cons, List.cons_append, List.foldlM_cons, hstep]
    rfl
  rw [recordOf, recordOf, hline]

/-- A line may end inside quotes. -/
theorem recordOf_quoted {parse parse' : Parse} {c : Char} (htext : text ≠ [])
    (hstep : parse.step (some c) = .ok parse') (hstate : parse'.state = .inQuotedField) :
    recordOf parse (cut (c :: text)) = recordOf parse' (cut text) := by
  by_cases hc : c = '\n' ∨ c = '\r' ∧ text.head? ≠ some '\n'
  · have hline : parse.line [c] = .ok parse' := by
      simp only [Parse.line, List.map_cons, List.map_nil, List.cons_append, List.nil_append,
        List.foldlM_cons, List.foldlM_nil, hstep]
      change (parse'.step none >>= pure) = _
      rw [Parse.step, hstate]
      rfl
    rw [cut_newline hc, recordOf, hline]
    simp [hstate]
  · exact recordOf_char hc htext hstep

namespace Parse

variable {parse : Parse}

/-- The parse with more text in its field. -/
def grown (parse : Parse) (text : Text) (state : State) : Parse :=
  { parse with field := parse.field ++ text, length := parse.length + text.length, state := state }

theorem add_eq (c : Char) (h : parse.length < FIELD_LIMIT) :
    parse.add c = .ok (parse.grown [c] parse.state) := by
  rw [add, if_neg (Nat.not_le.mpr h)]
  rfl

@[simp] theorem grown_grown (text more : Text) (state state' : State) :
    (parse.grown text state).grown more state' = parse.grown (text ++ more) state' := by
  simp [grown, Nat.add_assoc]

@[simp] theorem state_grown (text : Text) (state : State) : (parse.grown text state).state = state :=
  rfl

@[simp] theorem length_grown (text : Text) (state : State) :
    (parse.grown text state).length = parse.length + text.length := rfl

/-- A parse at the beginning of a field. -/
structure Starts (parse : Parse) : Prop where
  state_eq : parse.state = .startField ∨ parse.state = .startRecord
  field_eq : parse.field = []
  length_eq : parse.length = 0

/-- A parse past the text of a field. -/
structure Holds (parse : Parse) (fields : List Text) (field : Text) : Prop where
  fields_eq : parse.fields = fields
  field_eq : parse.field = field
  state_eq : parse.state = .inField ∨ parse.state = .quoteInQuotedField ∨
    parse.state = .startField ∨ parse.state = .startRecord ∧ field = []

theorem Starts.step (h : parse.Starts) {c : Char} (hn : c ≠ '\n') (hr : c ≠ '\r') :
    parse.step (some c) = (parse.enter .startField).startField (some c) := by
  have hself : parse.state = .startField → parse.enter .startField = parse := by
    intro hstate
    rw [enter, ← hstate]
  rcases h.state_eq with hstate | hstate
  · rw [Parse.step, hstate, hself hstate]
  · rw [Parse.step, hstate]
    simp [startRecord, hn, hr]

theorem Holds.delimiter {fields : List Text} {field : Text} (h : parse.Holds fields field) :
    parse.step (some DELIMITER) = .ok ⟨fields ++ [field], [], 0, .startField⟩ := by
  obtain ⟨rfl, rfl, hstate⟩ := h
  obtain ⟨fields, field, length, state⟩ := parse
  dsimp only at hstate
  rcases hstate with rfl | rfl | rfl | ⟨rfl, -⟩ <;> rfl

theorem Holds.crlf {fields : List Text} {field : Text} (h : parse.Holds fields field) :
    parse.line ['\r', '\n'] = .ok
      (if parse.state = .startRecord then { parse with state := .startRecord }
      else ⟨fields ++ [field], [], 0, .startRecord⟩) := by
  obtain ⟨rfl, rfl, hstate⟩ := h
  obtain ⟨fields, field, length, state⟩ := parse
  dsimp only at hstate
  rcases hstate with rfl | rfl | rfl | ⟨rfl, -⟩ <;> rfl

end Parse

open Parse

theorem recordOf_plain {parse : Parse} {field : Text} (hstate : parse.state = .inField)
    (hfield : needsQuotes field = false) (hlength : parse.length + field.length ≤ FIELD_LIMIT)
    (htext : text ≠ []) :
    recordOf parse (cut (field ++ text)) = recordOf (parse.grown field .inField) (cut text) := by
  induction field generalizing parse with
  | nil => simp [grown, ← hstate]
  | cons c field ih =>
    simp only [needsQuotes, List.any_cons, Bool.or_eq_false_iff, decide_eq_false_iff_not] at hfield
    obtain ⟨⟨⟨⟨hdelimiter, hquote⟩, hr⟩, hn⟩, hfield⟩ := hfield
    rw [List.length_cons] at hlength
    have hstep : parse.step (some c) = .ok (parse.grown [c] .inField) := by
      rw [Parse.step, hstate]
      dsimp only [inField]
      rw [if_neg (by tauto), if_neg hdelimiter, add_eq c (by omega), hstate]
    rw [List.cons_append, recordOf_char (by tauto) (by simp [htext]) hstep,
      ih rfl hfield (by simp; omega), grown_grown]
    rfl

theorem recordOf_doubled {parse : Parse} (field : Text) (hstate : parse.state = .inQuotedField)
    (hlength : parse.length + field.length ≤ FIELD_LIMIT) (htext : text ≠ []) :
    recordOf parse (cut (doubled field ++ text)) =
      recordOf (parse.grown field .inQuotedField) (cut text) := by
  induction field generalizing parse with
  | nil => simp [doubled, grown, ← hstate]
  | cons c field ih =>
    have hdoubled : doubled (c :: field) =
        (if c = QUOTE then [QUOTE, QUOTE] else [c]) ++ doubled field := rfl
    have hadd : parse.add c = .ok (parse.grown [c] parse.state) :=
      add_eq c (by simp only [List.length_cons] at hlength; omega)
    have hmore := @ih (parse.grown [c] .inQuotedField) rfl
      (by simp only [length_grown, List.length_cons, List.length_nil] at hlength ⊢; omega)
    rw [grown_grown] at hmore
    rw [hdoubled, List.append_assoc]
    split_ifs with hc
    · subst hc
      have hfirst : parse.step (some QUOTE) = .ok (parse.enter .quoteInQuotedField) := by
        rw [Parse.step, hstate]
        rfl
      have hsecond : (parse.enter .quoteInQuotedField).step (some QUOTE) =
          .ok (parse.grown [QUOTE] .inQuotedField) := by
        change ((parse.enter .quoteInQuotedField).add QUOTE).map _ = _
        rw [add_eq QUOTE (by simp only [List.length_cons] at hlength; exact lt_of_lt_of_le (by simp [enter]) hlength)]
        rfl
      have hplain : ¬(QUOTE = '\n' ∨ QUOTE = '\r' ∧ (doubled field ++ text).head? ≠ some '\n') := by
        simp [QUOTE]
      have hplain' : ¬(QUOTE = '\n' ∨
          QUOTE = '\r' ∧ (QUOTE :: (doubled field ++ text)).head? ≠ some '\n') := by
        simp [QUOTE]
      change recordOf parse (cut (QUOTE :: QUOTE :: (doubled field ++ text))) = _
      rw [recordOf_char hplain' (by simp) hfirst, recordOf_char hplain (by simp [htext]) hsecond]
      exact hmore
    · have hstep : parse.step (some c) = .ok (parse.grown [c] .inQuotedField) := by
        rw [Parse.step, hstate]
        dsimp only [inQuoted]
        rw [if_neg hc, hadd, hstate]
      rw [List.cons_append, recordOf_quoted (by simp [htext]) hstep rfl]
      exact hmore

/-- A field as it is written, up to what ends it. -/
theorem recordOf_field {parse : Parse} (h : parse.Starts) {field : Text}
    (hlength : field.length ≤ FIELD_LIMIT) (htext : text ≠ []) :
    ∃ parse', recordOf parse (cut (excelField field ++ text)) = recordOf parse' (cut text) ∧
      parse'.Holds parse.fields field ∧
      (parse'.state = .startRecord → parse.state = .startRecord ∧ field = []) := by
  unfold excelField
  split_ifs with hquotes
  · have hopen : parse.step (some QUOTE) = .ok (parse.enter .inQuotedField) := by
      rw [h.step (by decide) (by decide)]
      rfl
    have hclose : ((parse.enter .inQuotedField).grown field .inQuotedField).step (some QUOTE) =
        .ok (parse.grown field .quoteInQuotedField) := rfl
    have hplain : ∀ text : Text, ¬(QUOTE = '\n' ∨ QUOTE = '\r' ∧ text.head? ≠ some '\n') := by
      simp [QUOTE]
    refine ⟨parse.grown field .quoteInQuotedField, ?_, ⟨rfl, ?_, by simp⟩, by simp⟩
    · rw [List.cons_append, List.cons_append, List.append_assoc,
        recordOf_char (hplain _) (by simp) hopen,
        recordOf_doubled field rfl (by simpa [enter, h.length_eq] using hlength) (by simp),
        List.singleton_append, recordOf_char (hplain _) htext hclose]
    · simp [grown, h.field_eq]
  · rw [Bool.not_eq_true] at hquotes
    cases field with
    | nil =>
      have hstate := h.state_eq
      exact ⟨parse, rfl, ⟨rfl, h.field_eq, by tauto⟩, by simp⟩
    | cons c field =>
      have hchars := hquotes
      simp only [needsQuotes, List.any_cons, Bool.or_eq_false_iff, decide_eq_false_iff_not]
        at hchars
      obtain ⟨⟨⟨⟨hdelimiter, hquote⟩, hr⟩, hn⟩, hfield⟩ := hchars
      have hstep : parse.step (some c) = .ok (parse.grown [c] .inField) := by
        rw [h.step hn hr, startField, if_neg (by tauto), if_neg hquote, if_neg hdelimiter,
          add_eq c (by simp [enter, h.length_eq, FIELD_LIMIT])]
        rfl
      rw [List.length_cons] at hlength
      refine ⟨parse.grown (c :: field) .inField, ?_, ⟨rfl, ?_, by simp⟩, by simp⟩
      · rw [List.cons_append, recordOf_char (by tauto) (by simp [htext]) hstep,
          recordOf_plain rfl hfield (by simp [h.length_eq]; omega) htext, grown_grown]
        rfl
      · simp [grown, h.field_eq]

/-- The fields of a record as they are written, up to the end of its last line. -/
theorem recordOf_fields {parse : Parse} (h : parse.Starts) {fields : List Text} (hne : fields ≠ [])
    (hlength : ∀ field ∈ fields, field.length ≤ FIELD_LIMIT)
    (hblank : parse.state = .startRecord → fields ≠ [[]]) (text : Text) :
    recordOf parse (cut ([DELIMITER].intercalate (fields.map excelField) ++ ('\r' :: '\n' :: text))) =
      (some (.ok (parse.fields ++ fields)), cut text) := by
  induction fields generalizing parse with
  | nil => exact absurd rfl hne
  | cons field fields ih =>
    have hfield := hlength field List.mem_cons_self
    by_cases hfields : fields = []
    · subst hfields
      obtain ⟨parse', hread, hholds, hstart⟩ :=
        recordOf_field h hfield (List.cons_ne_nil '\r' ('\n' :: text))
      have hstate : parse'.state ≠ .startRecord := by
        intro hstate
        obtain ⟨hrecord, rfl⟩ := hstart hstate
        exact hblank hrecord rfl
      simp only [List.map_cons, List.map_nil, List.intercalate_singleton]
      rw [hread, cut_crlf, recordOf, hholds.crlf, if_neg hstate]
      rfl
    · have hmap : fields.map excelField ≠ [] := by simpa using hfields
      rw [List.map_cons, List.intercalate_cons_of_ne_nil hmap, List.append_assoc, List.append_assoc]
      have hmore : [DELIMITER] ++
          ([DELIMITER].intercalate (fields.map excelField) ++ '\r' :: '\n' :: text) ≠ [] :=
        List.cons_ne_nil _ _
      obtain ⟨parse', hread, hholds, -⟩ := recordOf_field h hfield hmore
      rw [hread, List.singleton_append,
        recordOf_char (by simp [DELIMITER]) (by simp) hholds.delimiter,
        ih ⟨.inl rfl, rfl, rfl⟩ hfields (fun field h => hlength field (List.mem_cons_of_mem _ h))
          (by simp), List.append_assoc, List.singleton_append]

/-- How a record is read back: a record of one empty field is written as a blank line. -/
def readBack (fields : List Text) : List Text := if fields = [[]] then [] else fields

theorem recordOf_excelRow {fields : List Text}
    (hlength : ∀ field ∈ fields, field.length ≤ FIELD_LIMIT) (text : Text) :
    recordOf {} (cut (excelRow fields ++ text)) = (some (.ok (readBack fields)), cut text) := by
  have hstarts : Starts {} := ⟨.inr rfl, rfl, rfl⟩
  have hblank : recordOf {} (cut ('\r' :: '\n' :: text)) = (some (.ok []), cut text) := by
    rw [cut_crlf]
    rfl
  unfold excelRow readBack
  split_ifs with hfields
  · subst hfields
    exact hblank
  · rw [List.append_assoc]
    by_cases hnil : fields = []
    · subst hnil
      exact hblank
    · exact recordOf_fields hstarts hnil hlength (fun _ => hfields) text

/-! ## The file -/

/-- The records that a reader gives, up to the first time that there is none. -/
inductive Reader.Records (chunk : Nat) : Reader → List (List Text) → Prop where
  | done {reader after : Reader} (h : reader.nextRecord chunk = (none, after)) :
    Records chunk reader []
  | more {reader after : Reader} {fields : List Text} {records : List (List Text)}
    (h : reader.nextRecord chunk = (some (.ok fields), after))
    (hafter : Records chunk after records) : Records chunk reader (fields :: records)

theorem records_of_yields {chunk : Nat} {reader : Reader} {records : List (List Text)}
    (hlength : ∀ fields ∈ records, ∀ field ∈ fields, field.length ≤ FIELD_LIMIT)
    (h : Lines.Yields chunk reader.lines ((cut (records.flatMap excelRow)).map .ok)) :
    Reader.Records chunk reader (records.map readBack) := by
  induction records generalizing reader with
  | nil =>
    obtain ⟨after, hnext, -⟩ := recordFrom_eq {} h
    exact .done hnext
  | cons fields records ih =>
    obtain ⟨after, hnext, hafter⟩ := recordFrom_eq {} h
    rw [List.flatMap_cons, recordOf_excelRow (hlength fields List.mem_cons_self)] at hnext hafter
    exact .more hnext (ih (fun fields h => hlength fields (List.mem_cons_of_mem _ h)) hafter)

/-- The records of a written file are read back, however it falls into chunks: their fields may hold
quotes, delimiters and line endings of any kind, but not more than `FIELD_LIMIT` characters. -/
theorem records_of_file {chunk : Nat} (hchunk : 0 < chunk) {records : List (List Text)}
    (hlength : ∀ fields ∈ records, ∀ field ∈ fields, field.length ≤ FIELD_LIMIT) :
    Reader.Records chunk { lines := { rest := utf8 (records.flatMap excelRow) } }
      (records.map readBack) := by
  apply records_of_yields hlength
  have hbytes : utf8 (records.flatMap excelRow) = utf8 (records.flatMap excelRow) ++ [] :=
    (List.append_nil _).symm
  have h := (Lines.reads_new hbytes firstChar_nil).yields hchunk
  simpa using h

theorem records_of_quoted_file : Reader.Records 2
    { lines := { rest := utf8 ([["id".toList, "\"so\"\r\n,".toList], [[]]].flatMap excelRow) } }
    [["id".toList, "\"so\"\r\n,".toList], []] :=
  records_of_file (by decide) (by simp [FIELD_LIMIT])

end Agentless.Hook.Csv
