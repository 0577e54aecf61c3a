import Agentless.Io.Decode

/-!
# The labeling file

A CSV file in the excel dialect: the writer of one record, and a reader that decodes a file chunk by
chunk, cuts the text into lines that keep their endings, and reads the fields of a record character
by character over as many lines as its quotes take.
-/

namespace Agentless.Hook.Csv

open Io.Decode

/-- How many bytes are decoded at a time. -/
def CHUNK : Nat := 8192

def FIELD_LIMIT : Nat := 131072

def QUOTE : Char := '"'

def DELIMITER : Char := ','

/-! ## Writing -/

def needsQuotes (field : Text) : Bool :=
  field.any fun c => c = DELIMITER || c = QUOTE || c = '\r' || c = '\n'

/-- The field with each quote doubled. -/
def doubled (field : Text) : Text := field.flatMap fun c => if c = QUOTE then [QUOTE, QUOTE] else [c]

def excelField (field : Text) : Text :=
  if needsQuotes field then QUOTE :: doubled field ++ [QUOTE] else field

/-- One record, which ends with CRLF. -/
def excelRow (fields : List Text) : Text :=
  [DELIMITER].intercalate (fields.map excelField) ++ ['\r', '\n']

/-! ## Lines -/

/-- The lines of a file. `rest` is what is not decoded yet, `pending` the beginning of a character
that a chunk ended in, and `heldCr` a CR at the end of a chunk's text, which waits for the next
chunk. -/
structure Lines where
  rest : Bytes
  pending : Bytes := []
  text : Text := []
  heldCr : Bool := false
  ended : Bool := false
  failed : Bool := false
deriving DecidableEq, Repr

/-- The end of the first line: after LF, after CRLF, or after a CR that no LF follows. -/
def lineEnd (text : Text) : Option Nat :=
  (text.findIdx? fun c => c = '\r' || c = '\n').map fun at_ =>
    if "\r\n".toList.isPrefixOf (text.drop at_) then at_ + 2 else at_ + 1

/-- The text of the bytes, or the text of the decode error. -/
def decoded (bytes : Bytes) : Except Text Text :=
  match decodeStrict bytes with
  | .ok text => .ok text
  | .error error => .error (codecText bytes error)

/-- The text of the data up to a character that the next chunk can complete, which stays. At the
last chunk every character must be complete. -/
def incremental (data : Bytes) (last : Bool) : Except Text (Text × Bytes) :=
  let read := readUtf8 data
  if read.rest = [] then .ok (read.text, [])
  else if unfinished read.rest ∧ last = false then .ok (read.text, read.rest)
  else (decoded data).map (·, [])

theorem incremental_eq (text : Text) {tail : Bytes} (h : firstChar tail = none) (last : Bool) :
    incremental (utf8 text ++ tail) last =
      if tail = [] ∨ unfinished tail ∧ last = false then .ok (text, tail)
      else .error (codecText (utf8 text ++ tail) (notUtf8 (utf8 text ++ tail))) := by
  have hread : readUtf8 (utf8 text ++ tail) = ⟨text, tail⟩ := by
    rw [readUtf8_append, readUtf8_none h, List.append_nil]
  simp only [incremental, hread]
  by_cases htail : tail = []
  · simp [htail]
  · rw [if_neg htail]
    simp only [htail, false_or]
    split_ifs
    · rfl
    · rw [decoded, decodeStrict_bad (by simpa [hread] using htail)]
      rfl

theorem eq_of_incremental {data pending : Bytes} {last : Bool} {text : Text}
    (h : incremental data last = .ok (text, pending)) : data = utf8 text ++ pending := by
  obtain ⟨hdata, hfirst⟩ := readUtf8_spec data
  rw [hdata, incremental_eq _ hfirst] at h
  split_ifs at h
  grind

/-- A CR that waits, as text. -/
def crOf (held : Bool) : Text := if held then ['\r'] else []

/-- The text of a chunk with the CR that waited for it, up to a CR that waits for the next one. -/
def release (last heldCr : Bool) (text : Text) : Text × Bool :=
  let released := heldCr && (last || !text.isEmpty)
  let text := if released then '\r' :: text else text
  let held := !last && text.getLast? = some '\r'
  (if held then text.dropLast else text, held || heldCr && !released)

/-- No CR is lost and none is added. -/
theorem release_eq (last heldCr : Bool) (text : Text) :
    (release last heldCr text).1 ++ crOf (release last heldCr text).2 = crOf heldCr ++ text := by
  have hkeep : ∀ text : Text, text.getLast? = some '\r' → text.dropLast ++ ['\r'] = text :=
    fun text h => List.dropLast_append_getLast? _ h
  unfold release crOf
  cases last <;> cases heldCr <;> cases text <;> grind

theorem release_cr {last heldCr : Bool} {text : Text} (h : (release last heldCr text).2 = false) :
    last = true ∨ (release last heldCr text).1.getLast? ≠ some '\r' := by
  unfold release at h ⊢
  grind

namespace Lines

section Next

variable (chunk : Nat)

/-- The lines with the text of the next chunk, or the error of its decoding. -/
def decodeChunk (lines : Lines) : Except Text Lines :=
  let bytes := lines.rest.take chunk
  let last := bytes.isEmpty
  (incremental (lines.pending ++ bytes) last).map fun (text, pending) =>
    let released := release last lines.heldCr text
    { lines with
      rest := lines.rest.drop chunk
      pending := pending
      text := lines.text ++ released.1
      heldCr := released.2
      ended := last }

/-- How many bytes and characters are still to be read, an upper bound on the lines. -/
def size (lines : Lines) : Nat :=
  lines.rest.length + lines.pending.length + lines.text.length + lines.heldCr.toNat

theorem exists_of_decodeChunk {chunk : Nat} {lines after : Lines}
    (h : decodeChunk chunk lines = .ok after) :
    after.rest = lines.rest.drop chunk ∧ after.ended = (lines.rest.take chunk).isEmpty ∧
      after.size ≤ lines.size := by
  unfold decodeChunk at h
  cases hread : incremental (lines.pending ++ lines.rest.take chunk)
    (lines.rest.take chunk).isEmpty with
  | error message => simp [hread, Except.map] at h
  | ok read =>
    simp only [hread, Except.map, Except.ok.injEq] at h
    refine ⟨by rw [← h], by rw [← h], ?_⟩
    have hdata := congrArg List.length (eq_of_incremental hread)
    have hle := length_le_utf8 read.1
    have hlength := congrArg List.length (List.take_append_drop chunk lines.rest)
    rw [← h]
    simp only [List.length_append] at hdata hlength
    simp only [size, List.length_append]
    have hkept := congrArg List.length
      (release_eq (lines.rest.take chunk).isEmpty lines.heldCr read.1)
    have hcr : ∀ held, (crOf held).length = held.toNat := by decide
    simp only [List.length_append, hcr] at hkept
    omega

/-- The next line or the error of the chunk that it needs. After an error there is no line. -/
def next (lines : Lines) : Option (Except Text Text) × Lines :=
  match lineEnd lines.text with
  | some stop =>
    (some (.ok (lines.text.take stop)), { lines with text := lines.text.drop stop })
  | none =>
    if lines.failed then (none, lines)
    else if lines.ended then
      (if lines.text = [] then none else some (.ok lines.text), { lines with text := [] })
    else
      match _h : decodeChunk chunk lines with
      | .error message =>
        (some (.error message), { lines with rest := lines.rest.drop chunk, pending := [], failed := true })
      | .ok after => after.next
termination_by if lines.ended then 0 else lines.rest.length + 1
decreasing_by
  obtain ⟨hrest, hended, -⟩ := exists_of_decodeChunk _h
  simp_all only [Bool.false_eq_true, if_false]
  by_cases hlast : (lines.rest.take chunk).isEmpty
  · simp [hlast]
  · rw [if_neg hlast, List.length_drop]
    simp only [List.isEmpty_iff, List.take_eq_nil_iff, not_or] at hlast
    have := List.length_pos_iff.mpr hlast.2
    omega

end Next

theorem lineEnd_pos {text : Text} {stop : Nat} (h : lineEnd text = some stop) :
    0 < stop ∧ text ≠ [] := by
  unfold lineEnd at h
  obtain ⟨at_, hat, hstop⟩ := Option.map_eq_some_iff.mp h
  constructor
  · split_ifs at hstop <;> omega
  · rintro rfl
    simp at hat

theorem size_next_le (chunk : Nat) (lines : Lines) : (lines.next chunk).2.size ≤ lines.size := by
  fun_induction next chunk lines with
  | case1 => simp [size]
  | case2 => exact Nat.le_refl _
  | case3 => simp [size]
  | case4 =>
    simp only [size, List.length_drop, List.length_nil]
    omega
  | case5 lines hend hfailed hended after hafter ih =>
    exact ih.trans (exists_of_decodeChunk hafter).2.2

/-- Every line takes some of what is still to be read. -/
theorem size_next {chunk : Nat} {lines after : Lines} {line : Text}
    (h : lines.next chunk = (some (.ok line), after)) : after.size < lines.size := by
  fun_induction next chunk lines with
  | case1 lines stop hstop =>
    obtain ⟨hpos, hne⟩ := lineEnd_pos hstop
    have := List.length_pos_iff.mpr hne
    obtain ⟨-, rfl⟩ := Prod.mk.inj h
    simp only [size, List.length_drop]
    omega
  | case2 => simp at h
  | case3 lines hend hfailed hended =>
    obtain ⟨hline, rfl⟩ := Prod.mk.inj h
    split_ifs at hline with hne
    have := List.length_pos_iff.mpr hne
    simp only [size, List.length_nil]
    omega
  | case4 => simp at h
  | case5 lines hend hfailed hended after' hafter ih =>
    exact (ih h).trans_le (exists_of_decodeChunk hafter).2.2

end Lines

/-! ## Records -/

inductive State where
  | startRecord | startField | inField | inQuotedField | quoteInQuotedField | eatCrnl
deriving DecidableEq, Repr

/-- One record being parsed. -/
structure Parse where
  fields : List Text := []
  field : Text := []
  length : Nat := 0
  state : State := .startRecord
deriving DecidableEq, Repr

namespace Parse

variable (parse : Parse)

def add (c : Char) : Except Text Parse :=
  if FIELD_LIMIT ≤ parse.length then
    .error ("field larger than field limit (".toList ++ Nat.toDigits 10 FIELD_LIMIT ++ ")".toList)
  else .ok { parse with field := parse.field ++ [c], length := parse.length + 1 }

def save : Parse := { parse with fields := parse.fields ++ [parse.field], field := [], length := 0 }

def enter (state : State) : Parse := { parse with state := state }

/-- Saves the field at a line end, then waits for a record or for the rest of the line ending. -/
def endRecord (c : Option Char) : Parse :=
  parse.save.enter (if c.isNone then .startRecord else .eatCrnl)

def startField (c : Option Char) : Except Text Parse :=
  match c with
  | none => .ok (parse.endRecord c)
  | some c' =>
    if c' = '\n' ∨ c' = '\r' then .ok (parse.endRecord c)
    else if c' = QUOTE then .ok (parse.enter .inQuotedField)
    else if c' = DELIMITER then .ok parse.save
    else (parse.add c').map (·.enter .inField)

def startRecord (c : Option Char) : Except Text Parse :=
  match c with
  | none => .ok parse
  | some c' =>
    if c' = '\n' ∨ c' = '\r' then .ok (parse.enter .eatCrnl)
    else (parse.enter .startField).startField c

def inField (c : Option Char) : Except Text Parse :=
  match c with
  | none => .ok (parse.endRecord c)
  | some c' =>
    if c' = '\n' ∨ c' = '\r' then .ok (parse.endRecord c)
    else if c' = DELIMITER then .ok (parse.save.enter .startField)
    else parse.add c'

def inQuoted (c : Option Char) : Except Text Parse :=
  match c with
  | none => .ok parse
  | some c' => if c' = QUOTE then .ok (parse.enter .quoteInQuotedField) else parse.add c'

/-- A quote in a quoted field: a doubled quote, the field's end, or more text. -/
def quoteInQuoted (c : Option Char) : Except Text Parse :=
  match c with
  | none => .ok (parse.endRecord c)
  | some c' =>
    if c' = QUOTE then (parse.add QUOTE).map (·.enter .inQuotedField)
    else if c' = DELIMITER then .ok (parse.save.enter .startField)
    else if c' = '\n' ∨ c' = '\r' then .ok (parse.endRecord c)
    else (parse.add c').map (·.enter .inField)

def eatCrnl (c : Option Char) : Except Text Parse :=
  match c with
  | none => .ok (parse.enter .startRecord)
  | some c' =>
    if c' = '\n' ∨ c' = '\r' then .ok parse
    else .error ("new-line character seen in unquoted field - do you need to open the file " ++
      "with newline=''?").toList

/-- One character of a line, or the end of the line. -/
def step (c : Option Char) : Except Text Parse :=
  match parse.state with
  | .startRecord => parse.startRecord c
  | .startField => parse.startField c
  | .inField => parse.inField c
  | .inQuotedField => parse.inQuoted c
  | .quoteInQuotedField => parse.quoteInQuoted c
  | .eatCrnl => parse.eatCrnl c

def line (line : Text) : Except Text Parse :=
  (line.map some ++ [none]).foldlM step parse

/-- The input ended inside a record: a quoted field or a field with text is saved, else there is no
record. -/
def atEnd : Option (Except Text (List Text)) :=
  if parse.length = 0 ∧ parse.state ≠ .inQuotedField then none else some (.ok parse.save.fields)

end Parse

/-! ## Rows -/

/-- The records of a file, and the count of lines read so far. -/
structure Reader where
  lines : Lines
  lineNum : Nat := 0
deriving DecidableEq, Repr

namespace Reader

variable (chunk : Nat)

def recordFrom (reader : Reader) (parse : Parse) : Option (Except Text (List Text)) × Reader :=
  match _h : reader.lines.next chunk with
  | (none, lines) => (parse.atEnd, { reader with lines := lines })
  | (some (.error message), lines) => (some (.error message), { reader with lines := lines })
  | (some (.ok line), lines) =>
    let after : Reader := ⟨lines, reader.lineNum + 1⟩
    match parse.line line with
    | .error message => (some (.error message), after)
    | .ok parse =>
      if parse.state = .startRecord then (some (.ok parse.fields), after)
      else after.recordFrom parse
termination_by reader.lines.size
decreasing_by exact Lines.size_next _h

def nextRecord (reader : Reader) : Option (Except Text (List Text)) × Reader :=
  reader.recordFrom chunk {}

theorem size_recordFrom_le (chunk : Nat) (reader : Reader) (parse : Parse) :
    (reader.recordFrom chunk parse).2.lines.size ≤ reader.lines.size := by
  have hle (reader : Reader) {item lines} (h : reader.lines.next chunk = (item, lines)) :
      lines.size ≤ reader.lines.size := by
    have hnext := Lines.size_next_le chunk reader.lines
    rwa [h] at hnext
  fun_induction recordFrom chunk reader parse with
  | case1 reader parse lines hlines => exact hle reader hlines
  | case2 reader parse message lines hlines => exact hle reader hlines
  | case3 reader parse line lines hlines after' message hline => exact hle reader hlines
  | case4 reader parse line lines hlines after' parse' hline hstate => exact hle reader hlines
  | case5 reader parse line lines hlines after' parse' hline hstate ih =>
    exact ih.trans (hle reader hlines)

theorem size_nextRecord {chunk : Nat} {reader after : Reader} {fields : List Text}
    (h : reader.nextRecord chunk = (some (.ok fields), after)) :
    after.lines.size < reader.lines.size := by
  unfold nextRecord at h
  rw [recordFrom] at h
  split at h
  · simp [Parse.atEnd] at h
  · simp at h
  · rename_i line lines hlines
    have hsize := Lines.size_next hlines
    dsimp only at h
    split at h
    · simp at h
    · split_ifs at h
      · obtain ⟨-, rfl⟩ := Prod.mk.inj h
        exact hsize
      · have hle := size_recordFrom_le chunk ⟨lines, reader.lineNum + 1⟩ ‹_›
        rw [h] at hle
        exact hle.trans_lt hsize

/-- The next record that is not blank. -/
def nextFilled (reader : Reader) : Option (Except Text (List Text)) × Reader :=
  match _h : reader.nextRecord chunk with
  | (some (.ok []), after) => after.nextFilled
  | (record, after) => (record, after)
termination_by reader.lines.size
decreasing_by exact size_nextRecord _h

theorem size_nextFilled {chunk : Nat} {reader after : Reader} {fields : List Text}
    (h : reader.nextFilled chunk = (some (.ok fields), after)) :
    after.lines.size < reader.lines.size := by
  fun_induction nextFilled chunk reader with
  | case1 reader after' hrecord ih => exact (ih h).trans (size_nextRecord hrecord)
  | case2 reader record after' hrecord hread =>
    rw [h] at hread
    exact size_nextRecord hread

end Reader

/-- One value of a row read by name. -/
inductive Cell where
  | text (text : Text)
  | missing
  | rest (columns : List Text)
deriving DecidableEq, Repr

/-- A row by name, in first-seen order. No name is that of the columns past the header. -/
abbrev Row := List (Option Text × Cell)

def set : Row → Option Text → Cell → Row
  | [], name, cell => [(name, cell)]
  | (key, slot) :: row, name, cell =>
    if key = name then (key, cell) :: row else (key, slot) :: set row name cell

/-- A later column of a repeated name replaces the value, and keeps the first position. -/
def byName (names record : List Text) : Row :=
  let rest := record.drop names.length
  let named := (names.zip record).foldl (fun row (name, value) => set row name (.text value)) []
  let spread := if rest = [] then named else set named none (.rest rest)
  (names.drop record.length).foldl (fun row name => set row name .missing) spread

/-- The rows of a file by the names of its first record. -/
structure DictReader where
  reader : Reader
  fieldnames : Option (List Text) := none
  readHeader : Bool := false
deriving DecidableEq, Repr

namespace DictReader

variable (chunk : Nat)

def new (bytes : Bytes) : DictReader := { reader := { lines := { rest := bytes } } }

/-- The reader with its first record read. -/
def header (dict : DictReader) : Except Text Unit × DictReader :=
  if dict.readHeader then (.ok (), dict)
  else
    match dict.reader.nextRecord chunk with
    | (none, reader) => (.ok (), ⟨reader, none, true⟩)
    | (some (.ok names), reader) => (.ok (), ⟨reader, some names, true⟩)
    | (some (.error message), reader) => (.error message, ⟨reader, dict.fieldnames, true⟩)

theorem readHeader_header {chunk : Nat} {dict after : DictReader} {read : Except Text Unit}
    (h : dict.header chunk = (read, after)) : after.readHeader = true := by
  unfold header at h
  split_ifs at h with hread
  · obtain ⟨-, rfl⟩ := Prod.mk.inj h
    exact hread
  · split at h <;> (obtain ⟨-, rfl⟩ := Prod.mk.inj h; rfl)

def nextRow (dict : DictReader) : Option (Except Text Row) × DictReader :=
  match dict.header chunk with
  | (.error message, dict) => (some (.error message), dict)
  | (.ok (), dict) =>
    match dict.reader.nextFilled chunk with
    | (none, reader) => (none, { dict with reader := reader })
    | (some record, reader) =>
      (dict.fieldnames.map fun names => record.map (byName names), { dict with reader := reader })

theorem size_nextRow {chunk : Nat} {dict after : DictReader} {row : Row}
    (hheader : dict.readHeader = true) (h : dict.nextRow chunk = (some (.ok row), after)) :
    after.reader.lines.size < dict.reader.lines.size ∧ after.readHeader = true := by
  unfold nextRow at h
  rw [header, if_pos hheader] at h
  dsimp only at h
  split at h
  · simp at h
  · rename_i record reader hfilled
    obtain ⟨hrow, rfl⟩ := Prod.mk.inj h
    obtain ⟨names, -, hrow⟩ := Option.map_eq_some_iff.mp hrow
    cases record with
    | error message => simp [Except.map] at hrow
    | ok fields => exact ⟨Reader.size_nextFilled hfilled, hheader⟩

end DictReader

end Agentless.Hook.Csv
