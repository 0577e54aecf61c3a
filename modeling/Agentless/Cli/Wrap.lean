import Agentless.Library.Boundary

/-!
# Line filling of help text

A text is split into chunks: runs of spaces, runs of dashes between words, and words that end at a
space, before such a run or after a hyphen between letters. Lines are filled greedily with chunks,
and a word longer than a line is broken after its last hyphen that fits. The texts are ASCII, so a
byte is a character.
-/

namespace Agentless.Cli.Wrap

structure Range where
  start : Nat
  stop : Nat
deriving DecidableEq, Repr

def Range.len (range : Range) : Nat := range.stop - range.start

def isAsciiSpace (byte : UInt8) : Bool := [0x09, 0x0a, 0x0b, 0x0c, 0x0d, 0x20].contains byte

def isLetter (byte : UInt8) : Bool :=
  (0x41 ≤ byte && byte ≤ 0x5a) || (0x61 ≤ byte && byte ≤ 0x7a) || byte == 0x5f

def isWord (byte : UInt8) : Bool := isLetter byte || (0x30 ≤ byte && byte ≤ 0x39)

/-- A word byte, or one of `!"'&.,?`. -/
def isPunct (byte : UInt8) : Bool :=
  isWord byte || [0x21, 0x22, 0x27, 0x26, 0x2e, 0x2c, 0x3f].contains byte

def isHyphen (byte : UInt8) : Bool := byte == 0x2d

section Splitting

variable (text : List UInt8)

/-- The byte at a place passes a check. -/
def holdsAt (check : UInt8 → Bool) (place : Nat) : Bool := text[place]?.any check

def dashes (start : Nat) : Nat := ((text.drop start).takeWhile isHyphen).length

def dashesThenWord (start : Nat) : Bool :=
  decide (2 ≤ dashes text start) && holdsAt text isWord (start + dashes text start)

/-- Two letters, or a letter, a hyphen and a letter, end just before a place. -/
def lettersBefore (place : Nat) : Bool :=
  let letter back := decide (back ≤ place) && holdsAt text isLetter (place - back)
  let hyphen := decide (2 ≤ place) && holdsAt text isHyphen (place - 2)
  (letter 2 && letter 1) || (letter 3 && hyphen && letter 1)

/-- A letter, an optional hyphen and a letter start just after a place. -/
def lettersAfter (place : Nat) : Bool :=
  let letter offset := holdsAt text isLetter (place + offset)
  letter 1 && (letter 2 || (holdsAt text isHyphen (place + 2) && letter 3))

/-- The end of a word that is closed at a place, if it is. -/
def closedAt (place : Nat) : Option Nat :=
  if holdsAt text isHyphen place && lettersBefore text place && lettersAfter text place then
    some (place + 1)
  else if holdsAt text isAsciiSpace place ||
      (holdsAt text isPunct (place - 1) && dashesThenWord text place) then
    some place
  else none

def wordEnd (start : Nat) : Nat :=
  ((List.range' (start + 1) (text.length - (start + 1))).findSome? (closedAt text)).getD text.length

/-- Two or more dashes after word punctuation and before a word byte. -/
def dashRun (start : Nat) : Option Nat :=
  if decide (1 ≤ start) && holdsAt text isPunct (start - 1) && dashesThenWord text start then
    some (start + dashes text start)
  else none

/-- Where the chunk that starts at a place ends. -/
def chunkEnd (start : Nat) : Nat :=
  if holdsAt text isAsciiSpace start then
    start + ((text.drop start).takeWhile isAsciiSpace).length
  else (dashRun text start).getD (wordEnd text start)

end Splitting

def Blank (bytes : List UInt8) : Prop := ∀ byte ∈ bytes, isAsciiSpace byte = true

def Solid (bytes : List UInt8) : Prop := ∀ byte ∈ bytes, isAsciiSpace byte = false

variable {text : List UInt8} {start stop place width : Nat}

@[simp] theorem blank_nil : Blank [] := by simp [Blank]

@[simp] theorem blank_append {front back : List UInt8} :
    Blank (front ++ back) ↔ Blank front ∧ Blank back := by
  simp [Blank, or_imp, forall_and]

/-- A chunk is a run of spaces, or has none. -/
def Uniform (bytes : List UInt8) : Prop := Blank bytes ∨ Solid bytes

theorem Solid.not_blank {bytes : List UInt8} (h : Solid bytes) (hne : bytes ≠ []) :
    ¬Blank bytes := by
  intro hblank
  obtain ⟨byte, hbyte⟩ := List.exists_mem_of_ne_nil bytes hne
  have hspace := hblank byte hbyte
  rw [h byte hbyte] at hspace
  cases hspace

theorem Uniform.solid {bytes : List UInt8} (h : Uniform bytes) (hblank : ¬Blank bytes) :
    Solid bytes :=
  h.resolve_left hblank

theorem slice_ne_nil (hlt : start < stop) (hle : stop ≤ text.length) :
    slice text start stop ≠ [] := by
  rw [← List.length_pos_iff, length_slice hle]
  omega

theorem getElem_mem_slice (hlt : start < stop) (hle : stop ≤ text.length) :
    text[start] ∈ slice text start stop := by
  have hfirst : (slice text start stop)[0]? = some text[start] := by
    simp [getElem?_slice, hlt]
  exact List.mem_of_getElem? hfirst

theorem getElem?_of_mem_slice {byte : UInt8} (h : byte ∈ slice text start stop) :
    ∃ place, start ≤ place ∧ place < stop ∧ text[place]? = some byte := by
  obtain ⟨i, hi⟩ := List.mem_iff_getElem?.mp h
  rw [getElem?_slice] at hi
  split_ifs at hi with hlt
  exact ⟨start + i, by omega, by omega, hi⟩

theorem solid_slice
    (h : ∀ place, start ≤ place → place < stop → holdsAt text isAsciiSpace place = false) :
    Solid (slice text start stop) := by
  intro byte hbyte
  obtain ⟨place, hstart, hstop, hplace⟩ := getElem?_of_mem_slice hbyte
  simpa [holdsAt, hplace] using h place hstart hstop

theorem slice_takeWhile (check : UInt8 → Bool) :
    slice text start (start + ((text.drop start).takeWhile check).length) =
      (text.drop start).takeWhile check := by
  rw [slice, Nat.add_sub_cancel_left]
  exact (List.prefix_iff_eq_take.mp (List.takeWhile_prefix check)).symm

theorem holdsAt_iff {check : UInt8 → Bool} :
    holdsAt text check place = true ↔ ∃ byte, text[place]? = some byte ∧ check byte = true := by
  simp [holdsAt, Option.any_eq_true]

theorem Blank.holdsAt (h : Blank (slice text start stop)) (hlt : start < stop)
    (hle : stop ≤ text.length) : holdsAt text isAsciiSpace start = true :=
  holdsAt_iff.mpr ⟨_, List.getElem?_eq_getElem (hlt.trans_le hle),
    h _ (getElem_mem_slice hlt hle)⟩

theorem isAsciiSpace_of_isHyphen {byte : UInt8} (h : isHyphen byte = true) :
    isAsciiSpace byte = false := by
  obtain rfl : byte = 0x2d := by simpa [isHyphen] using h
  decide

theorem length_takeWhile_drop_le (text : List UInt8) (start : Nat) (check : UInt8 → Bool) :
    ((text.drop start).takeWhile check).length ≤ text.length - start := by
  have hprefix : (text.drop start).takeWhile check <+: text.drop start :=
    List.takeWhile_prefix check
  simpa using hprefix.length_le

theorem closedAt_eq_some (h : closedAt text place = some stop) :
    place ≤ stop ∧ stop ≤ place + 1 ∧
      (place < stop → holdsAt text isHyphen place = true) := by
  unfold closedAt at h
  split_ifs at h with hhyphen hspace
  · simp only [Bool.and_eq_true] at hhyphen
    cases h
    exact ⟨by omega, le_rfl, fun _ => hhyphen.1.1⟩
  · cases h
    exact ⟨le_rfl, by omega, fun hlt => absurd hlt (lt_irrefl _)⟩

theorem not_space_of_closedAt_eq_none (h : closedAt text place = none) :
    holdsAt text isAsciiSpace place = false := by
  unfold closedAt at h
  split_ifs at h with hhyphen hspace
  simp only [Bool.or_eq_true, not_or, Bool.not_eq_true] at hspace
  exact hspace.1

theorem not_space_of_isHyphen (h : holdsAt text isHyphen place = true) :
    holdsAt text isAsciiSpace place = false := by
  obtain ⟨byte, hbyte, hhyphen⟩ := holdsAt_iff.mp h
  simp [holdsAt, hbyte, isAsciiSpace_of_isHyphen hhyphen]

theorem wordEnd_spec (hlt : start < text.length)
    (hspace : holdsAt text isAsciiSpace start = false) :
    start < wordEnd text start ∧ wordEnd text start ≤ text.length ∧
      Solid (slice text start (wordEnd text start)) := by
  unfold wordEnd
  cases hfound : (List.range' (start + 1) (text.length - (start + 1))).findSome?
      (closedAt text) with
  | none =>
    refine ⟨hlt, le_rfl, solid_slice fun place hstart hstop => ?_⟩
    rcases hstart.eq_or_lt with rfl | hafter
    · exact hspace
    · simp only [Option.getD_none] at hstop
      exact not_space_of_closedAt_eq_none (List.findSome?_eq_none_iff.mp hfound place
        (List.mem_range'_1.mpr ⟨hafter, by omega⟩))
  | some stop =>
    obtain ⟨front, last, back, hrange, hclosed, hopen⟩ := List.findSome?_eq_some_iff.mp hfound
    obtain ⟨count, hcount, rfl, hback⟩ := List.range'_eq_append_iff.mp hrange
    have hlast : last ∈ List.range' (start + 1) (text.length - (start + 1)) := by
      rw [hrange]
      simp
    have hbounds := List.mem_range'_1.mp hlast
    obtain ⟨m, hm⟩ : ∃ m, text.length - (start + 1) - count = m + 1 := by
      refine Nat.exists_eq_add_one_of_ne_zero fun hzero => ?_
      rw [hzero] at hback
      cases hback
    rw [hm, List.range'_succ] at hback
    obtain ⟨rfl, -⟩ := List.cons.inj hback
    obtain ⟨hle, hle', hhyphen⟩ := closedAt_eq_some hclosed
    refine ⟨by simp only [Option.getD_some]; omega, by simp only [Option.getD_some]; omega,
      solid_slice fun place hstart hstop => ?_⟩
    simp only [Option.getD_some] at hstop
    rcases hstart.eq_or_lt with rfl | hafter
    · exact hspace
    · by_cases hbefore : place < start + 1 + count * 1
      · exact not_space_of_closedAt_eq_none
          (hopen place (List.mem_range'_1.mpr ⟨hafter, by omega⟩))
      · -- only the hyphen that closes the word is left
        obtain rfl : place = start + 1 + count * 1 := by omega
        exact not_space_of_isHyphen (hhyphen hstop)

/-- A chunk has a byte, and is a run of spaces or has none. -/
theorem chunkEnd_spec (hlt : start < text.length) :
    start < chunkEnd text start ∧ chunkEnd text start ≤ text.length ∧
      Uniform (slice text start (chunkEnd text start)) := by
  unfold chunkEnd
  split_ifs with hspace
  · have hle := length_takeWhile_drop_le text start isAsciiSpace
    have hpos : 0 < ((text.drop start).takeWhile isAsciiSpace).length := by
      obtain ⟨byte, hbyte, hcheck⟩ := holdsAt_iff.mp hspace
      rw [List.drop_eq_getElem_cons hlt, List.takeWhile_cons_of_pos]
      · simp
      · rw [List.getElem?_eq_getElem hlt, Option.some.injEq] at hbyte
        rwa [hbyte]
    refine ⟨by omega, by omega, .inl ?_⟩
    rw [slice_takeWhile]
    exact fun byte hbyte => List.mem_takeWhile_imp hbyte
  · have hsolid : holdsAt text isAsciiSpace start = false := by simpa using hspace
    cases hrun : dashRun text start with
    | none =>
      obtain ⟨hpos, hle, hword⟩ := wordEnd_spec hlt hsolid
      exact ⟨hpos, hle, .inr hword⟩
    | some stop =>
      unfold dashRun at hrun
      split_ifs at hrun with hdashes
      cases hrun
      simp only [dashesThenWord, Bool.and_eq_true, decide_eq_true_eq] at hdashes
      have hle := length_takeWhile_drop_le text start isHyphen
      simp only [Option.getD_some]
      refine ⟨by omega, by unfold dashes; omega, .inr ?_⟩
      unfold dashes
      rw [slice_takeWhile]
      exact fun byte hbyte => isAsciiSpace_of_isHyphen (List.mem_takeWhile_imp hbyte)

theorem not_space_chunkEnd (hspace : holdsAt text isAsciiSpace start = true) :
    holdsAt text isAsciiSpace (chunkEnd text start) = false := by
  rw [chunkEnd, if_pos hspace]
  have hsplit : (text.drop start).takeWhile isAsciiSpace ++
      (text.drop start).dropWhile isAsciiSpace = text.drop start :=
    List.takeWhile_append_dropWhile
  have hplace : text[start + ((text.drop start).takeWhile isAsciiSpace).length]? =
      ((text.drop start).dropWhile isAsciiSpace).head? := by
    rw [← List.getElem?_drop]
    conv_lhs => rw [← hsplit]
    rw [List.getElem?_append_right (by simp), hsplit, Nat.sub_self, ← List.head?_eq_getElem?]
  have hhead := List.head?_dropWhile_not isAsciiSpace (text.drop start)
  rw [holdsAt, hplace]
  cases hnext : ((text.drop start).dropWhile isAsciiSpace).head? with
  | none => rfl
  | some byte => simpa [hnext] using hhead

section Filling

variable (text : List UInt8) (width : Nat)

/-- The chunks of a text from a place on. -/
def splitFrom (start : Nat) : List Range :=
  if _h : start < text.length then ⟨start, chunkEnd text start⟩ :: splitFrom (chunkEnd text start)
  else []
termination_by text.length - start
decreasing_by
  have hlt := (chunkEnd_spec _h).1
  omega

def split : List Range := splitFrom text 0

def isBlank (chunk : Range) : Bool := (slice text chunk.start chunk.stop).all isAsciiSpace

/-- The place of the last byte of a word that passes a check. -/
def rposition (check : UInt8 → Bool) (word : List UInt8) : Option Nat :=
  (word.reverse.findIdx? check).map (word.length - 1 - ·)

/-- How many bytes of a word longer than a line go into a space that is left: those up to the last
hyphen inside it when another byte precedes that hyphen, else all of them. -/
def headLength (word : List UInt8) (space : Nat) : Nat :=
  match rposition isHyphen (word.take space) with
  | some hyphen =>
    if decide (0 < hyphen) && (word.take hyphen).any (!isHyphen ·) then hyphen + 1 else space
  | none => space

/-- Moves the head of the top chunk that fits in a space into the line. -/
def breakLongWord (top : Range) (line : List Range) (space : Nat) : Range × List Range :=
  if space = 0 then (top, line)
  else
    let stop := top.start + headLength (slice text top.start top.stop) space
    (⟨stop, top.stop⟩, line ++ [⟨top.start, stop⟩])

/-- Takes chunks into a line while they fit: the line, its length and the chunks that are left. -/
def takeFrom (line : List Range) (length : Nat) : List Range → List Range × Nat × List Range
  | [] => (line, length, [])
  | next :: chunks =>
    if width < length + next.len then (line, length, next :: chunks)
    else takeFrom (line ++ [next]) (length + next.len) chunks

/-- Breaks the top chunk when it is longer than a line. -/
def breakTop (line : List Range) (length : Nat) : List Range → List Range × List Range
  | [] => (line, [])
  | top :: chunks =>
    if width < top.len then
      let (top, line) := breakLongWord text top line (width - length)
      (line, top :: chunks)
    else (line, top :: chunks)

/-- A line without a blank chunk at its end. -/
def trimmed (line : List Range) : List Range :=
  if line.getLast?.any (isBlank text) then line.dropLast else line

/-- The bytes of a line. -/
def shown (line : List Range) : Option (List UInt8) :=
  match line.head?, line.getLast? with
  | some first, some last => some (slice text first.start last.stop)
  | _, _ => none

/-- Takes the chunks of one line: the line, if it shows anything, and the chunks that are left. -/
def fillLine (chunks : List Range) : Option (List UInt8) × List Range :=
  let (line, length, chunks) := takeFrom width [] 0 chunks
  let (line, chunks) := breakTop text width line length chunks
  (shown text (trimmed text line), chunks)

/-- The lines of some chunks after those already filled. `none` when the loop has not ended. -/
def wrapFrom : Nat → List Range → List (List UInt8) → Option (List (List UInt8))
  | _, [], lines => some lines
  | 0, _ :: _, _ => none
  | fuel + 1, top :: chunks, lines =>
    let chunks := if !lines.isEmpty && isBlank text top then chunks else top :: chunks
    let (line, chunks) := fillLine text width chunks
    wrapFrom fuel chunks (lines ++ line.toList)

def wrap : Option (List (List UInt8)) := wrapFrom text width text.length (split text) []

end Filling

/-- Of two chunks that follow each other one is no run of spaces. -/
def Apart (text : List UInt8) (last next : Option Range) : Prop :=
  ∀ left ∈ last, ∀ right ∈ next, Blank (slice text left.start left.stop) →
    ¬Blank (slice text right.start right.stop)

/-- The chunks cover a text from a place to its end. -/
inductive Chunked (text : List UInt8) : Nat → List Range → Prop
  | nil : Chunked text text.length []
  | cons {start stop : Nat} {chunks : List Range} (hlt : start < stop) (hle : stop ≤ text.length)
      (huniform : Uniform (slice text start stop))
      (hapart : Apart text (some ⟨start, stop⟩) chunks.head?) (hrest : Chunked text stop chunks) :
      Chunked text start (⟨start, stop⟩ :: chunks)

/-- The chunks of a line cover a text from one place to another. -/
inductive Line (text : List UInt8) (start : Nat) : Nat → List Range → Prop
  | nil : Line text start start []
  | snoc {place stop : Nat} {line : List Range} (hline : Line text start place line)
      (hlt : place < stop) (hle : stop ≤ text.length) (huniform : Uniform (slice text place stop))
      (hapart : Apart text line.getLast? (some ⟨place, stop⟩)) :
      Line text start stop (line ++ [⟨place, stop⟩])

variable {line chunks : List Range}

theorem Chunked.le (h : Chunked text start chunks) : start ≤ text.length := by
  cases h with
  | nil => exact le_rfl
  | cons hlt hle => exact hlt.le.trans hle

theorem Line.le (h : Line text start stop line) : start ≤ stop := by
  induction h with
  | nil => exact le_rfl
  | snoc _ hlt _ _ _ ih => exact ih.trans hlt.le

theorem isBlank_iff {chunk : Range} :
    isBlank text chunk = true ↔ Blank (slice text chunk.start chunk.stop) := by
  simp [isBlank, Blank]

/-- A part of a chunk is blank when the chunk is. -/
theorem Uniform.blank_of_part {part bytes : List UInt8} (h : Uniform bytes)
    (hpart : part ⊆ bytes) (hne : part ≠ []) (hblank : Blank part) : Blank bytes := by
  refine h.resolve_right fun hsolid => ?_
  have hpart' : Solid part := fun byte hbyte => hsolid byte (hpart hbyte)
  exact hpart'.not_blank hne hblank

theorem Uniform.part {part bytes : List UInt8} (h : Uniform bytes) (hpart : part ⊆ bytes) :
    Uniform part :=
  h.imp (fun hblank byte hbyte => hblank byte (hpart hbyte))
    fun hsolid byte hbyte => hsolid byte (hpart hbyte)

/-- The chunks of a text cover it. -/
theorem chunked_splitFrom (hle : start ≤ text.length) :
    Chunked text start (splitFrom text start) := by
  induction h : text.length - start using Nat.strong_induction_on generalizing start with
  | _ size ih =>
    rw [splitFrom]
    split_ifs with hlt
    · obtain ⟨hpos, hend, huniform⟩ := chunkEnd_spec hlt
      refine .cons hpos hend huniform ?_ (ih _ (by omega) hend rfl)
      rintro _ ⟨⟩ next hnext hblank hblank'
      rw [splitFrom] at hnext
      split_ifs at hnext with hafter
      · obtain rfl : next = ⟨chunkEnd text start, chunkEnd text (chunkEnd text start)⟩ := by
          simpa using hnext.symm
        have hspace := hblank.holdsAt hpos hend
        have hspace' := hblank'.holdsAt (chunkEnd_spec hafter).1 (chunkEnd_spec hafter).2.1
        rw [not_space_chunkEnd hspace] at hspace'
        cases hspace'
      · simp at hnext
    · obtain rfl : start = text.length := by omega
      exact .nil

theorem slice_subset {i j : Nat} (hi : start ≤ i) (hij : i ≤ j) (hj : j ≤ stop) :
    slice text i j ⊆ slice text start stop := by
  intro byte hbyte
  rw [← slice_append hi (hij.trans hj), ← slice_append hij hj]
  exact List.mem_append_right _ (List.mem_append_left _ hbyte)

theorem takeFrom_spec (hchunks : Chunked text place chunks) (hline : Line text start place line)
    (hapart : Apart text line.getLast? chunks.head?) (hfits : place - start ≤ width) :
    ∃ stop line' rest, takeFrom width line (place - start) chunks = (line', stop - start, rest) ∧
      Line text start stop line' ∧ Chunked text stop rest ∧
      Apart text line'.getLast? rest.head? ∧ stop - start ≤ width ∧
      (∀ top ∈ rest.head?, width < stop - start + top.len) ∧ place ≤ stop ∧
      ∀ next ∈ chunks.head?, (place - start + next.len ≤ width → next.stop ≤ stop) ∧
        (width < place - start + next.len → stop = place ∧ rest = chunks) := by
  induction hchunks generalizing line with
  | nil => exact ⟨_, line, [], rfl, hline, .nil, hapart, hfits, by simp, le_rfl, by simp⟩
  | @cons place stop chunks hlt hle huniform hnext hrest ih =>
    rw [takeFrom]
    split_ifs with hlong
    · exact ⟨place, line, _, rfl, hline, .cons hlt hle huniform hnext hrest, hapart, hfits,
        by simpa using hlong, le_rfl, by simpa using fun hshort => absurd hlong (by omega)⟩
    · have hlen : place - start + Range.len ⟨place, stop⟩ = stop - start := by
        have := hline.le
        simp only [Range.len]
        omega
      rw [hlen] at hlong ⊢
      obtain ⟨stop', line', rest, htake, hline', hrest', hapart', hfits', hover, hle', -⟩ :=
        ih (.snoc hline hlt hle huniform hapart) (by simpa using hnext) (by omega)
      refine ⟨stop', line', rest, htake, hline', hrest', hapart', hfits', hover,
        hlt.le.trans hle', ?_⟩
      rintro _ ⟨⟩
      rw [hlen]
      exact ⟨fun _ => hle', fun hlong' => absurd hlong' hlong⟩

theorem rposition_eq_some {check : UInt8 → Bool} {word : List UInt8}
    (h : rposition check word = some place) :
    holdsAt word check place = true ∧ place < word.length ∧
      ∀ other, place < other → holdsAt word check other = false := by
  obtain ⟨i, hi, rfl⟩ := Option.map_eq_some_iff.mp h
  obtain ⟨hlt, hcheck, hbefore⟩ := List.findIdx?_eq_some_iff_getElem.mp hi
  rw [List.length_reverse] at hlt
  rw [List.getElem_reverse] at hcheck
  refine ⟨?_, by omega, fun other hother => ?_⟩
  · simpa [holdsAt, show word.length - 1 - i < word.length by omega] using hcheck
  · by_cases hlen : other < word.length
    · have hother' := hbefore (word.length - 1 - other) (by omega)
      rw [List.getElem_reverse] at hother'
      simpa [holdsAt, hlen, show word.length - 1 - (word.length - 1 - other) = other by omega]
        using hother'
    · simp [holdsAt, List.getElem?_eq_none (Nat.le_of_not_lt hlen)]

/-- The head of a word fills the space, or ends with the last hyphen inside it. -/
theorem headLength_cases (word : List UInt8) (space : Nat) :
    headLength word space = space ∨ ∃ hyphen, headLength word space = hyphen + 1 ∧
      hyphen < space ∧ holdsAt word isHyphen hyphen = true ∧
      ∀ other, hyphen < other → other < space → holdsAt word isHyphen other = false := by
  unfold headLength
  cases hfound : rposition isHyphen (word.take space) with
  | none => exact .inl rfl
  | some hyphen =>
    obtain ⟨hholds, hlt, hlast⟩ := rposition_eq_some hfound
    have hspace : hyphen < space := hlt.trans_le (by simp)
    dsimp only
    split_ifs
    · refine .inr ⟨hyphen, rfl, hspace, ?_, fun other hother hlt' => ?_⟩
      · simpa [holdsAt, List.getElem?_take, hspace] using hholds
      · simpa [holdsAt, List.getElem?_take, hlt'] using hlast other hother
    · exact .inl rfl

theorem headLength_bounds (word : List UInt8) {space : Nat} (hspace : 0 < space) :
    0 < headLength word space ∧ headLength word space ≤ space := by
  rcases headLength_cases word space with hall | ⟨hyphen, hlen, hlt, -⟩ <;> omega

/-- The head of what is left of a word would not have fitted in the space behind its first head. -/
theorem lt_headLength_add (word : List UInt8) {space : Nat} (hspace : 0 < space)
    (hle : space ≤ width) :
    space < headLength word space + headLength (word.drop (headLength word space)) width := by
  have hpos := (headLength_bounds (word.drop (headLength word space)) (hspace.trans_le hle)).1
  rcases headLength_cases word space with hall | ⟨hyphen, hlen, hlt, -, hlast⟩
  · omega
  · rcases headLength_cases (word.drop (headLength word space)) width with
      hall' | ⟨hyphen', hlen', -, hholds, -⟩
    · omega
    · by_contra! hfits
      have hhyphen : holdsAt word isHyphen (hyphen + 1 + hyphen') = true := by
        simpa [holdsAt, List.getElem?_drop, hlen] using hholds
      rw [hlast _ (by omega) (by omega)] at hhyphen
      cases hhyphen

theorem drop_slice (count : Nat) :
    (slice text start stop).drop count = slice text (start + count) stop := by
  rw [slice, slice, List.drop_take, List.drop_drop, Nat.sub_sub]

/-- A line from a place on had no room for the next chunk, nor for the head of it that a line of its
own has room for. -/
def Over (text : List UInt8) (width start : Nat) (chunks : List Range) : Prop :=
  ∀ top ∈ chunks.head?, width < top.stop - start ∧
    (width < top.len →
      width < top.start + headLength (slice text top.start top.stop) width - start)

/-- A line that takes what fits of a long chunk is still made of chunks. -/
theorem breakTop_spec (hwidth : 0 < width) (hchunks : Chunked text place chunks)
    (hline : Line text start place line) (hapart : Apart text line.getLast? chunks.head?)
    (hfits : place - start ≤ width)
    (hover : ∀ top ∈ chunks.head?, width < place - start + top.len) :
    ∃ stop line' rest, breakTop text width line (place - start) chunks = (line', rest) ∧
      Line text start stop line' ∧ Chunked text stop rest ∧ stop - start ≤ width ∧
      place ≤ stop ∧ (chunks ≠ [] → start < stop) ∧ Over text width start rest ∧
      ∀ top ∈ chunks.head?, place = start → width < top.len →
        stop = place + headLength (slice text place top.stop) width := by
  cases hchunks with
  | nil => exact ⟨_, line, [], rfl, hline, .nil, hfits, le_rfl, fun h => absurd rfl h,
      by simp [Over], by simp⟩
  | @cons _ stop chunks hlt hle huniform hnext hrest =>
    have hchunks : Chunked text place (⟨place, stop⟩ :: chunks) :=
      .cons hlt hle huniform hnext hrest
    have hle' := hline.le
    have hover' : width < place - start + (stop - place) := hover _ rfl
    unfold breakTop breakLongWord
    simp only [Range.len]
    split_ifs with hlong hspace
    · have hpos := (headLength_bounds (slice text place stop) hwidth).1
      refine ⟨place, line, _, rfl, hline, hchunks, hfits, le_rfl, fun _ => by omega, ?_, ?_⟩
      · rintro _ ⟨⟩
        exact ⟨by dsimp only; omega, fun _ => by dsimp only; omega⟩
      · rintro _ ⟨⟩ hstart
        omega
    · have hspace' := Nat.pos_of_ne_zero hspace
      have hbounds := headLength_bounds (slice text place stop) hspace'
      have hsecond := lt_headLength_add (slice text place stop) hspace'
        (Nat.sub_le width (place - start))
      rw [drop_slice] at hsecond
      set cut := place + headLength (slice text place stop) (width - (place - start)) with hcut
      have hhead : slice text place cut ⊆ slice text place stop :=
        slice_subset le_rfl (by omega) (by omega)
      have htail : slice text cut stop ⊆ slice text place stop :=
        slice_subset (by omega) (by omega) le_rfl
      refine ⟨cut, _, _, rfl, .snoc hline (by omega) (by omega) (huniform.part hhead) ?_,
        .cons (by omega) hle (huniform.part htail) ?_ hrest, by omega, by omega,
        fun _ => by omega, ?_, ?_⟩
      · rintro last hlast _ ⟨⟩ hblank hblank'
        exact hapart last hlast _ rfl hblank
          (huniform.blank_of_part hhead (slice_ne_nil (by omega) (by omega)) hblank')
      · rintro _ ⟨⟩ next hmem hblank
        exact hnext _ rfl next hmem
          (huniform.blank_of_part htail (slice_ne_nil (by omega) hle) hblank)
      · rintro _ ⟨⟩
        exact ⟨by dsimp only; omega, fun _ => by dsimp only; omega⟩
      · rintro _ ⟨⟩ rfl _
        rw [hcut, Nat.sub_self, Nat.sub_zero]
    · refine ⟨place, line, _, rfl, hline, hchunks, hfits, le_rfl, fun _ => by omega, ?_, ?_⟩
      · rintro _ ⟨⟩
        exact ⟨by dsimp only; omega, fun hlong' => absurd hlong' hlong⟩
      · rintro _ ⟨⟩ _ hlong'
        exact absurd hlong' hlong

theorem Line.uniform_getLast? (h : Line text start stop line) :
    ∀ last ∈ line.getLast?, Uniform (slice text last.start last.stop) := by
  cases h with
  | nil => simp
  | snoc _ _ _ huniform _ => simpa using huniform

/-- What is left of a line ends with a chunk that is not blank, and only spaces are left out. -/
theorem Line.trimmed (h : Line text start stop line) :
    ∃ place, Line text start place (trimmed text line) ∧ place ≤ stop ∧
      Blank (slice text place stop) ∧
      ∀ last ∈ (Wrap.trimmed text line).getLast?, Solid (slice text last.start last.stop) := by
  unfold Wrap.trimmed
  cases h with
  | nil => exact ⟨start, by simpa using .nil, le_rfl, by simp, by simp⟩
  | @snoc place _ line hline hlt hle huniform hapart =>
    simp only [List.getLast?_concat, Option.any_some, List.dropLast_concat]
    split_ifs with hblank
    · refine ⟨place, hline, hlt.le, isBlank_iff.mp hblank, fun last hlast => ?_⟩
      exact (hline.uniform_getLast? last hlast).solid fun hblank' =>
        hapart last hlast _ rfl hblank' (isBlank_iff.mp hblank)
    · refine ⟨stop, .snoc hline hlt hle huniform hapart, le_rfl, by simp, fun last hlast => ?_⟩
      obtain rfl : last = ⟨place, stop⟩ := by simpa using hlast.symm
      exact huniform.solid fun hblank' => hblank (isBlank_iff.mpr hblank')

theorem Line.ends (h : Line text start stop line) :
    line = [] ∧ start = stop ∨ ∃ first last, line.head? = some first ∧ line.getLast? = some last ∧
      first.start = start ∧ last.stop = stop ∧ start ≤ last.start ∧ last.start < stop := by
  induction h with
  | nil => exact .inl ⟨rfl, rfl⟩
  | @snoc place stop line hline hlt _ _ _ ih =>
    refine .inr ?_
    rcases ih with ⟨rfl, rfl⟩ | ⟨first, last, hhead, -, hstart, -⟩
    · exact ⟨_, _, rfl, rfl, rfl, rfl, le_rfl, hlt⟩
    · refine ⟨first, _, ?_, List.getLast?_concat .., hstart, rfl, hline.le, hlt⟩
      rw [List.head?_append, hhead, Option.some_or]

/-- A line shows something, is no longer than it may be and ends with no space. -/
structure Filled (width : Nat) (bytes : List UInt8) : Prop where
  ne_nil : bytes ≠ []
  fits : bytes.length ≤ width
  ends : ∀ byte ∈ bytes.getLast?, isAsciiSpace byte = false

theorem shown_spec (h : Line text start stop line) (hstop : stop ≤ text.length)
    (hfits : stop - start ≤ width)
    (hsolid : ∀ last ∈ line.getLast?, Solid (slice text last.start last.stop)) :
    shown text line = none ∧ start = stop ∨
      shown text line = some (slice text start stop) ∧ start < stop ∧
        Filled width (slice text start stop) := by
  unfold shown
  rcases h.ends with ⟨rfl, rfl⟩ | ⟨first, last, hhead, hlast, rfl, rfl, hle, hlt⟩
  · exact .inl ⟨rfl, rfl⟩
  · have hlt' := hle.trans_lt hlt
    refine .inr ⟨by rw [hhead, hlast], hlt', slice_ne_nil hlt' hstop,
      by rwa [length_slice hstop], fun byte hbyte => ?_⟩
    rw [← slice_append hle hlt.le, List.getLast?_append_of_ne_nil _ (slice_ne_nil hlt hstop)]
      at hbyte
    exact hsolid last hlast byte (List.mem_of_getLast? hbyte)

/-- No blank part of a text begins inside a part without spaces. -/
theorem le_of_solid {bound : Nat} (hsolid : Solid (slice text start bound))
    (hblank : Blank (slice text place stop)) (hstart : start ≤ place) (hstop : bound ≤ stop)
    (hlength : bound ≤ text.length) : bound ≤ place := by
  by_contra! hlt
  have hsolid' : Solid (slice text place bound) := fun byte hbyte =>
    hsolid byte (slice_subset hstart hlt.le le_rfl hbyte)
  refine hsolid'.not_blank (slice_ne_nil hlt hlength) fun byte hbyte => ?_
  exact hblank byte (slice_subset le_rfl hlt.le hstop hbyte)

/-- A line up to a place has all of a chunk, or its head when the chunk is longer than a line. -/
def Reaches (text : List UInt8) (width stop : Nat) (chunk : Range) : Prop :=
  (chunk.len ≤ width → chunk.stop ≤ stop) ∧
    (width < chunk.len →
      chunk.start + headLength (slice text chunk.start chunk.stop) width ≤ stop)

theorem Reaches.lt {chunk : Range} (h : Reaches text width stop chunk) (hwidth : 0 < width)
    (hchunk : chunk.start < chunk.stop) : chunk.start < stop := by
  have hpos := (headLength_bounds (slice text chunk.start chunk.stop) hwidth).1
  by_cases hlen : width < chunk.len
  · have hhead := h.2 hlen
    omega
  · exact hchunk.trans_le (h.1 (not_lt.mp hlen))

/-- A line is filled with the bytes from a place on: only spaces up to the next line are left out,
and the line had no room for more. -/
theorem fillLine_spec (hwidth : 0 < width) (hchunks : Chunked text start chunks) :
    ∃ place stop line rest, fillLine text width chunks = (line, rest) ∧
      place ≤ stop ∧ Blank (slice text place stop) ∧ Chunked text stop rest ∧
      Over text width start rest ∧ (chunks ≠ [] → start < stop) ∧
      (∀ top ∈ chunks.head?, Solid (slice text top.start top.stop) → Reaches text width place top) ∧
      (line = none ∧ start = place ∨ line = some (slice text start place) ∧ start < place ∧
        Filled width (slice text start place)) := by
  obtain ⟨taken, line, rest, htake, hline, hrest, hapart, hfits, hover, -, hnext⟩ :=
    takeFrom_spec hchunks .nil (by rintro _ ⟨⟩) (show start - start ≤ width by omega)
  obtain ⟨stop, line', rest', hbreak, hline', hrest', hfits', hbroken, hgrows, hfull, hcut⟩ :=
    breakTop_spec hwidth hrest hline hapart hfits hover
  obtain ⟨place, htrim, hle, hblank, hsolid⟩ := hline'.trimmed
  rw [Nat.sub_self] at htake hnext
  refine ⟨place, stop, _, rest', by simp only [fillLine, htake, hbreak], hle, hblank, hrest', hfull,
    fun hne => ?_, fun top htop htop' => ?_,
    shown_spec htrim (hle.trans hrest'.le) ((Nat.sub_le_sub_right hle start).trans hfits') hsolid⟩
  · by_cases hempty : rest = []
    · -- every chunk was taken
      subst hempty
      cases hrest
      cases hchunks with
      | nil => exact absurd rfl hne
      | cons hlt hend => exact (hlt.trans_le hend).trans_le hbroken
    · exact hgrows hempty
  · obtain ⟨hshort, hlong⟩ := hnext top htop
    rw [Nat.zero_add] at hshort hlong
    cases hchunks with
    | nil => cases htop
    | @cons _ bound chunks hlt hend =>
      obtain rfl : top = ⟨start, bound⟩ := by simpa using htop.symm
      constructor
      · intro hlen
        exact le_of_solid htop' hblank htrim.le ((hshort hlen).trans hbroken) hend
      · intro hlen
        obtain ⟨rfl, rfl⟩ := hlong hlen
        have hstop : stop = taken + headLength (slice text taken bound) width :=
          hcut _ rfl rfl hlen
        have hhead := (headLength_bounds (slice text taken bound) hwidth).2
        have hlen' : width < bound - taken := hlen
        have hchunk : Solid (slice text taken bound) := htop'
        have hsolid' : Solid
            (slice text taken (taken + headLength (slice text taken bound) width)) :=
          fun byte hbyte => hchunk byte (slice_subset le_rfl (by omega) (by omega) hbyte)
        show taken + headLength (slice text taken bound) width ≤ place
        exact le_of_solid hsolid' hblank htrim.le hstop.ge (by omega)

/-- The lines that fill a text from a place on, the first of them up to another place: each is a
part of the text, only spaces are between two, and no two in a row fit on one line. -/
inductive Fills (text : List UInt8) (width : Nat) : Nat → Nat → List (List UInt8) → Prop
  | nil {start stop : Nat} (hgap : Blank (text.drop start)) : Fills text width start stop []
  | cons {start first last stop : Nat} {lines : List (List UInt8)} (hstart : start ≤ first)
      (hgap : Blank (slice text start first)) (hlt : first < last)
      (hrest : Fills text width last stop lines) (hfull : lines ≠ [] → width < stop - first) :
      Fills text width start last (slice text first last :: lines)

theorem Fills.pad {lines : List (List UInt8)} {first : Nat} (h : Fills text width place stop lines)
    (hle : first ≤ place) (hgap : Blank (slice text first place)) :
    Fills text width first stop lines := by
  cases h with
  | nil hrest => exact .nil (by rw [← slice_append_drop hle]; exact blank_append.mpr ⟨hgap, hrest⟩)
  | cons hstart hfront hlt hrest hfull =>
    refine .cons (hle.trans hstart) ?_ hlt hrest hfull
    rw [← slice_append hle hstart]
    exact blank_append.mpr ⟨hgap, hfront⟩

/-- A line begins with no space. -/
def Begins (bytes : List UInt8) : Prop := ∀ byte ∈ bytes.head?, isAsciiSpace byte = false

theorem Chunked.solid_head (h : Chunked text start chunks) (hlt : start < text.length)
    (hhead : ∀ next ∈ chunks.head?, ¬Blank (slice text next.start next.stop)) :
    holdsAt text isAsciiSpace start = false := by
  cases h with
  | nil => exact absurd hlt (lt_irrefl _)
  | cons hlt' hle huniform =>
    have hsolid := huniform.solid (hhead _ rfl) _ (getElem_mem_slice hlt' hle)
    simp [holdsAt, hlt, hsolid]

theorem begins_slice (hspace : holdsAt text isAsciiSpace start = false) :
    Begins (slice text start stop) := by
  intro byte hbyte
  rw [List.head?_eq_getElem?, getElem?_slice] at hbyte
  split_ifs at hbyte
  · simpa [holdsAt, show text[start]? = some byte from hbyte] using hspace
  · cases hbyte

/-- A blank chunk is left out before a line, but not before the first one. A line that takes what
follows goes past what the line before had no room for. -/
theorem skip_spec (width : Nat) {top : Range} (h : Chunked text start (top :: chunks))
    (skips : Bool) :
    ∃ place left, (if skips && isBlank text top then chunks else top :: chunks) = left ∧
      start ≤ place ∧ Blank (slice text start place) ∧ Chunked text place left ∧
      (start < place ∨ left ≠ []) ∧
      (skips = true → (∀ next ∈ left.head?, ¬Blank (slice text next.start next.stop)) ∧
        ∀ before last, before ≤ start → place < last →
          (∀ next ∈ left.head?, Solid (slice text next.start next.stop) →
            Reaches text width last next) →
          Over text width before (top :: chunks) → width < last - before) := by
  have hchunks := h
  cases h with
  | @cons _ stop _ hlt hle huniform hapart hrest =>
    split_ifs with hskip
    · rw [Bool.and_eq_true, isBlank_iff] at hskip
      refine ⟨stop, chunks, rfl, hlt.le, hskip.2, hrest, .inl hlt, fun _ =>
        ⟨fun next hnext => hapart _ rfl next hnext hskip.2, fun before last _ hlast _ hover => ?_⟩⟩
      have hover' : width < stop - before := (hover _ rfl).1
      omega
    · refine ⟨start, _, rfl, le_rfl, by simp, hchunks, .inr (by simp), fun hskips => ?_⟩
      have hnot : ¬Blank (slice text start stop) := fun hblank => hskip (by
        rw [hskips, isBlank_iff.mpr hblank]
        rfl)
      refine ⟨by rintro _ ⟨⟩; exact hnot, fun before last _ _ hreach hover => ?_⟩
      obtain ⟨hshort, hlong⟩ := hreach _ rfl (huniform.solid hnot)
      obtain ⟨hover, hover'⟩ := hover _ rfl
      by_cases hlen : width < Range.len ⟨start, stop⟩
      · exact (hover' hlen).trans_le (Nat.sub_le_sub_right (hlong hlen) before)
      · exact hover.trans_le (Nat.sub_le_sub_right (hshort (not_lt.mp hlen)) before)

/-- Lines that show something fill no place past the text. -/
theorem Fills.lt_length {lines : List (List UInt8)} (h : Fills text width start stop lines)
    (hfilled : ∀ line ∈ lines, Filled width line) (hne : lines ≠ []) : start < text.length := by
  cases h with
  | nil => exact absurd rfl hne
  | @cons _ first last _ _ hstart =>
    by_contra! hle
    refine (hfilled _ List.mem_cons_self).ne_nil ?_
    rw [slice, List.drop_eq_nil_of_le (hle.trans hstart), List.take_nil]

/-- What the loop adds to the lines it has. -/
theorem wrapFrom_spec (hwidth : 0 < width) {fuel : Nat} (hchunks : Chunked text start chunks)
    (hfuel : text.length - start ≤ fuel) (lines : List (List UInt8)) :
    ∃ more stop, wrapFrom text width fuel chunks lines = some (lines ++ more) ∧
      Fills text width start stop more ∧ (∀ line ∈ more, Filled width line) ∧
      (∀ line ∈ if lines.isEmpty then more.tail else more, Begins line) ∧
      (lines ≠ [] → more ≠ [] → ∀ before ≤ start, Over text width before chunks →
        width < stop - before) := by
  induction fuel generalizing start chunks lines with
  | zero =>
    cases hchunks with
    | nil => exact ⟨[], 0, by simp [wrapFrom], .nil (by simp), by simp, by simp, by simp⟩
    | cons hlt hle => omega
  | succ fuel ih =>
    have hchunks' := hchunks
    cases hchunks with
    | nil => exact ⟨[], 0, by simp [wrapFrom], .nil (by simp), by simp, by simp, by simp⟩
    | @cons _ top chunks =>
      obtain ⟨place, left, hleft, hplace, hgap, hchunks, hgrows, hskips⟩ :=
        skip_spec width hchunks' !lines.isEmpty
      obtain ⟨last, stop, line, rest, hfill, hlast, hgap', hrest, hover, hmoves, hreach, hline⟩ :=
        fillLine_spec hwidth hchunks
      have hle : place ≤ last := hline.elim (fun h => h.2.le) fun h => h.2.1.le
      have hstart : start < stop := by
        rcases hgrows with hlt | hne
        · exact hlt.trans_le (hle.trans hlast)
        · exact hplace.trans_lt (hmoves hne)
      obtain ⟨more, next, hmore, hfills, hfilled, hbegins, hfull⟩ :=
        ih hrest (by omega) (lines ++ line.toList)
      have hfills' := hfills.pad hlast hgap'
      rw [wrapFrom]
      simp only [hleft, hfill, hmore]
      rcases hline with ⟨rfl, rfl⟩ | ⟨rfl, hlt, hshown⟩
      · refine ⟨more, next, by simp, hfills'.pad hplace hgap, hfilled, by simpa using hbegins,
          fun hne hne' => ?_⟩
        -- after a line, a line with nothing on it is the end of the text
        have hplace' := hfills'.lt_length hfilled hne'
        cases hchunks with
        | nil => exact absurd hplace' (lt_irrefl _)
        | cons hlt _ huniform =>
          have hnot := (hskips (by simpa using hne)).1 _ rfl
          exact absurd ((hreach _ rfl (huniform.solid hnot)).lt hwidth hlt) (lt_irrefl _)
      · refine ⟨slice text place last :: more, last, by simp, .cons hplace hgap hlt hfills'
          fun hne => hfull (by simp) hne place (hle.trans hlast) hover, ?_, ?_, ?_⟩
        · simpa using ⟨hshown, hfilled⟩
        · have hbegins' : ∀ line ∈ more, Begins line := by simpa using hbegins
          split_ifs with hempty
          · exact hbegins'
          · have hspace := hchunks.solid_head (hlt.trans_le (hlast.trans hrest.le))
              (hskips (by simpa using hempty)).1
            simpa using ⟨begins_slice hspace, hbegins'⟩
        · intro hne _ before hbefore hover'
          exact (hskips (by simpa using hne)).2 before last hbefore hlt hreach hover'

/-- No line is filled when none may have a byte. -/
theorem wrapFrom_zero (hchunks : Chunked text start chunks) (hlt : start < text.length)
    (fuel : Nat) : wrapFrom text 0 fuel chunks [] = none := by
  cases hchunks with
  | nil => exact absurd hlt (lt_irrefl _)
  | @cons _ stop chunks hlt' =>
    have hlen : 0 < Range.len ⟨start, stop⟩ := Nat.sub_pos_of_lt hlt'
    have hstuck : fillLine text 0 (⟨start, stop⟩ :: chunks) = (none, ⟨start, stop⟩ :: chunks) := by
      simp [fillLine, takeFrom, breakTop, breakLongWord, hlen, shown, trimmed]
    induction fuel with
    | zero => rfl
    | succ fuel ih => simpa [wrapFrom, hstuck] using ih

/-- A text is filled into lines of at most the width: nothing but spaces is lost, and no line ends
early. Only when the width is zero is there no end. -/
theorem wrap_fills (text : List UInt8) (width : Nat) :
    if 0 < width ∨ text = [] then
      ∃ lines, wrap text width = some lines ∧ (∃ stop, Fills text width 0 stop lines) ∧
        (∀ line ∈ lines, Filled width line) ∧ ∀ line ∈ lines.tail, Begins line
    else ∀ fuel, wrapFrom text width fuel (split text) [] = none := by
  have hchunks : Chunked text 0 (split text) := chunked_splitFrom (Nat.zero_le _)
  split_ifs with hends
  · rcases hends with hwidth | rfl
    · obtain ⟨lines, stop, hlines, hfills, hfilled, hbegins, -⟩ :=
        wrapFrom_spec hwidth hchunks (le_refl _) []
      exact ⟨lines, hlines, ⟨stop, hfills⟩, hfilled, by simpa using hbegins⟩
    · refine ⟨[], by rw [wrap, split, splitFrom]; rfl, ⟨0, .nil (by simp)⟩, by simp, by simp⟩
  · rw [not_or, Nat.not_lt, Nat.le_zero] at hends
    obtain ⟨rfl, hne⟩ := hends
    exact wrapFrom_zero hchunks (List.length_pos_iff.mpr hne)

end Agentless.Cli.Wrap
