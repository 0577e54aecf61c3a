import Agentless.Library.Fallible
import Agentless.Metrics.Tokenize

/-!
# The tokenizer is total

Every token makes the rest of the input shorter, or leaves the literal text of an f-string, so a
scan ends. On the way no `expect` fails and no line is subtracted below zero, and the stacks keep
their shape.
-/

namespace Agentless.Metrics.Tokenize

/-- A failure that the source reports. -/
def Reported (halt : Halt) : Prop := ∃ error, halt = .error error

abbrev Reads {α : Type} (outcome : Except Halt α) (property : α → Prop) : Prop :=
  Meets Reported outcome property

theorem reads_fail {α : Type} (error : TokenizeError) (property : α → Prop) :
    Reads (fail error) property := ⟨error, rfl⟩

/-! ## The buffer -/

theorem splitlines_go_ends {line : Text} (hline : '\n' ∉ line) (text : Text) :
    ∀ found ∈ Text.splitlines.go true line text, '\n' ∉ found.dropLast := by
  fun_induction Text.splitlines.go true line text with
  | case1 line hne => simpa using mt List.mem_of_mem_dropLast hline
  | case2 line hempty => simp
  | case3 line rest ih =>
    refine List.forall_mem_cons.mpr ⟨?_, ih (by simp)⟩
    simpa [List.dropLast_append_of_ne_nil] using hline
  | case4 line c rest hcrlf hbreak ih =>
    refine List.forall_mem_cons.mpr ⟨?_, ih (by simp)⟩
    simpa using hline
  | case5 line c rest hcrlf hbreak ih =>
    refine ih ?_
    have hne : '\n' ≠ c := by
      rintro rfl
      exact hbreak (by decide)
    simp [hline, hne]

theorem notMem_stripLast {piece : Text} (h : '\n' ∉ piece.dropLast) :
    '\n' ∉ stripLast '\n' piece := by
  unfold stripLast
  split_ifs with hlast
  · exact h
  · intro hmem
    obtain rfl | ⟨front, last, rfl⟩ := List.eq_nil_or_concat piece
    · cases hmem
    · rw [List.concat_eq_append] at h hlast hmem
      rw [List.dropLast_concat] at h
      rw [List.getLast?_concat] at hlast
      obtain hfront | hend := List.mem_append.mp hmem
      · exact h hfront
      · exact hlast (congrArg some (List.mem_singleton.mp hend).symm)

theorem stripLast_subset (c : Char) (text : Text) : stripLast c text ⊆ text := by
  unfold stripLast
  split_ifs
  · exact List.dropLast_subset text
  · exact List.Subset.refl text

/-- The buffer has a line feed for each line before the cut, and ends in one. -/
theorem scanLines_spec {pieces : List Text} (h : ∀ piece ∈ pieces, '\n' ∉ piece.dropLast) :
    (scanLines pieces).1.count '\n' ≤ pieces.length ∧
      ∀ c ∈ (scanLines pieces).1.getLast?, c = '\n' := by
  induction pieces with
  | nil => simp [scanLines]
  | cons piece pieces ih =>
    obtain ⟨hpiece, hpieces⟩ := List.forall_mem_cons.mp h
    obtain ⟨hcount, hlast⟩ := ih hpieces
    rw [scanLines]
    split_ifs
    · simp
    · have hbody : '\n' ∉ stripLast '\r' (stripLast '\n' piece) := fun hmem =>
        notMem_stripLast hpiece (stripLast_subset _ _ hmem)
      dsimp only
      refine ⟨?_, ?_⟩
      · rw [List.count_append, List.count_eq_zero.mpr hbody, List.count_cons_self,
          List.length_cons, Nat.zero_add]
        exact Nat.add_le_add_right hcount 1
      · rw [List.getLast?_append_of_ne_nil _ (List.cons_ne_nil _ _), List.getLast?_cons]
        cases hend : (scanLines pieces).1.getLast? with
        | none => simp
        | some c => simpa using hlast c hend

theorem scanBuffer_spec (source : Text) :
    (scanBuffer source).1.count '\n' ≤ (Text.splitlines source true).length ∧
      ∀ c ∈ (scanBuffer source).1.getLast?, c = '\n' :=
  scanLines_spec (splitlines_go_ends List.not_mem_nil source)

/-! ## The invariant -/

/-- The brackets of an f-string are never below zero, and its fields count from minus one. -/
structure FString.Nested (fstring : FString) : Prop where
  size : 1 ≤ fstring.size
  brackets : 0 ≤ fstring.brackets
  fields : -1 ≤ fstring.fields

/-- The first indentation is the zero column, and each one is deeper than those before it, in both
measures. -/
structure Stacked (indents : List (Nat × Nat)) : Prop where
  first : indents.head? = some (0, 0)
  deeper : indents.Pairwise fun outer inner => outer.1 < inner.1 ∧ outer.2 < inner.2

namespace Stacked

variable {indents : List (Nat × Nat)}

theorem ne_nil (h : Stacked indents) : indents ≠ [] := by
  rintro rfl
  cases h.first

theorem indentTop (h : Stacked indents) :
    Reads (Scanner.indentTop indents) fun top => indents.getLast? = some top := by
  unfold Scanner.indentTop
  rw [List.getLast?_eq_getLast_of_ne_nil h.ne_nil]
  rfl

theorem dropLast (h : Stacked indents)
    (hlength : 1 < indents.length) : Stacked indents.dropLast where
  first := by
    rw [List.head?_dropLast, if_pos hlength, h.first]
  deeper := h.deeper.sublist (List.dropLast_sublist indents)

theorem popIndents (h : Stacked indents) (col : Nat) :
    Reads (Scanner.popIndents col indents) Stacked := by
  fun_induction Scanner.popIndents col indents with
  | case1 indents hlength ih =>
    refine h.indentTop.bind fun top _ => ?_
    split_ifs
    · exact ih (h.dropLast hlength)
    · exact h
  | case2 indents hlength => exact h

/-- A column deeper than the top is deeper than all. -/
theorem push (h : Stacked indents) {top : Nat × Nat}
    (htop : indents.getLast? = some top) {col alt : Nat} (hcol : top.1 < col) (halt : top.2 < alt) :
    Stacked (indents ++ [(col, alt)]) where
  first := by
    rw [List.head?_append, h.first]
    rfl
  deeper := by
    refine List.pairwise_append.mpr ⟨h.deeper, List.pairwise_singleton _ _, ?_⟩
    intro outer houter inner hinner
    obtain rfl := List.mem_singleton.mp hinner
    obtain ⟨front, rfl⟩ := List.getLast?_eq_some_iff.mp htop
    obtain hfront | hlast := List.mem_append.mp houter
    · have hbelow := (List.pairwise_append.mp h.deeper).2.2 outer hfront top List.mem_cons_self
      exact ⟨hbelow.1.trans hcol, hbelow.2.trans halt⟩
    · obtain rfl := List.mem_singleton.mp hlast
      exact ⟨hcol, halt⟩

end Stacked

namespace Scanner

structure Valid (s : Scanner) : Prop where
  pos : s.pos ≤ s.chars.length
  line : s.line = 1 + (s.chars.take s.pos).count '\n'
  indents : Stacked s.indents
  fstrings : ∀ fstring ∈ s.fstrings, fstring.Nested
  lines : ∀ line ∈ s.lines, 1 ≤ line ∧ line ≤ s.chars.count '\n'
  ends : ∀ c ∈ s.chars.getLast?, c = '\n'

/-- A valid scanner behind `s` in the same buffer. -/
structure Follows (s t : Scanner) : Prop where
  valid : t.Valid
  chars : t.chars = s.chars
  pos : s.pos ≤ t.pos

/-- A valid scanner behind `s` in the same f-strings. -/
structure Keeps (s t : Scanner) : Prop extends Follows s t where
  fstrings : t.fstrings = s.fstrings

variable {s t u : Scanner}

theorem Follows.trans (h : s.Follows t) (h' : t.Follows u) : s.Follows u :=
  ⟨h'.valid, h'.chars.trans h.chars, h.pos.trans h'.pos⟩

theorem Keeps.trans (h : s.Keeps t) (h' : t.Keeps u) : s.Keeps u :=
  ⟨h.toFollows.trans h'.toFollows, h'.fstrings.trans h.fstrings⟩

theorem Valid.keeps (h : s.Valid) : s.Keeps s := ⟨⟨h, rfl, Nat.le_refl _⟩, rfl⟩

theorem pos_lt_of_peek {c : Char} (h : s.peek = some c) : s.pos < s.chars.length :=
  (List.getElem?_eq_some_iff.mp h).1

theorem bump_of_peek {c : Char} (h : s.peek = some c) :
    s.bump = { s with line := s.line + (if c = '\n' then 1 else 0), pos := s.pos + 1 } := by
  rw [bump, h]

theorem bump_of_none (h : s.peek = none) : s.bump = s := by
  rw [bump, h]

theorem Valid.line_le (h : s.Valid) {c : Char} (hpeek : s.peek = some c) :
    1 ≤ s.line ∧ s.line ≤ s.chars.count '\n' := by
  have hpos := pos_lt_of_peek hpeek
  have hrest : s.chars.drop s.pos ≠ [] := by
    rw [Ne, List.drop_eq_nil_iff]
    omega
  have hfeed : '\n' ∈ s.chars.drop s.pos := by
    have hlast := List.getLast?_eq_getLast_of_ne_nil hrest
    rw [List.getLast?_drop, if_neg (by omega)] at hlast
    exact h.ends _ hlast ▸ List.getLast_mem hrest
  have hcount : s.chars.count '\n' =
      (s.chars.take s.pos).count '\n' + (s.chars.drop s.pos).count '\n' := by
    rw [← List.count_append, List.take_append_drop]
  have hone := List.count_pos_iff.mpr hfeed
  rw [h.line]
  omega

theorem Valid.bump (h : s.Valid) : s.Keeps s.bump := by
  cases hpeek : s.peek with
  | none =>
    rw [bump_of_none hpeek]
    exact h.keeps
  | some c =>
    obtain ⟨hpos, hc⟩ := List.getElem?_eq_some_iff.mp hpeek
    have hcount : (s.chars.take (s.pos + 1)).count '\n' =
        (s.chars.take s.pos).count '\n' + (if c = '\n' then 1 else 0) := by
      rw [List.take_add_one, List.count_append]
      change _ + (s.peek.toList).count '\n' = _
      rw [hpeek]
      simp [List.count_cons]
    rw [bump_of_peek hpeek]
    refine ⟨⟨⟨hpos, ?_, h.indents, h.fstrings, h.lines, h.ends⟩, rfl, Nat.le_succ _⟩, rfl⟩
    rw [h.line, hcount, Nat.add_assoc]

theorem Valid.skip (h : s.Valid) (count : Nat) : s.Keeps (s.skip count) := by
  induction count generalizing s with
  | zero => exact h.keeps
  | succ count ih =>
    have hbump := h.bump
    exact hbump.trans (ih hbump.valid)

theorem Valid.skipWhile (h : s.Valid) (accept : Char → Bool) : s.Keeps (s.skipWhile accept) := by
  fun_induction Scanner.skipWhile accept s with
  | case1 s c _ _ ih =>
    have hbump := h.bump
    exact hbump.trans (ih hbump.valid)
  | case2 s => exact h.keeps
  | case3 s => exact h.keeps

/-- Behind a character the scanner is further. -/
theorem pos_lt_bump {c : Char} (hpeek : s.peek = some c) : s.pos < s.bump.pos := by
  rw [bump_of_peek hpeek]
  exact Nat.lt_succ_self _

theorem Valid.pos_lt_skip (h : s.Valid) {c : Char} (hpeek : s.peek = some c) {count : Nat}
    (hcount : 1 ≤ count) : s.pos < (s.skip count).pos := by
  obtain ⟨count, rfl⟩ := Nat.exists_eq_add_of_le' hcount
  exact Nat.lt_of_lt_of_le (pos_lt_bump hpeek) (h.bump.valid.skip count).pos

theorem Valid.pos_lt_skipWhile (h : s.Valid) {accept : Char → Bool} {c : Char}
    (hpeek : s.peek = some c) (haccept : accept c = true) :
    s.pos < (s.skipWhile accept).pos := by
  have hstep : s.skipWhile accept = s.bump.skipWhile accept := by
    rw [Scanner.skipWhile, hpeek]
    exact if_pos haccept
  rw [hstep]
  exact Nat.lt_of_lt_of_le (pos_lt_bump hpeek) (h.bump.valid.skipWhile accept).pos

theorem Valid.countLine (h : s.Valid) {line : Nat}
    (hline : 1 ≤ line ∧ line ≤ s.chars.count '\n') : s.Keeps (s.countLine line) := by
  unfold Scanner.countLine
  split_ifs
  · refine ⟨⟨⟨h.pos, h.line, h.indents, h.fstrings, ?_, h.ends⟩, rfl, Nat.le_refl _⟩, rfl⟩
    intro other hother
    obtain hold | hnew := List.mem_append.mp hother
    · exact h.lines other hold
    · rwa [List.mem_singleton.mp hnew]
  · exact h.keeps

theorem Valid.count (h : s.Valid) {c : Char} (hpeek : s.peek = some c) : s.Keeps s.count :=
  h.countLine (h.line_le hpeek)

@[simp] theorem peekAt_count (offset : Nat) : s.count.peekAt offset = s.peekAt offset := by
  unfold count countLine
  split_ifs <;> rfl

@[simp] theorem peek_count : s.count.peek = s.peek := peekAt_count 0

@[simp] theorem pos_count : s.count.pos = s.pos := by
  unfold count countLine
  split_ifs <;> rfl

theorem Valid.detectedLine (h : s.Valid) : Reads s.detectedLine fun _ => True := by
  have hline : 1 ≤ s.line := h.line ▸ Nat.le_add_right 1 _
  unfold Scanner.detectedLine
  dsimp only
  split_ifs <;> first | trivial | omega

theorem reads_fail_of {α : Type} {error : Except Halt TokenizeError} {property : α → Prop}
    (wrap : TokenizeError → TokenizeError) (h : Reads error fun _ => True) :
    Reads (error >>= fun found => fail (wrap found)) property :=
  h.bind fun found _ => reads_fail (wrap found) property

/-! ## Indentation -/

theorem Valid.continuation (h : s.Valid) {c : Char} (hpeek : s.peek = some c) :
    Reads s.continuation fun t => s.Keeps t ∧ s.pos < t.pos := by
  unfold Scanner.continuation
  dsimp only
  split_ifs
  · exact reads_fail _ _
  · exact reads_fail _ _
  · have hbump := h.bump
    have hagain := hbump.valid.bump
    exact ⟨hbump.trans hagain, Nat.lt_of_lt_of_le (pos_lt_bump hpeek) hagain.pos⟩

theorem Valid.indentLoop (h : s.Valid) (columns : Columns) :
    Reads (indentLoop columns s) fun read => s.Keeps read.2 := by
  fun_induction Scanner.indentLoop columns s with
  | case1 columns s _ ih => exact (ih h.bump.valid).mono fun _ hread => h.bump.trans hread
  | case2 columns s _ ih => exact (ih h.bump.valid).mono fun _ hread => h.bump.trans hread
  | case3 columns s _ ih => exact (ih h.bump.valid).mono fun _ hread => h.bump.trans hread
  | case4 columns s hpeek _ t ht ih =>
    obtain ⟨hkeeps, -⟩ := (h.continuation hpeek).of_ok ht
    exact (ih hkeeps.valid).mono fun _ hread => hkeeps.trans hread
  | case5 columns s hpeek halt ht => exact (h.continuation hpeek).of_error ht
  | case6 columns s => exact h.keeps

theorem Valid.indentColumns (h : s.Valid) : Reads s.indentColumns fun read => s.Keeps read.2 := by
  refine (h.indentLoop ⟨0, 0, 0⟩).bind fun read hread => ?_
  dsimp only
  split_ifs <;> exact hread

theorem Valid.setIndents (h : s.Valid) {indents : List (Nat × Nat)} (hindents : Stacked indents) :
    s.Keeps { s with indents } :=
  ⟨⟨⟨h.pos, h.line, hindents, h.fstrings, h.lines, h.ends⟩, rfl, Nat.le_refl _⟩, rfl⟩

theorem Valid.checkIndent (h : s.Valid) (col alt : Nat) :
    Reads (s.checkIndent col alt) fun t => s.Keeps t := by
  refine h.indents.indentTop.bind fun top htop => ?_
  dsimp only
  split_ifs with hcol hdepth halt
  · exact reads_fail _ _
  · exact reads_fail _ _
  · exact h.setIndents (h.indents.push htop hcol (Nat.lt_of_not_le halt))
  · refine (h.indents.popIndents col).bind fun indents hindents => ?_
    refine hindents.indentTop.bind fun top' _ => ?_
    split_ifs
    · exact reads_fail _ _
    · exact reads_fail _ _
    · exact h.setIndents hindents

theorem Valid.indentation (h : s.Valid) : Reads s.indentation fun t => s.Keeps t := by
  refine h.indentColumns.bind fun read hread => ?_
  dsimp only
  split_ifs
  · exact hread
  · exact (hread.valid.checkIndent _ _).mono fun _ hnext => hread.trans hnext

theorem reads_endOfInput (s : Scanner) : Reads s.endOfInput fun _ => True := by
  unfold Scanner.endOfInput
  split_ifs
  · exact reads_fail _ _
  · trivial

/-! ## Strings -/

theorem Valid.unterminatedString (h : s.Valid) (quote : Char) (size : Nat) (escaped : Bool) :
    Reads (s.unterminatedString quote size escaped) fun _ => True := by
  unfold Scanner.unterminatedString
  split_ifs
  · trivial
  · trivial
  · exact h.detectedLine.bind fun _ _ => trivial
  · exact h.detectedLine.bind fun _ _ => trivial

theorem Valid.openQuote (h : s.Valid) (quote : Char) :
    1 ≤ (s.openQuote quote).1 ∧ s.Keeps (s.openQuote quote).2 := by
  refine ⟨?_, h.skip _⟩
  unfold Scanner.openQuote
  dsimp only
  split_ifs <;> decide

theorem Valid.skipEscape (h : s.Valid) (quote : Char) : s.Keeps (s.skipEscape quote).2 :=
  h.bump.trans h.bump.valid.bump

theorem Valid.stringLoop (h : s.Valid) (quote : Char) (size : Nat) (escaped : Bool) :
    Reads (stringLoop quote size escaped s) fun t => s.Keeps t := by
  fun_induction Scanner.stringLoop quote size escaped s with
  | case1 escaped s _ => exact h.skip size
  | case2 escaped s => exact reads_fail_of s.eofError (h.unterminatedString quote size escaped)
  | case3 escaped s => exact reads_fail_of id (h.unterminatedString quote size escaped)
  | case4 escaped s _ _ _ ih =>
    have hescape := h.skipEscape quote
    exact (ih hescape.valid).mono fun _ hnext => hescape.trans hnext
  | case5 escaped s _ _ _ _ _ ih =>
    exact (ih h.bump.valid).mono fun _ hnext => h.bump.trans hnext

theorem Valid.stringBody (h : s.Valid) (quote : Char) :
    Reads (s.stringBody quote) fun t =>
      s.Keeps t ∧ ∀ c, s.peek = some c → s.pos < t.pos := by
  obtain ⟨hsize, hopen⟩ := h.openQuote quote
  refine (hopen.valid.stringLoop quote _ false).mono fun t ht => ⟨hopen.trans ht, fun c hc => ?_⟩
  exact Nat.lt_of_lt_of_le (h.pos_lt_skip hc hsize) ht.pos

/-! ## Numbers -/

theorem Valid.decimalDigits (h : s.Valid) :
    Reads s.decimalDigits fun t => s.Keeps t ∧ (s.peekDigit → s.pos < t.pos) := by
  fun_induction Scanner.decimalDigits s with
  | case1 s after hpeek hdigit _ ih =>
    have hafter := h.skipWhile Char.isDigit
    have hbump := hafter.valid.bump
    refine (ih hbump.valid).mono fun t ht => ⟨(hafter.trans hbump).trans ht.1, fun _ => ?_⟩
    exact Nat.lt_of_le_of_lt hafter.pos (Nat.lt_of_lt_of_le (pos_lt_bump hpeek) ht.1.pos)
  | case2 => exact reads_fail _ _
  | case3 s after hpeek =>
    refine ⟨h.skipWhile Char.isDigit, fun hdigit => ?_⟩
    obtain ⟨c, hc, hisDigit⟩ := (Option.any_eq_true _ _).mp hdigit
    exact h.pos_lt_skipWhile hc hisDigit

theorem Valid.fraction (h : s.Valid) : Reads s.fraction fun t => s.Keeps t := by
  have hbump := h.bump
  unfold Scanner.fraction
  split_ifs
  · exact hbump.valid.decimalDigits.mono fun t ht => hbump.trans ht.1
  · exact hbump
  · exact h.keeps

theorem Valid.exponent (h : s.Valid) : Reads s.exponent fun t => s.Keeps t := by
  unfold Scanner.exponent
  dsimp only
  split_ifs
  all_goals first
    | exact h.keeps
    | exact reads_fail _ _
    | exact ((h.skip _).valid.decimalDigits).mono fun t ht => (h.skip _).trans ht.1

theorem Valid.underscore (h : s.Valid) :
    s.Keeps (if s.peek = some '_' then s.bump else s) := by
  split_ifs
  · exact h.bump
  · exact h.keeps

theorem Valid.radixLoop (h : s.Valid) (name : Text) (isDigit : Char → Bool) :
    Reads (radixLoop name isDigit s) fun t => s.Keeps t := by
  fun_induction Scanner.radixLoop name isDigit s with
  | case1 s behind c hpeek hdigit after hunder _ ih =>
    have hbehind : s.Keeps behind := h.underscore
    have hafter := hbehind.trans (hbehind.valid.skipWhile isDigit)
    exact (ih hafter.valid).mono fun t ht => hafter.trans ht
  | case2 => exact reads_fail _ _
  | case3 s behind c hpeek hdigit after =>
    have hbehind : s.Keeps behind := h.underscore
    exact hbehind.trans (hbehind.valid.skipWhile isDigit)
  | case4 => exact reads_fail _ _
  | case5 => exact reads_fail _ _

theorem Valid.radixNumber (h : s.Valid) {c : Char} (hpeek : s.peek = some c) :
    Reads s.radixNumber fun t => s.Keeps t ∧ s.pos < t.pos := by
  have hmarker := h.bump.trans h.bump.valid.bump
  refine (hmarker.valid.radixLoop _ _).mono fun t ht => ⟨hmarker.trans ht, ?_⟩
  exact Nat.lt_of_lt_of_le (pos_lt_bump hpeek) (h.bump.valid.bump.trans ht).pos

theorem Valid.number (h : s.Valid) {c : Char} (hpeek : s.peek = some c)
    (hdigit : c.isDigit = true) : Reads s.number fun t => s.Keeps t ∧ s.pos < t.pos := by
  have hcount := h.count hpeek
  unfold Scanner.number
  dsimp only
  split_ifs
  · refine (hcount.valid.radixNumber (peek_count.trans hpeek)).mono fun t ht => ?_
    exact ⟨hcount.trans ht.1, pos_count (s := s) ▸ ht.2⟩
  · have hpeekDigit : s.count.peekDigit = true := by
      rw [peekDigit, peek_count, hpeek]
      exact hdigit
    refine hcount.valid.decimalDigits.bind fun whole hwhole => ?_
    have hstart : s.pos < whole.pos := pos_count (s := s) ▸ hwhole.2 hpeekDigit
    have hwhole := hcount.trans hwhole.1
    refine hwhole.valid.fraction.bind fun mantissa hmantissa => ?_
    refine hmantissa.valid.exponent.bind fun power hpower => ?_
    have hall := hmantissa.trans hpower
    refine Meets.pure_iff.mpr ?_
    split_ifs
    · have hbump := hall.trans hall.valid.bump
      exact ⟨hwhole.trans hbump, Nat.lt_of_lt_of_le hstart hbump.pos⟩
    · exact ⟨hwhole.trans hall, Nat.lt_of_lt_of_le hstart hall.pos⟩

/-! ## Brackets and f-strings -/

/-- One while the scanner is in the literal text of an f-string. -/
def literal (s : Scanner) : Nat := if s.fstrings.getLast?.any FString.inLiteral then 1 else 0

theorem literal_le (s : Scanner) : s.literal ≤ 1 := by
  unfold literal
  split_ifs <;> decide

theorem Valid.setFstrings (h : s.Valid) {fstrings : List FString}
    (hfstrings : ∀ fstring ∈ fstrings, fstring.Nested) : s.Follows { s with fstrings } :=
  ⟨⟨h.pos, h.line, h.indents, hfstrings, h.lines, h.ends⟩, rfl, Nat.le_refl _⟩

theorem Valid.setTop (h : s.Valid) {top : FString} (htop : top.Nested) :
    s.Follows { s with fstrings := s.fstrings.dropLast ++ [top] } := by
  refine h.setFstrings fun fstring hfstring => ?_
  obtain hbelow | hnew := List.mem_append.mp hfstring
  · exact h.fstrings fstring (List.mem_of_mem_dropLast hbelow)
  · rwa [List.mem_singleton.mp hnew]

theorem Valid.nested_top (h : s.Valid) {top : FString} (htop : s.fstrings.getLast? = some top) :
    top.Nested :=
  h.fstrings top (List.mem_of_getLast? htop)

theorem Valid.changeTop (h : s.Valid) (hopen : s.fstrings ≠ []) {change : FString → FString}
    (hchange : ∀ top, top.Nested → (change top).Nested) :
    Reads (s.changeTop change) fun t => s.Follows t ∧ t.pos = s.pos ∧
      ∃ top, s.fstrings.getLast? = some top ∧ t.fstrings = s.fstrings.dropLast ++ [change top] := by
  unfold Scanner.changeTop
  cases htop : s.fstrings.getLast? with
  | none => exact absurd (List.getLast?_eq_none_iff.mp htop) hopen
  | some top => exact ⟨h.setTop (hchange top (h.nested_top htop)), rfl, top, rfl, rfl⟩

theorem Valid.openField (h : s.Valid) (hopen : s.fstrings ≠ []) :
    Reads s.openField fun t => s.Follows t ∧ t.pos = s.pos ∧ t.literal = 0 := by
  have hchange (top : FString) (htop : top.Nested) :
      FString.Nested { top with fields := top.fields + 1, inLiteral := false } :=
    ⟨htop.size, htop.brackets, Int.le_add_one htop.fields⟩
  refine (h.changeTop hopen hchange).bind fun t ht => ?_
  obtain ⟨hfollows, hpos, top, -, hfstrings⟩ := ht
  split_ifs
  · exact reads_fail _ _
  · refine ⟨hfollows, hpos, ?_⟩
    rw [literal, hfstrings, List.getLast?_concat]
    rfl

theorem Valid.fstringStart (h : s.Valid) {found : Prefix} {c : Char} (hpeek : s.peek = some c)
    (hlen : 1 ≤ found.len) :
    Reads (s.fstringStart found) fun t => s.Follows t ∧ s.pos < t.pos := by
  have hskip := h.skip found.len
  obtain ⟨hsize, hquote⟩ := hskip.valid.openQuote found.quote
  have hstart := Nat.lt_of_lt_of_le (h.pos_lt_skip hpeek hlen) hquote.pos
  unfold Scanner.fstringStart
  dsimp only
  split_ifs
  · exact reads_fail _ _
  · refine ⟨(hskip.trans hquote).toFollows.trans (hquote.valid.setFstrings ?_), hstart⟩
    intro fstring hfstring
    obtain hold | hnew := List.mem_append.mp hfstring
    · exact hquote.valid.fstrings fstring hold
    · obtain rfl := List.mem_singleton.mp hnew
      exact ⟨hsize, Int.le_refl 0, Int.le_refl (-1)⟩

theorem stringPrefix_len {found : Prefix} (h : s.stringPrefix = some found) : 1 ≤ found.len := by
  unfold stringPrefix at h
  obtain ⟨len, hlen, h⟩ := Option.bind_eq_some_iff.mp h
  have hmem := List.mem_of_find?_eq_some hlen
  dsimp only at h
  split_ifs at h
  obtain ⟨quote, -, hfound⟩ := Option.bind_eq_some_iff.mp h
  obtain rfl := Option.some.inj hfound
  dsimp only
  simp only [List.mem_cons, List.not_mem_nil, or_false] at hmem
  omega

theorem Valid.nameOrString (h : s.Valid) {c : Char} (hpeek : s.peek = some c)
    (hstart : isNameStart c = true) :
    Reads s.nameOrString fun t => s.Follows t ∧ s.pos < t.pos := by
  have hcount := h.count hpeek
  have hpeek' : s.count.peek = some c := peek_count.trans hpeek
  have hpos : s.count.pos = s.pos := pos_count
  unfold Scanner.nameOrString
  dsimp only
  cases hprefix : s.count.stringPrefix with
  | none =>
    have hname : isNameChar c = true := by rw [isNameChar, hstart, Bool.true_or]
    refine ⟨(hcount.trans (hcount.valid.skipWhile _)).toFollows, ?_⟩
    exact hpos ▸ hcount.valid.pos_lt_skipWhile hpeek' hname
  | some found =>
    have hlen := stringPrefix_len hprefix
    dsimp only
    split_ifs
    · refine (hcount.valid.fstringStart hpeek' hlen).mono fun t ht => ?_
      exact ⟨hcount.toFollows.trans ht.1, hpos ▸ ht.2⟩
    · have hskip := hcount.valid.skip found.len
      refine (hskip.valid.stringBody found.quote).mono fun t ht => ?_
      have hpos' := Nat.lt_of_lt_of_le (hcount.valid.pos_lt_skip hpeek' hlen) ht.1.pos
      exact ⟨(hcount.trans (hskip.trans ht.1)).toFollows, hpos ▸ hpos'⟩

theorem Valid.setLevel (h : s.Valid) (level : Nat) : s.Keeps { s with level } :=
  ⟨⟨⟨h.pos, h.line, h.indents, h.fstrings, h.lines, h.ends⟩, rfl, Nat.le_refl _⟩, rfl⟩

theorem Valid.openBracket (h : s.Valid) :
    Reads s.openBracket fun t => s.Follows t ∧ t.pos = s.pos := by
  have hlevel := h.setLevel (s.level + 1)
  unfold Scanner.openBracket
  dsimp only
  split_ifs
  · exact reads_fail _ _
  · cases htop : s.fstrings.getLast? with
    | none => exact ⟨hlevel.toFollows, rfl⟩
    | some top =>
      have hnested := h.nested_top htop
      refine ⟨hlevel.toFollows.trans (hlevel.valid.setTop ?_), rfl⟩
      exact ⟨hnested.size, Int.le_add_one hnested.brackets, hnested.fields⟩

/-- Brackets that would go below zero are a failure of the source. -/
theorem Valid.closeBracket (h : s.Valid) (c : Char) :
    Reads (s.closeBracket c) fun t => s.Follows t ∧ t.pos = s.pos := by
  have hlevel := h.setLevel (s.level - 1)
  unfold Scanner.closeBracket
  dsimp only
  cases htop : s.fstrings.getLast? with
  | none => exact ⟨hlevel.toFollows, rfl⟩
  | some top =>
    have hnested := h.nested_top htop
    have hfields := hnested.fields
    dsimp only
    split_ifs with hsingle hbelow hfield
    · exact reads_fail _ _
    · exact reads_fail _ _
    · have hbrackets : 0 ≤ top.brackets - 1 := Int.not_lt.mp hbelow
      refine ⟨hlevel.toFollows.trans (hlevel.valid.setTop ⟨hnested.size, hbrackets, ?_⟩), rfl⟩
      dsimp only
      omega
    · have hbrackets : 0 ≤ top.brackets - 1 := Int.not_lt.mp hbelow
      exact ⟨hlevel.toFollows.trans (hlevel.valid.setTop ⟨hnested.size, hbrackets, hfields⟩), rfl⟩

theorem Valid.bracket (h : s.Valid) (c : Char) :
    Reads (s.bracket c) fun t => s.Follows t ∧ t.pos = s.pos := by
  unfold Scanner.bracket
  split_ifs
  · exact h.openBracket
  · exact h.closeBracket c
  · exact reads_fail _ _
  · exact ⟨h.keeps.toFollows, rfl⟩

theorem Follows.peek_eq (h : s.Follows t) (hpos : t.pos = s.pos) : t.peek = s.peek := by
  rw [peek, peek, h.chars, hpos]

theorem Valid.punctuation (h : s.Valid) {c : Char} (hpeek : s.peek = some c) :
    Reads (s.punctuation c) fun t => s.Follows t ∧ s.pos < t.pos := by
  unfold Scanner.punctuation
  split_ifs with hspec
  · have hcount := h.count hpeek
    have hbump := hcount.trans hcount.valid.bump
    have hpos : s.count.pos < s.count.bump.pos := pos_lt_bump (peek_count.trans hpeek)
    rw [pos_count] at hpos
    have hopen : s.count.bump.fstrings ≠ [] := by
      rw [hbump.fstrings]
      rintro hnil
      simp [startsFormatSpec, hnil] at hspec
    have hchange (top : FString) (htop : top.Nested) :
        FString.Nested { top with inLiteral := true, formatSpec := true } :=
      ⟨htop.size, htop.brackets, htop.fields⟩
    refine (hbump.valid.changeTop hopen hchange).mono fun t ht => ?_
    exact ⟨hbump.toFollows.trans ht.1, ht.2.1 ▸ hpos⟩
  · refine (h.bracket c).bind fun t ht => ?_
    have hpeek' : t.peek = some c := (ht.1.peek_eq ht.2).trans hpeek
    have hcount := ht.1.valid.count hpeek'
    have hbump := hcount.trans hcount.valid.bump
    have hpos : t.count.pos < t.count.bump.pos := pos_lt_bump (peek_count.trans hpeek')
    rw [pos_count] at hpos
    exact ⟨ht.1.trans hbump.toFollows, ht.2 ▸ hpos⟩

/-! ## The literal text of an f-string -/

theorem Valid.unterminatedFstring (h : s.Valid) (size : Nat) :
    Reads (s.unterminatedFstring size) fun _ => True :=
  h.detectedLine.bind fun _ _ => trivial

theorem Valid.middleNewline (h : s.Valid) (fstring : FString) :
    Reads (s.middleNewline fstring) fun _ => True := by
  unfold Scanner.middleNewline
  split_ifs
  · trivial
  · exact h.unterminatedFstring fstring.size

/-- A scanner behind `s` that is further or has left the literal text. -/
def Advances (s t : Scanner) : Prop := s.Follows t ∧ (s.pos < t.pos ∨ t.literal = 0)

theorem Valid.middleOpen (h : s.Valid) (hopen : s.fstrings ≠ []) (fstring : FString) {c : Char}
    (hpeek : s.peek = some c) : Reads (s.middleOpen fstring) s.Advances := by
  unfold Scanner.middleOpen
  split_ifs
  · exact ⟨(h.skip 2).toFollows, .inl (h.pos_lt_skip hpeek (by decide))⟩
  · have hchange (top : FString) (htop : top.Nested) :
        FString.Nested { top with formatSpec := false } :=
      ⟨htop.size, htop.brackets, htop.fields⟩
    refine (h.changeTop hopen hchange).bind fun t ht => ?_
    obtain ⟨hfollows, -, top, -, hfstrings⟩ := ht
    have hopen' : t.fstrings ≠ [] := by simp [hfstrings]
    exact (hfollows.valid.openField hopen').mono fun u hu =>
      ⟨hfollows.trans hu.1, .inr hu.2.2⟩

theorem Valid.middleClose (h : s.Valid) (hopen : s.fstrings ≠ []) (fstring : FString)
    (named : Bool) {c : Char} (hpeek : s.peek = some c) :
    Reads (s.middleClose fstring named) s.Advances := by
  unfold Scanner.middleClose
  split_ifs
  · exact ⟨h.bump.toFollows, .inl (pos_lt_bump hpeek)⟩
  · exact ⟨(h.skip 2).toFollows, .inl (h.pos_lt_skip hpeek (by decide))⟩
  · have hchange (top : FString) (htop : top.Nested) :
        FString.Nested { top with inLiteral := false, formatSpec := false } :=
      ⟨htop.size, htop.brackets, htop.fields⟩
    refine (h.changeTop hopen hchange).mono fun t ht => ⟨ht.1, .inr ?_⟩
    obtain ⟨-, -, top, -, hfstrings⟩ := ht
    rw [literal, hfstrings, List.getLast?_concat]
    rfl

theorem Valid.middleEscape (h : s.Valid) (raw : Bool) : s.Keeps (s.middleEscape raw).2 := by
  have hbump := h.bump
  have hagain := hbump.trans hbump.valid.bump
  unfold Scanner.middleEscape
  dsimp only
  split_ifs
  · exact hbump
  · exact hagain.trans hagain.valid.bump
  · exact hagain
  · exact hagain

theorem pos_lt_middleEscape (h : s.Valid) (raw : Bool) {c : Char} (hpeek : s.peek = some c) :
    s.pos < (s.middleEscape raw).2.pos := by
  have hleft := left_middleEscape_lt raw hpeek
  have hkeeps := h.middleEscape raw
  have hpos := hkeeps.valid.pos
  rw [left, left, hkeeps.chars] at hleft
  omega

/-- Where the quotes do not stand, the literal text goes on or is left. -/
theorem Valid.middleLoop (h : s.Valid) (hopen : s.fstrings ≠ []) (fstring : FString)
    (named : Bool) :
    Reads (middleLoop fstring named s) fun t =>
      s.Follows t ∧ (s.atQuotes fstring.quote fstring.size = false → s.Advances t) := by
  fun_induction Scanner.middleLoop fstring named s with
  | case1 named s hquotes =>
    refine ⟨h.keeps.toFollows, fun hnot => ?_⟩
    rw [hquotes] at hnot
    cases hnot
  | case2 named s => exact reads_fail_of s.eofError (h.unterminatedFstring _)
  | case3 named s => exact reads_fail_of id (h.middleNewline fstring)
  | case4 named s _ hpeek =>
    exact (h.middleOpen hopen fstring hpeek).mono fun t ht => ⟨ht.1, fun _ => ht⟩
  | case5 named s _ hpeek =>
    exact (h.middleClose hopen fstring named hpeek).mono fun t ht => ⟨ht.1, fun _ => ht⟩
  | case6 named s _ hpeek _ _ _ ih =>
    have hescape := h.middleEscape fstring.raw
    refine (ih hescape.valid (hescape.fstrings ▸ hopen)).mono fun t ht => ?_
    have hfollows := hescape.toFollows.trans ht.1
    have hpos := Nat.lt_of_lt_of_le (pos_lt_middleEscape h fstring.raw hpeek) ht.1.pos
    exact ⟨hfollows, fun _ => ⟨hfollows, .inl hpos⟩⟩
  | case7 named s c _ hpeek _ _ _ _ ih =>
    have hbump := h.bump
    refine (ih hbump.valid (hbump.fstrings ▸ hopen)).mono fun t ht => ?_
    have hfollows := hbump.toFollows.trans ht.1
    have hpos := Nat.lt_of_lt_of_le (pos_lt_bump hpeek) ht.1.pos
    exact ⟨hfollows, fun _ => ⟨hfollows, .inl hpos⟩⟩

theorem Valid.fstringMiddle (h : s.Valid) (hopen : s.fstrings ≠ []) {fstring : FString}
    (hquotes : s.atQuotes fstring.quote fstring.size = false) :
    Reads (s.fstringMiddle fstring) s.Advances := by
  refine (h.middleLoop hopen fstring false).bind fun t ht => ?_
  have hadvances := ht.2 hquotes
  refine Meets.pure_iff.mpr ?_
  split_ifs with hfurther
  · have hpos : s.pos < s.chars.length :=
      Nat.lt_of_lt_of_le hfurther (ht.1.chars ▸ ht.1.valid.pos)
    have hline := h.line_le (List.getElem?_eq_getElem hpos)
    have hcount := ht.1.valid.countLine (ht.1.chars.symm ▸ hline)
    exact ⟨ht.1.trans hcount.toFollows, .inl (Nat.lt_of_lt_of_le hfurther hcount.pos)⟩
  · exact hadvances

/-! ## Tokens -/

/-- What is left to read, twice, and one more in literal text. -/
def measure (s : Scanner) : Nat := 2 * s.left + s.literal

theorem Follows.measure_lt (h : s.Follows t) (hpos : s.pos < t.pos) : t.measure < s.measure := by
  have hliteral := t.literal_le
  have hend := h.valid.pos
  rw [h.chars] at hend
  rw [measure, measure, left, left, h.chars]
  omega

theorem Advances.measure_lt (h : s.Advances t) (hliteral : s.literal = 1) :
    t.measure < s.measure := by
  obtain ⟨hfollows, hpos | hleft⟩ := h
  · exact hfollows.measure_lt hpos
  · have hpos := hfollows.pos
    rw [measure, measure, left, left, hfollows.chars, hliteral, hleft]
    omega

theorem peek_of_atQuotes {quote : Char} {size : Nat} (hsize : 1 ≤ size)
    (h : s.atQuotes quote size = true) : s.peek = some quote := by
  have hfirst := List.all_eq_true.mp h 0 (List.mem_range.mpr hsize)
  exact beq_iff_eq.mp hfirst

theorem Valid.fstringPart (h : s.Valid) {fstring : FString}
    (htop : s.fstrings.getLast? = some fstring) :
    Reads (s.fstringPart fstring) s.Advances := by
  have hopen : s.fstrings ≠ [] := by
    rintro hnil
    rw [hnil] at htop
    cases htop
  unfold Scanner.fstringPart
  split_ifs with hfield hquotes
  · exact (h.openField hopen).mono fun t ht => ⟨ht.1, .inr ht.2.2⟩
  · have hsize := (h.nested_top htop).size
    have hpeek := peek_of_atQuotes hsize hquotes
    have hcount := h.count hpeek
    have hskip := hcount.trans (hcount.valid.skip fstring.size)
    have hpos : s.count.pos < (s.count.skip fstring.size).pos :=
      hcount.valid.pos_lt_skip (peek_count.trans hpeek) hsize
    rw [pos_count] at hpos
    refine ⟨hskip.toFollows.trans (hskip.valid.setFstrings fun below hbelow => ?_), .inl hpos⟩
    exact hskip.valid.fstrings below (List.mem_of_mem_dropLast hbelow)
  · exact h.fstringMiddle hopen (Bool.eq_false_of_not_eq_true hquotes)

theorem Valid.setLineStart (h : s.Valid) (atLineStart : Bool) : s.Keeps { s with atLineStart } :=
  ⟨⟨⟨h.pos, h.line, h.indents, h.fstrings, h.lines, h.ends⟩, rfl, Nat.le_refl _⟩, rfl⟩

/-- A token ends behind the character it starts with. -/
theorem Valid.token (h : s.Valid) {c : Char} (hpeek : s.peek = some c) :
    Reads (s.token c) fun t => s.Follows t ∧ s.pos < t.pos := by
  unfold Scanner.token
  split_ifs with hcomment hnewline hcontinued hquote hdigit hname
  · subst hcomment
    exact ⟨(h.skipWhile _).toFollows, h.pos_lt_skipWhile hpeek (by decide)⟩
  · have hstart := h.bump.valid.setLineStart true
    exact ⟨(h.bump.trans hstart).toFollows, pos_lt_bump hpeek⟩
  · exact (h.continuation hpeek).mono fun t ht => ⟨ht.1.toFollows, ht.2⟩
  · have hcount := h.count hpeek
    refine (hcount.valid.stringBody c).mono fun t ht => ⟨(hcount.trans ht.1).toFollows, ?_⟩
    exact pos_count (s := s) ▸ ht.2 c (peek_count.trans hpeek)
  · exact (h.number hpeek hdigit).mono fun t ht => ⟨ht.1.toFollows, ht.2⟩
  · exact h.nameOrString hpeek hname
  · exact h.punctuation hpeek

theorem Valid.lineStart (h : s.Valid) : Reads s.lineStart fun t => s.Keeps t := by
  have hstart := h.setLineStart false
  unfold Scanner.lineStart
  split_ifs
  · exact hstart.valid.indentation.mono fun t ht => hstart.trans ht
  · exact h.keeps

theorem Valid.normalToken (h : s.Valid) :
    Reads s.normalToken fun read => s.Follows read.2 ∧ (read.1 = true → s.pos < read.2.pos) := by
  refine h.lineStart.bind fun t ht => ?_
  have hspaces := ht.trans (ht.valid.skipWhile fun c => c == ' ' || c == '\t' || c == '\x0c')
  change s.Keeps t.skipSpaces at hspaces
  dsimp only
  cases hpeek : t.skipSpaces.peek with
  | none =>
    refine (reads_endOfInput t.skipSpaces).bind fun _ _ => ⟨hspaces.toFollows, fun hmore => ?_⟩
    cases hmore
  | some c =>
    refine (hspaces.valid.token hpeek).bind fun u hu => ⟨hspaces.toFollows.trans hu.1, fun _ => ?_⟩
    exact Nat.lt_of_le_of_lt hspaces.pos hu.2

/-- A token keeps the invariant and makes the measure smaller. -/
theorem Valid.nextToken (h : s.Valid) :
    Reads s.nextToken fun read =>
      s.Follows read.2 ∧ (read.1 = true → read.2.measure < s.measure) := by
  have hnormal : Reads s.normalToken fun read =>
      s.Follows read.2 ∧ (read.1 = true → read.2.measure < s.measure) :=
    h.normalToken.mono fun read hread =>
      ⟨hread.1, fun hmore => hread.1.measure_lt (hread.2 hmore)⟩
  unfold Scanner.nextToken
  cases htop : s.fstrings.getLast? with
  | none => exact hnormal
  | some fstring =>
    dsimp only
    split_ifs with hliteral
    · have hone : s.literal = 1 := by
        rw [literal, htop]
        exact if_pos hliteral
      exact (h.fstringPart htop).bind fun t ht => ⟨ht.1, fun _ => ht.measure_lt hone⟩
    · exact hnormal

/-! ## Runs -/

/-- The scanner of a source between two tokens, or behind the last one. -/
inductive Reached (source : Text) : Scanner → Prop
  | new : Reached source (Scanner.new source)
  | next {s t : Scanner} {more : Bool} (hs : Reached source s) (h : s.nextToken = .ok (more, t)) :
      Reached source t

theorem valid_new (source : Text) : (Scanner.new source).Valid where
  pos := Nat.zero_le _
  line := rfl
  indents := ⟨rfl, List.pairwise_singleton _ _⟩
  fstrings := List.forall_mem_nil _
  lines := List.forall_mem_nil _
  ends := (scanBuffer_spec source).2

theorem Reached.follows {source : Text} (h : Reached source s) :
    (Scanner.new source).Follows s := by
  induction h with
  | new => exact (valid_new source).keeps.toFollows
  | next hs hnext ih => exact ih.trans (ih.valid.nextToken.of_ok hnext).1

/-- With more fuel than the measure, a run ends with an outcome that does not depend on the fuel. -/
theorem Valid.run (h : s.Valid) :
    ∃ outcome, (∀ fuel, s.measure < fuel → s.run fuel = some outcome) ∧
      Reads outcome fun lines => ∀ line ∈ lines, 1 ≤ line ∧ line ≤ s.chars.count '\n' := by
  generalize hmeasure : s.measure = size
  induction size using Nat.strong_induction_on generalizing s with
  | _ size ih =>
    have hrun (fuel : Nat) (hfuel : size < fuel) : ∃ rest, size ≤ rest ∧ fuel = rest + 1 :=
      ⟨fuel - 1, by omega, by omega⟩
    have hnext := h.nextToken
    cases hread : s.nextToken with
    | error halt =>
      refine ⟨.error halt, fun fuel hfuel => ?_, hnext.of_error hread⟩
      obtain ⟨rest, -, rfl⟩ := hrun fuel hfuel
      rw [Scanner.run, hread]
    | ok read =>
      obtain ⟨more, t⟩ := read
      obtain ⟨hfollows, hless⟩ := hnext.of_ok hread
      cases more with
      | false =>
        refine ⟨.ok t.lines, fun fuel hfuel => ?_, ?_⟩
        · obtain ⟨rest, -, rfl⟩ := hrun fuel hfuel
          rw [Scanner.run, hread]
        · exact fun line hline => hfollows.chars ▸ hfollows.valid.lines line hline
      | true =>
        have hsmaller : t.measure < size := hmeasure ▸ hless rfl
        obtain ⟨outcome, houtcome, hlines⟩ := ih t.measure hsmaller hfollows.valid rfl
        refine ⟨outcome, fun fuel hfuel => ?_, hfollows.chars ▸ hlines⟩
        obtain ⟨rest, hrest, rfl⟩ := hrun fuel hfuel
        rw [Scanner.run, hread]
        exact houtcome rest (Nat.lt_of_lt_of_le hsmaller hrest)

end Scanner

open Scanner in
/-- Every source has an outcome that no further fuel changes: its lines, or an error of the source.
Between two tokens the stacks have their shape, and each counted line is one of the source's. -/
theorem pythonSloc_total (source : Text) :
    (∃ outcome,
      (∀ fuel, 2 * (scanBuffer source).1.length < fuel → pythonSloc source fuel = some outcome) ∧
      Reads outcome fun lines =>
        ∀ line ∈ lines, 1 ≤ line ∧ line ≤ (Text.splitlines source true).length) ∧
    ∀ s, Reached source s →
      Stacked s.indents ∧ (∀ fstring ∈ s.fstrings, fstring.Nested) ∧ 1 ≤ s.line ∧
        ∀ line ∈ s.lines, 1 ≤ line ∧ line ≤ (Text.splitlines source true).length := by
  have hlines : (scanBuffer source).1.count '\n' ≤ (Text.splitlines source true).length :=
    (scanBuffer_spec source).1
  refine ⟨?_, fun s hs => ?_⟩
  · obtain ⟨outcome, hrun, hreads⟩ := (valid_new source).run
    refine ⟨outcome.map List.toFinset, fun fuel hfuel => ?_, ?_⟩
    · have hmeasure : (Scanner.new source).measure = 2 * (scanBuffer source).1.length := rfl
      rw [pythonSloc, hrun fuel (hmeasure ▸ hfuel)]
      rfl
    · cases outcome with
      | error halt => exact hreads
      | ok lines =>
        intro line hline
        obtain ⟨hone, hcount⟩ := hreads line (List.mem_toFinset.mp hline)
        exact ⟨hone, hcount.trans hlines⟩
  · have hfollows := hs.follows
    have hvalid := hfollows.valid
    refine ⟨hvalid.indents, hvalid.fstrings, ?_, fun line hline => ?_⟩
    · exact hvalid.line ▸ Nat.le_add_right 1 _
    · obtain ⟨hone, hcount⟩ := hvalid.lines line hline
      rw [hfollows.chars] at hcount
      exact ⟨hone, hcount.trans hlines⟩

end Agentless.Metrics.Tokenize
