import Agentless.Json.Spell

/-!
# What the reader can produce

The values that the grammar reads from a text: strings of code points in which no high surrogate
stands before a low one, because the reader joins such a pair, objects with distinct keys,
integers whose text reads as themselves, and containers nested within the depth they were read at.
-/

namespace Agentless.Json

open Ascii

/-! ## Strings -/

/-- No high surrogate stands right before a low one. -/
def Unpaired (codes : List Nat) : Prop :=
  codes.IsChain fun code next => ¬ (Grammar.isHigh code ∧ Grammar.isLow next)

/-- The code points of a string that the reader can produce. -/
structure CodesOf (codes : List Nat) (bytes : Bytes) : Prop where
  encoded : bytes = codes.flatMap CodePointString.encoded
  bound : ∀ code ∈ codes, code ≤ 0x10ffff
  unpaired : Unpaired codes

theorem hex4_lt {a b c d : UInt8} {code : Nat} (h : Grammar.hex4 a b c d = some code) :
    code < 0x10000 ∧ a < 0x80 ∧ b < 0x80 ∧ c < 0x80 ∧ d < 0x80 := by
  obtain ⟨a', ha, h⟩ := Option.bind_eq_some_iff.mp h
  obtain ⟨b', hb, h⟩ := Option.bind_eq_some_iff.mp h
  obtain ⟨c', hc, h⟩ := Option.bind_eq_some_iff.mp h
  obtain ⟨d', hd, h⟩ := Option.bind_eq_some_iff.mp h
  have := hexValue_lt ha
  have := hexValue_lt hb
  have := hexValue_lt hc
  have := hexValue_lt hd
  simp only [Option.pure_def, Option.some.injEq] at h
  exact ⟨by omega, hexValue_ascii ha, hexValue_ascii hb, hexValue_ascii hc, hexValue_ascii hd⟩

/-- What a reader takes off UTF-8 text is ASCII, so the rest is UTF-8 text again. -/
def TakesAscii (input rest : Bytes) : Prop :=
  ∃ part, input = part ++ rest ∧ ∀ byte ∈ part, byte < 0x80

theorem TakesAscii.trans {input middle rest : Bytes} (h : TakesAscii input middle)
    (h' : TakesAscii middle rest) : TakesAscii input rest := by
  obtain ⟨part, rfl, hpart⟩ := h
  obtain ⟨part', rfl, hpart'⟩ := h'
  refine ⟨part ++ part', (List.append_assoc ..).symm, fun byte hbyte => ?_⟩
  exact (List.mem_append.mp hbyte).elim (hpart byte) (hpart' byte)

theorem TakesAscii.isUtf8 {input rest : Bytes} (h : TakesAscii input rest) (hinput : IsUtf8 input) :
    IsUtf8 rest := by
  obtain ⟨part, rfl, hpart⟩ := h
  exact hinput.drop_ascii hpart

theorem takesAscii_cons {byte : UInt8} (hbyte : byte < 0x80) (rest : Bytes) :
    TakesAscii (byte :: rest) rest := ⟨[byte], rfl, by simpa using hbyte⟩

theorem unit_takes {input rest : Bytes} {code : Nat} (h : Grammar.unit input = some (code, rest)) :
    code < 0x10000 ∧ TakesAscii input rest := by
  unfold Grammar.unit at h
  split at h
  · rename_i letter a b c d rest'
    split_ifs at h with hletter
    obtain ⟨_, hhex, heq⟩ := Option.map_eq_some_iff.mp h
    cases heq
    obtain ⟨hlt, ha, hb, hc, hd⟩ := hex4_lt hhex
    refine ⟨hlt, [letter, a, b, c, d], rfl, ?_⟩
    have hu : letter < 0x80 := by rw [hletter]; decide
    simp [hu, ha, hb, hc, hd]
  · cases h

theorem unescaped_bound {letter : UInt8} {code : Nat} (h : Grammar.unescaped letter = some code) :
    code < 0x80 ∧ letter < 0x80 := by
  unfold Grammar.unescaped at h
  split_ifs at h <;> cases h <;> subst letter <;> decide

theorem lowEscape_takes {input rest : Bytes} {low : Nat}
    (h : Grammar.lowEscape input = some (low, rest)) :
    Grammar.isLow low ∧ TakesAscii input rest := by
  unfold Grammar.lowEscape at h
  split_ifs at h with hhead
  obtain ⟨hunit, hlow⟩ := Option.filter_eq_some_iff.mp h
  refine ⟨hlow, ?_⟩
  rw [← List.cons_head?_tail hhead]
  exact (takesAscii_cons (by decide) _).trans (unit_takes hunit).2

theorem joined_bounds {high low : Nat} (hhigh : Grammar.isHigh high) (hlow : Grammar.isLow low) :
    0x10000 ≤ Grammar.joined high low ∧ Grammar.joined high low ≤ 0x10ffff := by
  simp only [Grammar.isHigh, Grammar.isLow, Bool.and_eq_true, decide_eq_true_eq] at hhigh hlow
  unfold Grammar.joined
  omega

theorem not_surrogate (code : Nat) (h : code < 0xd800 ∨ 0xdfff < code) :
    ¬ Grammar.isHigh code ∧ ¬ Grammar.isLow code := by
  simp only [Grammar.isHigh, Grammar.isLow, Bool.and_eq_true, decide_eq_true_eq]
  omega

/-- What an escape gives: a code point, and if it is a high surrogate alone, no low one after it;
if it is a low one alone, the text was the escape of a low surrogate. -/
theorem escape_spec {input rest : Bytes} {code : Nat}
    (h : Grammar.escape input = some (code, rest)) :
    code ≤ 0x10ffff ∧ TakesAscii input rest ∧
      (Grammar.isHigh code → Grammar.lowEscape rest = none) ∧
      (Grammar.isLow code → (Grammar.lowEscape (backslash :: input)).isSome) := by
  cases hunit : Grammar.unit input with
  | some result =>
    obtain ⟨unit, rest'⟩ := result
    obtain ⟨hlt, htakes⟩ := unit_takes hunit
    rw [escape_of_unit hunit] at h
    split at h
    · rename_i low rest'' hlow
      split_ifs at hlow with hhigh
      obtain ⟨hisLow, htakes'⟩ := lowEscape_takes hlow
      have hbounds := joined_bounds hhigh hisLow
      obtain ⟨rfl, rfl⟩ := Prod.mk.injEq .. ▸ Option.some.injEq .. ▸ h
      have hnot := not_surrogate (Grammar.joined unit low) (by omega)
      exact ⟨hbounds.2, htakes.trans htakes', fun h => absurd h hnot.1, fun h => absurd h hnot.2⟩
    · rename_i hnone
      obtain ⟨rfl, rfl⟩ := Prod.mk.injEq .. ▸ Option.some.injEq .. ▸ h
      refine ⟨by omega, htakes, fun hhigh => ?_, fun hlow => ?_⟩
      · rwa [if_pos hhigh] at hnone
      · simp [lowEscape_backslash, hunit, Option.filter, hlow]
  | none =>
    unfold Grammar.escape at h
    rw [hunit] at h
    dsimp only at h
    split at h
    · cases h
    · obtain ⟨_, hletter, heq⟩ := Option.map_eq_some_iff.mp h
      cases heq
      obtain ⟨hcode, hletter⟩ := unescaped_bound hletter
      have hnot := not_surrogate code (by omega)
      exact ⟨by omega, takesAscii_cons hletter _, fun h => absurd h hnot.1, fun h => absurd h hnot.2⟩

theorem CodesOf.nil : CodesOf [] [] := ⟨rfl, by simp, List.isChain_nil⟩

theorem CodesOf.cons {code : Nat} {codes : List Nat} {bytes : Bytes} (h : CodesOf codes bytes)
    (hcode : code ≤ 0x10ffff)
    (hhead : ∀ next, codes.head? = some next → ¬ (Grammar.isHigh code ∧ Grammar.isLow next)) :
    CodesOf (code :: codes) (CodePointString.encoded code ++ bytes) where
  encoded := by rw [List.flatMap_cons, h.encoded]
  bound := by simpa using ⟨hcode, h.bound⟩
  unpaired := List.isChain_cons.mpr ⟨hhead, h.unpaired⟩

theorem not_endsChunk {byte : UInt8} (h : 0x80 ≤ byte) : endsChunk byte = false := by
  simp only [endsChunk, Bool.or_eq_false_iff, beq_eq_false_iff_ne, decide_eq_false_iff_not]
  rw [UInt8.le_iff_toNat_le] at *
  refine ⟨⟨?_, ?_⟩, ?_⟩
  · rintro rfl
    exact absurd h (by decide)
  · rintro rfl
    exact absurd h (by decide)
  · simp only [UInt8.reduceToNat] at h ⊢
    omega

theorem toNat_not_surrogate (c : Char) :
    c.toNat ≤ 0x10ffff ∧ ¬ Grammar.isHigh c.toNat ∧ ¬ Grammar.isLow c.toNat := by
  have hvalid : c.toNat.isValidChar := c.valid
  simp only [Nat.isValidChar] at hvalid
  exact ⟨by omega, not_surrogate c.toNat (by omega)⟩

/-- A character that is no quote, backslash or control character stands for itself. -/
theorem chars_char {c : Char} (h : ∀ byte ∈ String.utf8EncodeChar c, endsChunk byte = false)
    (rest : Bytes) :
    Grammar.chars (String.utf8EncodeChar c ++ rest) =
      (Grammar.chars rest).map fun (bytes, rest) =>
        (CodePointString.encoded c.toNat ++ bytes, rest) := by
  rw [chars_chunk h, CodePointString.encoded_toNat]

theorem chars_cases {c : Char} {more bytes rest : Bytes}
    (h : Grammar.chars (String.utf8EncodeChar c ++ more) = some (bytes, rest)) :
    (String.utf8EncodeChar c = [quote] ∧ bytes = [] ∧ rest = more) ∨
      (String.utf8EncodeChar c = [backslash] ∧ ∃ code after bytes',
        Grammar.escape more = some (code, after) ∧ Grammar.chars after = some (bytes', rest) ∧
          bytes = CodePointString.encoded code ++ bytes') ∨
      ∃ bytes', Grammar.chars more = some (bytes', rest) ∧
        bytes = CodePointString.encoded c.toNat ++ bytes' := by
  have hplain (hends : ∀ byte ∈ String.utf8EncodeChar c, endsChunk byte = false) :
      ∃ bytes', Grammar.chars more = some (bytes', rest) ∧
        bytes = CodePointString.encoded c.toNat ++ bytes' := by
    rw [chars_char hends] at h
    obtain ⟨⟨bytes', _⟩, hchars, heq⟩ := Option.map_eq_some_iff.mp h
    cases heq
    exact ⟨bytes', hchars, rfl⟩
  obtain ⟨-, hencode⟩ | hhigh := utf8EncodeChar_cases c
  · generalize UInt8.ofNat c.toNat = byte at hencode
    rw [hencode] at hplain ⊢
    by_cases hquote : byte = quote
    · subst hquote
      simp only [hencode, List.singleton_append, Grammar.chars, if_true, Option.some.injEq,
        Prod.mk.injEq] at h
      exact .inl ⟨rfl, h.1.symm, h.2.symm⟩
    by_cases hbackslash : byte = backslash
    · subst hbackslash
      rw [hencode, List.singleton_append, chars_backslash] at h
      obtain ⟨⟨code, after⟩, hescape, h⟩ := Option.bind_eq_some_iff.mp h
      obtain ⟨⟨bytes', _⟩, hchars, heq⟩ := Option.map_eq_some_iff.mp h
      cases heq
      exact .inr (.inl ⟨rfl, code, after, bytes', hescape, hchars, rfl⟩)
    by_cases hcontrol : byte ≤ 0x1f
    · simp [hencode, Grammar.chars, hquote, hbackslash, hcontrol] at h
    · have hends : 0x1f < byte := UInt8.not_le.mp hcontrol
      exact .inr (.inr (hplain (by simpa [endsChunk, hquote, hbackslash] using hends)))
  · exact .inr (.inr (hplain fun byte hbyte => not_endsChunk (hhigh byte hbyte)))

/-- The strings that the grammar reads from UTF-8 text, and what is left of it. A string that
starts with a low surrogate was read from its escape, so no high one before it is left alone. -/
theorem chars_spec {input bytes rest : Bytes} (hinput : IsUtf8 input)
    (h : Grammar.chars input = some (bytes, rest)) :
    IsUtf8 rest ∧ ∃ codes, CodesOf codes bytes ∧
      ∀ code, codes.head? = some code → Grammar.isLow code → (Grammar.lowEscape input).isSome := by
  induction hlength : input.length using Nat.strong_induction_on generalizing input bytes with
  | _ size ih =>
    obtain ⟨text, rfl⟩ := hinput
    cases text with
    | nil => simp [Grammar.chars] at h
    | cons c text =>
      rw [utf8_cons] at h hlength ⊢
      have hpos := List.length_pos_iff.mpr (String.utf8EncodeChar_ne_nil (c := c))
      rw [List.length_append] at hlength
      obtain ⟨-, rfl, rfl⟩ | ⟨hencode, code, after, bytes', hescape, hchars, rfl⟩ |
        ⟨bytes', hchars, rfl⟩ := chars_cases h
      · exact ⟨⟨text, rfl⟩, [], CodesOf.nil, by simp⟩
      · obtain ⟨hcode, htakes, hhigh, hlow⟩ := escape_spec hescape
        have hshrinks := Grammar.escape_shrinks hescape
        obtain ⟨hrest, codes, hcodes, hfirst⟩ :=
          ih after.length (by omega) (htakes.isUtf8 ⟨text, rfl⟩) hchars rfl
        refine ⟨hrest, code :: codes, hcodes.cons hcode ?_, ?_⟩
        · rintro next hnext ⟨hcodeHigh, hnextLow⟩
          have hsome := hfirst next hnext hnextLow
          rw [hhigh hcodeHigh] at hsome
          cases hsome
        · intro first hhead hfirstLow
          obtain rfl := Option.some.inj hhead
          rw [hencode]
          exact hlow hfirstLow
      · obtain ⟨hbound, hnotHigh, hnotLow⟩ := toNat_not_surrogate c
        obtain ⟨hrest, codes, hcodes, -⟩ := ih _ (by omega) ⟨text, rfl⟩ hchars rfl
        refine ⟨hrest, c.toNat :: codes, hcodes.cons hbound ?_, ?_⟩
        · exact fun next _ hpair => hnotHigh hpair.1
        · intro first hhead hfirstLow
          obtain rfl := Option.some.inj hhead
          exact absurd hfirstLow hnotLow

/-! ## Numbers and words -/

theorem whole_digits {input whole rest : Bytes} (h : Grammar.whole input = some (whole, rest)) :
    whole.all isDigit := by
  unfold Grammar.whole at h
  split at h
  · cases h
  · split_ifs at h with hzero hdigit
    · cases h
      decide
    · cases h
      rw [List.all_cons, hdigit, List.all_takeWhile]
      rfl

theorem digits_digits {input digits rest : Bytes} (h : Grammar.digits input = some (digits, rest)) :
    digits.all isDigit := by
  unfold Grammar.digits at h
  split_ifs at h
  cases h
  exact List.all_takeWhile

theorem fraction_ascii (input : Bytes) : ∀ byte ∈ (Grammar.fraction input).1, byte < 0x80 := by
  unfold Grammar.fraction
  split
  · rename_i digits rest hdigits
    split_ifs at hdigits
    intro byte hbyte
    obtain rfl | hbyte := List.mem_cons.mp hbyte
    · decide
    · exact isDigit_ascii (List.all_eq_true.mp (digits_digits hdigits) byte hbyte)
  · simp

theorem exponent_ascii (input : Bytes) : ∀ byte ∈ (Grammar.exponent input).1, byte < 0x80 := by
  unfold Grammar.exponent
  split
  · simp
  · rename_i mark rest
    dsimp only
    split
    · rename_i digits rest' hdigits
      split_ifs at hdigits with hmark
      intro byte hbyte
      simp only [List.mem_cons, List.mem_append] at hbyte
      obtain rfl | hsign | hbyte := hbyte
      · obtain h | h := Bool.or_eq_true_iff.mp hmark <;> rw [eq_of_beq h] <;> decide
      · have hbyte := List.all_eq_true.mp (optional_all Grammar.isSign rest) byte hsign
        obtain h | h := Bool.or_eq_true_iff.mp hbyte <;> rw [eq_of_beq h] <;> decide
      · exact isDigit_ascii (List.all_eq_true.mp (digits_digits hdigits) byte hbyte)
    · simp

theorem numeral_takes {input rest : Bytes} {numeral : Grammar.Numeral}
    (h : Grammar.numeral input = some (numeral, rest)) : TakesAscii input rest := by
  refine ⟨numeral.literal, (Grammar.numeral_append h).2.symm, fun byte hbyte => ?_⟩
  obtain ⟨⟨whole, afterWhole⟩, hwhole, heq⟩ := Option.map_eq_some_iff.mp h
  cases heq
  simp only [Grammar.Numeral.literal, List.mem_append] at hbyte
  obtain hsign | hbyte | hbyte | hbyte := hbyte
  · have hminus := List.all_eq_true.mp (optional_all (· == minus) input) byte hsign
    rw [eq_of_beq hminus]
    decide
  · exact isDigit_ascii (List.all_eq_true.mp (whole_digits hwhole) byte hbyte)
  · exact fraction_ascii _ byte hbyte
  · exact exponent_ascii _ byte hbyte

section Values

variable {φ : Type} (f64 : F64 φ)

/-- A number or a word is read from a text that holds nothing else. -/
theorem parse_of_scalar {text : Bytes} {value : JsonValue φ}
    (h : Grammar.scalar f64 text = some (value, [])) : parse text f64 = .ok value := by
  have hheads : ∀ byte, startsScalar byte = false → text.head? ≠ some byte := by
    intro byte hbyte hhead
    cases text with
    | nil => cases hhead
    | cons first rest =>
      obtain rfl := Option.some.inj hhead
      rw [scalar_eq_none f64 hbyte] at h
      cases h
  have hskip : Grammar.skipSpace text = text := by
    cases text with
    | nil => rfl
    | cons first rest =>
      refine skipSpace_cons ?_ rest
      by_contra hblank
      refine hheads first ?_ rfl
      simp only [Bool.not_eq_false, isWhitespace, Bool.or_eq_true, beq_iff_eq] at hblank
      obtain ((rfl | rfl) | rfl) | rfl := hblank <;> decide
  have hvalue := value_run f64 0
  rw [Nat.sub_zero] at hvalue
  rw [← Except.toOption_eq_some_iff, parse_toOption, Grammar.document, hskip, hvalue,
    Grammar.valueOf, if_neg (hheads _ (by decide)), if_neg (hheads _ (by decide)),
    if_neg (hheads _ (by decide)), h]
  rfl

theorem parse_of_number {text : Bytes} {value : JsonValue φ} (hstarts : startsNumber text)
    (h : Grammar.number f64 text = some (value, [])) : parse text f64 = .ok value := by
  refine parse_of_scalar f64 ?_
  rw [Grammar.scalar, find?_constants_of_startsNumber f64 hstarts]
  exact h

theorem parse_of_constant (word : Bytes) (value : JsonValue φ)
    (h : (word, value) ∈ constants f64) : parse word f64 = .ok value := by
  have hfind := find?_constants_append f64 h []
  rw [List.append_nil] at hfind
  refine parse_of_scalar f64 ?_
  rw [Grammar.scalar, hfind]
  simp

/-- The text of an integer that was read is read as it again. -/
theorem number_rereads {input rest digits : Bytes}
    (h : Grammar.number f64 input = some (.int digits, rest)) :
    Rereads f64 (.int digits) digits := by
  obtain ⟨⟨numeral, rest'⟩, hnumeral, h⟩ := Option.bind_eq_some_iff.mp h
  obtain ⟨value, hvalue, heq⟩ := Option.map_eq_some_iff.mp h
  cases heq
  by_cases hzero : digits = [zero]
  · subst hzero
    exact parse_of_number f64 rfl rfl
  · have hdigits : numeral.literal = digits := by
      unfold Grammar.Numeral.value at hvalue
      dsimp only at hvalue
      split_ifs at hvalue with hinteger hlong hminus
      · cases hvalue
        exact absurd rfl hzero
      · cases hvalue
        rfl
      · obtain ⟨_, -, heq⟩ := Option.map_eq_some_iff.mp hvalue
        cases heq
    have hagain := numeral_literal_append hnumeral stops_nil
    have hstarts := startsNumber_literal hnumeral []
    rw [List.append_nil, hdigits] at hagain hstarts
    refine parse_of_number f64 hstarts ?_
    simp [Grammar.number, hagain, hvalue]

theorem constants_ascii {constant : Bytes × JsonValue φ} (h : constant ∈ constants f64) :
    ∀ byte ∈ constant.1, byte < 0x80 := by
  have hwords : ∀ word ∈ (constants f64).map Prod.fst, ∀ byte ∈ word, byte < 0x80 := by
    simp only [constants, List.map_cons, List.map_nil]
    decide +kernel
  exact hwords _ (List.mem_map_of_mem h)

theorem scalar_takes {input rest : Bytes} {value : JsonValue φ}
    (h : Grammar.scalar f64 input = some (value, rest)) : TakesAscii input rest := by
  unfold Grammar.scalar at h
  split at h
  · rename_i word value' hfind
    cases h
    have hpre : word <+: input := by simpa using List.find?_some hfind
    obtain ⟨rest, rfl⟩ := hpre
    exact ⟨word, by simp, constants_ascii f64 (List.mem_of_find?_eq_some hfind)⟩
  · obtain ⟨⟨numeral, rest'⟩, hnumeral, h⟩ := Option.bind_eq_some_iff.mp h
    obtain ⟨_, -, heq⟩ := Option.map_eq_some_iff.mp h
    cases heq
    exact numeral_takes hnumeral

/-! ## Values -/

/-- A string of code points that the reader can produce. -/
def IsRead (string : CodePointString) : Prop := ∃ codes, CodesOf codes string.bytes

/-- A value that the reader can produce with at most `depth` containers around any part of it. -/
def Readable : Nat → JsonValue φ → Prop
  | depth + 1, .array items => ∀ item ∈ items, Readable depth item
  | depth + 1, .object pairs =>
    (pairs.map Prod.fst).Nodup ∧ ∀ pair ∈ pairs, IsRead pair.1 ∧ Readable depth pair.2
  | _, .str string => IsRead string
  | 0, .array _ | 0, .object _ => False
  | _, .int digits => Rereads f64 (.int digits) digits
  | _, .null | _, .bool _ | _, .float _ => True

theorem skipSpace_takes (input : Bytes) : TakesAscii input (Grammar.skipSpace input) := by
  refine ⟨input.takeWhile isWhitespace, List.takeWhile_append_dropWhile.symm, ?_⟩
  intro byte hbyte
  have hblank := List.all_eq_true.mp List.all_takeWhile byte hbyte
  simp only [isWhitespace, Bool.or_eq_true, beq_iff_eq] at hblank
  obtain ((rfl | rfl) | rfl) | rfl := hblank <;> decide

theorem tail_takes {input : Bytes} {byte : UInt8} (h : input.head? = some byte)
    (hbyte : byte < 0x80) : TakesAscii input input.tail := by
  cases input with
  | nil => cases h
  | cons first rest =>
    obtain rfl := Option.some.inj h
    exact takesAscii_cons hbyte rest

/-- The pairs that an object keeps have distinct keys and are among those read. -/
theorem lastValues_spec (pairs : List (CodePointString × JsonValue φ)) :
    ((Grammar.lastValues pairs).map Prod.fst).Nodup ∧
      ∀ pair ∈ Grammar.lastValues pairs, pair ∈ pairs := by
  refine ⟨?_, fun pair hpair => ?_⟩
  · refine (Assoc.nodup_eraseDups (pairs.map Prod.fst)).sublist ?_
    exact Assoc.map_fst_filterMap_sublist (fun key => pairs.reverse.lookup key) _
  · obtain ⟨key, -, heq⟩ := List.mem_filterMap.mp hpair
    obtain ⟨value, hlookup, rfl⟩ := Option.map_eq_some_iff.mp heq
    obtain ⟨before, after, heq, -⟩ := List.lookup_eq_some_iff.mp hlookup
    exact List.mem_reverse.mp (by simp [heq])

theorem container_readable {depth : Nat} {closer : UInt8} (hcloser : closer < 0x80)
    {empty value : JsonValue φ} {items : Bytes → Option (JsonValue φ × Bytes)} {input rest : Bytes}
    (hempty : Readable f64 depth empty)
    (hitems : ∀ {input}, IsUtf8 input → items input = some (value, rest) →
      Readable f64 depth value ∧ IsUtf8 rest)
    (hinput : IsUtf8 input) (h : Grammar.container closer empty items input = some (value, rest)) :
    Readable f64 depth value ∧ IsUtf8 rest := by
  have hskip := (skipSpace_takes input).isUtf8 hinput
  unfold Grammar.container at h
  dsimp only at h
  split_ifs at h with hhead
  · cases h
    exact ⟨hempty, (tail_takes hhead hcloser).isUtf8 hskip⟩
  · exact hitems hskip h

theorem sepBy_readable {α : Type} {gives : α → Prop} {closer : UInt8} (hcloser : closer < 0x80)
    (item : Parser UInt8 α)
    (hitem : ∀ {input value rest}, IsUtf8 input → item.run input = some (value, rest) →
      gives value ∧ IsUtf8 rest) {input rest : Bytes} {values : List α} (hinput : IsUtf8 input)
    (h : Parser.sepBy isWhitespace comma closer item input = some (values, rest)) :
    (∀ value ∈ values, gives value) ∧ IsUtf8 rest := by
  refine Parser.sepBy_invariant isWhitespace comma closer item hitem ?_ ?_ hinput h
  · exact fun hinput => (skipSpace_takes _).isUtf8 hinput
  · rintro symbol rest (rfl | rfl) hsymbol
    · exact hsymbol.tail (by decide)
    · exact hsymbol.tail hcloser

section Item

variable {depth : Nat}
  (ih : ∀ {input rest : Bytes} {value : JsonValue φ}, IsUtf8 input →
    (Grammar.value f64 depth).run input = some (value, rest) →
      Readable f64 depth value ∧ IsUtf8 rest)

include ih

theorem member_readable {input rest : Bytes} {pair : CodePointString × JsonValue φ}
    (hinput : IsUtf8 input)
    (h : Grammar.member (Grammar.value f64 depth) input = some (pair, rest)) :
    (IsRead pair.1 ∧ Readable f64 depth pair.2) ∧ IsUtf8 rest := by
  unfold Grammar.member at h
  split_ifs at h with hquote
  obtain ⟨⟨key, after⟩, hkey, h⟩ := Option.bind_eq_some_iff.mp h
  dsimp only at h
  split_ifs at h with hcolon
  obtain ⟨⟨value, _⟩, hvalue, heq⟩ := Option.map_eq_some_iff.mp h
  cases heq
  obtain ⟨hafter, codes, hcodes, -⟩ :=
    chars_spec ((tail_takes hquote (by decide)).isUtf8 hinput) hkey
  have htakes := ((skipSpace_takes after).trans (tail_takes hcolon (by decide))).trans
    (skipSpace_takes _)
  obtain ⟨hreadable, hrest⟩ := ih (htakes.isUtf8 hafter) hvalue
  exact ⟨⟨⟨codes, hcodes⟩, hreadable⟩, hrest⟩

theorem array_readable {input rest : Bytes} {value : JsonValue φ} (hinput : IsUtf8 input)
    (h : Grammar.array (Grammar.value f64 depth) input = some (value, rest)) :
    Readable f64 (depth + 1) value ∧ IsUtf8 rest := by
  refine container_readable f64 (by decide) (by simp [Readable]) (fun hinput h => ?_) hinput h
  obtain ⟨⟨items, _⟩, hitems, heq⟩ := Option.map_eq_some_iff.mp h
  cases heq
  exact sepBy_readable (by decide) (Grammar.value f64 depth) ih hinput hitems

theorem object_readable {input rest : Bytes} {value : JsonValue φ} (hinput : IsUtf8 input)
    (h : Grammar.object (Grammar.value f64 depth) input = some (value, rest)) :
    Readable f64 (depth + 1) value ∧ IsUtf8 rest := by
  refine container_readable f64 (by decide) (by simp [Readable]) (fun hinput h => ?_) hinput h
  obtain ⟨⟨pairs, _⟩, hpairs, heq⟩ := Option.map_eq_some_iff.mp h
  cases heq
  obtain ⟨hread, hrest⟩ :=
    sepBy_readable (by decide) (Grammar.memberParser (Grammar.value f64 depth))
      (member_readable f64 ih) hinput hpairs
  obtain ⟨hnodup, hsubset⟩ := lastValues_spec pairs
  exact ⟨⟨hnodup, fun pair hpair => hread pair (hsubset pair hpair)⟩, hrest⟩

end Item

theorem scalar_readable {input rest : Bytes} {value : JsonValue φ}
    (h : Grammar.scalar f64 input = some (value, rest)) (depth : Nat) : Readable f64 depth value := by
  unfold Grammar.scalar at h
  split at h
  · rename_i word value' hfind
    cases h
    have hmem := List.mem_of_find?_eq_some hfind
    simp only [constants, List.mem_cons, List.not_mem_nil, or_false, Prod.mk.injEq] at hmem
    obtain ⟨-, rfl⟩ | ⟨-, rfl⟩ | ⟨-, rfl⟩ | ⟨-, rfl⟩ | ⟨-, rfl⟩ | ⟨-, rfl⟩ := hmem <;>
      cases depth <;> trivial
  · cases value with
    | int digits => cases depth <;> exact number_rereads f64 h
    | float number => cases depth <;> trivial
    | _ =>
      obtain ⟨⟨numeral, rest'⟩, -, h⟩ := Option.bind_eq_some_iff.mp h
      obtain ⟨value, hvalue, heq⟩ := Option.map_eq_some_iff.mp h
      cases heq
      unfold Grammar.Numeral.value at hvalue
      dsimp only at hvalue
      split_ifs at hvalue
      · cases hvalue
      · cases hvalue
      · obtain ⟨_, -, heq⟩ := Option.map_eq_some_iff.mp hvalue
        cases heq

theorem valueOf_readable {depth : Nat} {inner : Option (Parser UInt8 (JsonValue φ))}
    (hinner : ∀ item ∈ inner, ∀ {input rest : Bytes} {value : JsonValue φ}, IsUtf8 input →
      Grammar.array item input = some (value, rest) ∨ Grammar.object item input = some (value, rest) →
        Readable f64 depth value ∧ IsUtf8 rest)
    {input rest : Bytes} {value : JsonValue φ} (hinput : IsUtf8 input)
    (h : Grammar.valueOf f64 inner input = some (value, rest)) :
    Readable f64 depth value ∧ IsUtf8 rest := by
  unfold Grammar.valueOf at h
  split_ifs at h with hquote hbracket hbrace
  · obtain ⟨⟨bytes, _⟩, hchars, heq⟩ := Option.map_eq_some_iff.mp h
    cases heq
    obtain ⟨hrest, codes, hcodes, -⟩ :=
      chars_spec ((tail_takes hquote (by decide)).isUtf8 hinput) hchars
    refine ⟨?_, hrest⟩
    cases depth <;> exact ⟨codes, hcodes⟩
  · obtain ⟨item, hitem, h⟩ := Option.bind_eq_some_iff.mp h
    exact hinner item hitem ((tail_takes hbracket (by decide)).isUtf8 hinput) (.inl h)
  · obtain ⟨item, hitem, h⟩ := Option.bind_eq_some_iff.mp h
    exact hinner item hitem ((tail_takes hbrace (by decide)).isUtf8 hinput) (.inr h)
  · exact ⟨scalar_readable f64 h depth, (scalar_takes f64 h).isUtf8 hinput⟩

theorem value_readable (depth : Nat) {input rest : Bytes} {value : JsonValue φ}
    (hinput : IsUtf8 input) (h : (Grammar.value f64 depth).run input = some (value, rest)) :
    Readable f64 depth value ∧ IsUtf8 rest := by
  induction depth generalizing input rest value with
  | zero => exact valueOf_readable f64 (by simp) hinput h
  | succ depth ih =>
    refine valueOf_readable f64 ?_ hinput h
    rintro item hitem input rest value hinput (h | h)
    · obtain rfl := Option.some.inj hitem
      exact array_readable f64 ih hinput h
    · obtain rfl := Option.some.inj hitem
      exact object_readable f64 ih hinput h

/-- What the reader produces from a text. -/
theorem parse_readable {text : Text} {value : JsonValue φ} (h : parse (utf8 text) f64 = .ok value) :
    Readable f64 maxDepth value := by
  have hdocument : Grammar.document f64 (utf8 text) = some value := by
    rw [← parse_toOption, h]
    rfl
  obtain ⟨⟨value', rest⟩, hrun, hend⟩ := Option.bind_eq_some_iff.mp hdocument
  dsimp only at hend
  split_ifs at hend
  cases hend
  exact (value_readable f64 maxDepth ((skipSpace_takes _).isUtf8 ⟨text, rfl⟩) hrun).1

end Values

end Agentless.Json
