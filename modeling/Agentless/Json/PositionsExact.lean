import Agentless.Json.ParseExact
import Agentless.Json.Positions

/-!
# The place of every error

Each function of the reader, with checked slices and without: from a place that the text leads to
it comes to another at a boundary, no check fails on the way, and what it refuses offends at the
place that the error names. The loops of `string` and of `document` move on at every turn, so the
bytes of the text are fuel enough for both.
-/

namespace Agentless.Json

open Ascii Course

variable {φ : Type}

section Reader

variable {text : Text} {f64 : F64 φ} {i : Nat}

theorem isWhitespace_lt {byte : UInt8} (h : isWhitespace byte) : byte < 0x80 := by
  simp only [isWhitespace, Bool.or_eq_true, beq_iff_eq] at h
  rcases h with ((rfl | rfl) | rfl) | rfl <;> decide

theorem skipWhitespace_boundary (h : Boundary text i) :
    Boundary text (skipWhitespace (utf8 text) i) := h.takeWhile fun _ => isWhitespace_lt

theorem digitsEnd_boundary (h : Boundary text i) : Boundary text (digitsEnd (utf8 text) i) :=
  h.takeWhile fun _ => isDigit_ascii

theorem hexValue_of_foldlM {digits : Bytes} {code code' : Nat}
    (h : digits.foldlM
      (fun code digit => (hexValue digit).map fun value => code <<< 4 ||| value) code = some code') :
    ∀ digit ∈ digits, digit < 0x80 := by
  induction digits generalizing code with
  | nil => simp
  | cons digit digits ih =>
    rw [List.foldlM_cons] at h
    obtain ⟨code, hdigit, hmore⟩ := Option.bind_eq_some_iff.mp h
    obtain ⟨value, hvalue, -⟩ := Option.map_eq_some_iff.mp hdigit
    exact List.forall_mem_cons.mpr ⟨hexValue_ascii hvalue, ih hmore⟩

theorem hex4_boundary {code : Nat} (h : Boundary text i) (hhex : hex4 (utf8 text) i = some code) :
    Boundary text (i + 4) := by
  unfold hex4 at hhex
  split_ifs at hhex with hi
  have hpart : slice (utf8 text) i (i + 4) <+: (utf8 text).drop i := List.take_prefix ..
  have hnext := h.add hpart (hexValue_of_foldlM hhex)
  rwa [length_slice hi, Nat.add_sub_cancel_left] at hnext

theorem bytesFrom_eq {bytes : Bytes} (h : i ≤ bytes.length) :
    Checked.bytesFrom bytes i = some (bytes.drop i) := if_pos h

theorem require_runs (byte : UInt8) (kind : JsonErrorKind) (hi : Boundary text i)
    (hoffends : ((utf8 text).drop i).head? ≠ some byte →
      Offends f64 (utf8 text) ((utf8 text).drop i) kind) :
    Runs f64 text (Checked.require (utf8 text) byte kind i) (require (utf8 text) byte kind i)
      fun _ => peek (utf8 text) i = some byte := by
  unfold Checked.require require
  split_ifs with hpeek
  · exact .pure hpeek
  · exact .fail hi (hoffends (by rwa [← peek_eq_head?]))

/-! ## Strings -/

theorem lowFollows_eq {stop : Nat} (bytes : Bytes) :
    Checked.lowFollows bytes stop =
      some (stop + 6 < bytes.length && [backslash, lowerU].isPrefixOf (bytes.drop stop)) := by
  unfold Checked.lowFollows
  split_ifs with hstop
  · rw [bytesFrom_eq (by omega), Option.map_some, decide_eq_true hstop, Bool.true_and]
  · rw [decide_eq_false hstop, Bool.false_and]

theorem inString_character {begin input rest : Bytes}
    (h : InString f64 (utf8 text) begin input) (hcharacter : character input = some rest) :
    InString f64 (utf8 text) begin rest := by
  obtain ⟨opened, hreached, hcharacters⟩ := h
  exact ⟨opened, hreached, hcharacters.tail hcharacter⟩

/-- A unicode escape without its digits offends at its letter. -/
theorem offends_unicodeEscape {begin : Bytes} (hi : (utf8 text)[i]? = some lowerU)
    (hin : InString f64 (utf8 text) begin (backslash :: (utf8 text).drop i))
    (hhex : i + 5 < (utf8 text).length → hex4 (utf8 text) (i + 1) = none) :
    Offends f64 (utf8 text) ((utf8 text).drop i) .invalidUnicodeEscape := by
  refine ⟨begin, _, hin, drop_of_getElem? hi, ?_⟩
  rcases Nat.lt_or_ge (i + 5) (utf8 text).length with hlt | hge
  · right
    rw [unit_drop (utf8 text) i (by omega), hhex hlt]
    simp
  · left
    rw [List.length_drop]
    omega

theorem character_unit {code : Nat} (hi : (utf8 text)[i]? = some lowerU)
    (hstop : i + 5 ≤ (utf8 text).length) (hhex : hex4 (utf8 text) (i + 1) = some code) :
    character (backslash :: (utf8 text).drop i) = some ((utf8 text).drop (i + 5)) := by
  have hunit := unit_drop (utf8 text) i hstop
  rw [List.head?_drop, if_pos hi, hhex] at hunit
  simp [character, hunit]

theorem unicodeEscape_runs {begin : Bytes} (string : CodePointString)
    (hi : (utf8 text)[i]? = some lowerU)
    (hin : InString f64 (utf8 text) begin (backslash :: (utf8 text).drop i)) :
    Runs f64 text (Checked.unicodeEscape (utf8 text) string i) (unicodeEscape (utf8 text) string i)
      fun result => Boundary text result.2 ∧
        InString f64 (utf8 text) begin ((utf8 text).drop result.2) := by
  have hplace : Boundary text i := .of_ascii hi (by decide)
  unfold Checked.unicodeEscape unicodeEscape
  dsimp only
  split_ifs with hstop
  · exact .fail hplace (offends_unicodeEscape hi hin (by omega))
  · cases hcode : hex4 (utf8 text) (i + 1) with
    | none => exact .fail hplace (offends_unicodeEscape hi hin fun _ => hcode)
    | some code =>
      have hend : Boundary text (i + 5) := hex4_boundary (.succ hi (by decide)) hcode
      have hunit := inString_character hin (character_unit hi (by omega) hcode)
      refine .lift (lowFollows_eq _) ?_
      dsimp only
      split_ifs with hlow
      · simp only [Bool.and_eq_true, decide_eq_true_eq] at hlow
        obtain ⟨-, hfits, hpre⟩ := hlow
        have hdrop := head?_drop_of_isPrefixOf hpre
        have hletter : (utf8 text)[i + 5 + 1]? = some lowerU := by
          rw [← List.getElem?_drop, hdrop]
          rfl
        rw [hdrop, ← drop_of_getElem? hletter] at hunit
        cases hlow : hex4 (utf8 text) (i + 5 + 2) with
        | none =>
          exact .fail (.of_ascii hletter (by decide))
            (offends_unicodeEscape hletter hunit fun _ => hlow)
        | some low =>
          dsimp only
          split_ifs with hpair
          · exact .pure ⟨hex4_boundary (.succ hletter (by decide)) hlow,
              inString_character hunit (character_unit hletter (by omega) hlow)⟩
          · exact .pure ⟨hend, inString_character hin (character_unit hi (by omega) hcode)⟩
      · exact .pure ⟨hend, hunit⟩

theorem simpleEscapes_lt {code : UInt8} {unescaped : Nat}
    (h : simpleEscapes.lookup code = some unescaped) : code < 0x80 := by
  have hall : ∀ escape ∈ simpleEscapes, escape.1 < 0x80 := by decide
  exact hall _ ((Assoc.mem_iff_lookup (by decide)).mpr h)

theorem escape_runs {begin : Nat} (string : CodePointString)
    (hi : (utf8 text)[i]? = some backslash) (hquote : (utf8 text)[begin]? = some quote)
    (hin : InString f64 (utf8 text) ((utf8 text).drop (begin + 1)) ((utf8 text).drop i)) :
    Runs f64 text (Checked.escape (utf8 text) begin string (i + 1))
      (escape (utf8 text) begin string (i + 1))
      fun result => Boundary text result.2 ∧
        InString f64 (utf8 text) ((utf8 text).drop (begin + 1)) ((utf8 text).drop result.2) := by
  have hdrop := drop_of_getElem? hi
  unfold Checked.escape escape
  cases hcode : (utf8 text)[i + 1]? with
  | none =>
    refine .fail (.of_ascii hquote (by decide)) ⟨_, _, drop_of_getElem? hquote, hin, .inr ?_⟩
    rw [hdrop, List.drop_eq_nil_of_le (by simpa using hcode)]
  | some code =>
    have hrest := drop_of_getElem? hcode
    dsimp only
    split_ifs with hletter
    · exact unicodeEscape_runs string (hletter ▸ hcode) (hdrop ▸ hin)
    · cases hlookup : simpleEscapes.lookup code with
      | none =>
        rw [hrest] at hdrop
        exact .fail (.of_ascii hi (by decide))
          ⟨_, code, _, hin, hdrop, hletter, by rw [unescaped_eq_lookup, hlookup]⟩
      | some unescaped =>
        refine .pure ⟨.succ hcode (simpleEscapes_lt hlookup), inString_character hin ?_⟩
        simp [hdrop, hrest, character, unit_of_ne hletter, unescaped_eq_lookup, hlookup]

theorem endsChunk_lt {byte : UInt8} (h : endsChunk byte) : byte < 0x80 := by
  simp only [endsChunk, Bool.or_eq_true, beq_iff_eq, decide_eq_true_eq] at h
  rcases h with (rfl | rfl) | hcontrol
  · decide
  · decide
  · exact UInt8.lt_of_le_of_lt hcontrol (by decide)

theorem chunkEnd_runs {begin : Nat} (hi : Boundary text i)
    (hquote : (utf8 text)[begin]? = some quote)
    (hin : InString f64 (utf8 text) ((utf8 text).drop (begin + 1)) ((utf8 text).drop i)) :
    Runs f64 text (Checked.chunkEnd (utf8 text) begin i) (chunkEnd (utf8 text) begin i)
      fun stop => Boundary text stop ∧
        InString f64 (utf8 text) ((utf8 text).drop (begin + 1)) ((utf8 text).drop stop) := by
  obtain ⟨opened, hreached, hcharacters⟩ := hin
  refine .lift (bytesFrom_eq hi.le) ?_
  unfold chunkEnd
  cases hfind : ((utf8 text).drop i).findIdx? endsChunk with
  | none =>
    have hchunk := characters_append (List.findIdx?_eq_none_iff.mp hfind) []
    rw [List.append_nil] at hchunk
    exact .fail (.of_ascii hquote (by decide)) ⟨_, [], drop_of_getElem? hquote,
      ⟨opened, hreached, hcharacters.trans hchunk⟩, .inl rfl⟩
  | some offset =>
    have hchunk := characters_append (plain_of_findIdx? hfind) ((utf8 text).drop (i + offset))
    rw [slice_append_drop (Nat.le_add_right i offset)] at hchunk
    obtain ⟨hlt, hends, -⟩ := List.findIdx?_eq_some_iff_getElem.mp hfind
    have hbyte : (utf8 text)[i + offset]? = some ((utf8 text).drop i)[offset] := by
      rw [← List.getElem?_drop, List.getElem?_eq_getElem hlt]
    generalize ((utf8 text).drop i)[offset] = byte at hends hbyte
    have hascii : byte < 0x80 := endsChunk_lt hends
    have hin : InString f64 (utf8 text) _ ((utf8 text).drop (i + offset)) :=
      ⟨opened, hreached, hcharacters.trans hchunk⟩
    dsimp only
    rw [hbyte, Option.any_some]
    split_ifs with hstop
    · exact .pure ⟨.of_ascii hbyte hascii, hin⟩
    · refine .fail (.of_ascii hbyte hascii) ⟨_, byte, _, hin, drop_of_getElem? hbyte, ?_⟩
      simp_all [endsChunk]

theorem stringRest_bind (begin : Nat) (string : CodePointString) (i : Nat) (bytes : Bytes) :
    stringRest bytes begin string i = (do
      let stop ← chunkEnd bytes begin i
      let string := string.pushStr (slice bytes i stop)
      if bytes[stop]? = some quote then .ok (string, stop + 1)
      else
        let (string, i) ← escape bytes begin string (stop + 1)
        stringRest bytes begin string i) := by
  rw [stringRest]
  split
  · rename_i hchunk
    rw [hchunk]
    rfl
  · rename_i stop hchunk
    dsimp only
    rw [hchunk]
    dsimp only [bind, Except.bind]
    split_ifs
    · rfl
    · split
      · rename_i hescape
        rw [hescape]
      · rename_i hescape
        rw [hescape]

theorem chunkEnd_stops {bytes : Bytes} {begin i stop : Nat} (h : chunkEnd bytes begin i = .ok stop) :
    bytes[stop]? = some quote ∨ bytes[stop]? = some backslash := by
  have hspec := chunkEnd_spec bytes begin i
  rw [h] at hspec
  exact hspec.2

theorem stringRest_runs {begin : Nat} (hquote : (utf8 text)[begin]? = some quote) {fuel : Nat}
    (string : CodePointString) (hi : Boundary text i) (hfuel : (utf8 text).length < i + fuel)
    (hin : InString f64 (utf8 text) ((utf8 text).drop (begin + 1)) ((utf8 text).drop i)) :
    Runs f64 text (Checked.stringRest (utf8 text) begin fuel string i)
      (stringRest (utf8 text) begin string i) fun result => Boundary text result.2 := by
  induction fuel generalizing string i with
  | zero => exact absurd hi.le (by omega)
  | succ fuel ih =>
    rw [stringRest_bind, Checked.stringRest]
    refine .bind (chunkEnd_runs hi hquote hin) fun stop hchunk ⟨hstop, hin⟩ => ?_
    obtain ⟨hle, hlt⟩ := chunkEnd_bounds _ hchunk
    have hstops := chunkEnd_stops hchunk
    refine .lift (hi.strSlice hstop hle) ?_
    refine .lift (List.getElem?_eq_getElem hlt) ?_
    rw [List.getElem?_eq_getElem hlt] at hstops ⊢
    simp only [Option.some.injEq] at hstops ⊢
    split_ifs with hend
    · exact .pure (.succ (List.getElem?_eq_some_iff.mpr ⟨hlt, hend⟩) (by decide))
    · have hback := List.getElem?_eq_some_iff.mpr ⟨hlt, hstops.resolve_left hend⟩
      refine .bind (escape_runs _ hback hquote hin) fun (string', i') hescape ⟨hi', hin⟩ => ?_
      have hadvances := escape_advances _ hescape
      exact ih string' hi' (by omega) hin

theorem string_runs {opened : List Container} (hi : (utf8 text)[i]? = some quote)
    (hreached : Reached f64 (utf8 text) ⟨(utf8 text).drop i, opened, .value⟩ ∨
      Reached f64 (utf8 text) ⟨(utf8 text).drop i, opened, .key⟩) :
    Runs f64 text (Checked.string (utf8 text) i) (string (utf8 text) i)
      fun result => Boundary text result.2 := by
  refine stringRest_runs hi {} (.succ hi (by decide)) (by omega) ⟨opened, ?_, .refl⟩
  rwa [drop_of_getElem? hi] at hreached

/-! ## Numbers and words -/

theorem digitsEnd_le {bytes : Bytes} (h : i ≤ bytes.length) : digitsEnd bytes i ≤ bytes.length := by
  have hlength := (List.takeWhile_sublist isDigit (l := bytes.drop i)).length_le
  rw [List.length_drop] at hlength
  unfold digitsEnd
  omega

theorem checked_digitsEnd {bytes : Bytes} (h : i ≤ bytes.length) :
    Checked.digitsEnd bytes i = some (digitsEnd bytes i) := by
  rw [Checked.digitsEnd, bytesFrom_eq h]
  rfl

theorem checked_exponentDigits {bytes : Bytes} (h : i + 1 ≤ bytes.length) :
    ((Checked.digitsEnd bytes (i + 1)).bind fun stop =>
      bytes[stop - 1]?.bind fun last => some (if isDigit last then some stop else none)) =
      some (if bytes[digitsEnd bytes (i + 1) - 1]?.any isDigit then some (digitsEnd bytes (i + 1))
        else none) := by
  have hle := le_digitsEnd bytes (i + 1)
  have hend := digitsEnd_le h
  have hlast := List.getElem?_eq_getElem (show digitsEnd bytes (i + 1) - 1 < bytes.length by omega)
  rw [checked_digitsEnd h, Option.bind_some, hlast]
  rfl

theorem checked_exponentEnd (bytes : Bytes) (i : Nat) :
    Checked.exponentEnd bytes i = some (exponentEnd bytes i) := by
  unfold Checked.exponentEnd exponentEnd
  by_cases hi : i + 1 ≥ bytes.length
  · simp [hi]
  · have hmark : bytes[i]? = some bytes[i] := List.getElem?_eq_getElem (by omega)
    have hsign : bytes[i + 1]? = some bytes[i + 1] := List.getElem?_eq_getElem (by omega)
    simp only [if_neg hi, Checked.byteAt, hmark, hsign, decide_eq_false hi, Bool.false_or,
      Option.any_some, Option.map_some, Option.bind_eq_bind, Option.bind_some]
    generalize (bytes[i] == lowerE || bytes[i] == upperE) = isMark
    generalize (bytes[i + 1] == plus || bytes[i + 1] == minus) = isSign
    cases isMark with
    | false => rfl
    | true =>
      by_cases hnext : i + 1 + 1 < bytes.length
      · cases isSign <;>
          simp [hnext, checked_exponentDigits (show i + 1 ≤ bytes.length by omega),
            checked_exponentDigits (show i + 1 + 1 ≤ bytes.length by omega)]
      · simp [hnext, checked_exponentDigits (show i + 1 ≤ bytes.length by omega)]

theorem checked_wholeEnd (bytes : Bytes) (i : Nat) :
    Checked.wholeEnd bytes i = some (wholeEnd bytes i) := by
  unfold Checked.wholeEnd wholeEnd
  cases hbyte : bytes[i]? with
  | none => rfl
  | some byte =>
    have hi := (List.getElem?_eq_some_iff.mp hbyte).1
    dsimp only
    rw [checked_digitsEnd (by omega)]
    split_ifs <;> rfl

theorem lt_length_of_any {bytes : Bytes} {p : UInt8 → Bool} (h : bytes[i]?.any p) :
    i < bytes.length := by
  by_contra hge
  rw [List.getElem?_eq_none (Nat.le_of_not_lt hge)] at h
  cases h

/-- The offset after a byte of an ASCII class. -/
theorem boundary_of_any {p : UInt8 → Bool} (hp : ∀ byte, p byte → byte < 0x80)
    (h : (utf8 text)[i]?.any p) : Boundary text (i + 1) := by
  have hbyte := List.getElem?_eq_getElem (lt_length_of_any h)
  rw [hbyte] at h
  exact .succ hbyte (hp _ h)

theorem checked_fractionEnd (bytes : Bytes) (i : Nat) :
    let hasFraction := bytes[i]? == some point && bytes[i + 1]?.any isDigit
    Checked.fractionEnd bytes i =
      some (if hasFraction then digitsEnd bytes (i + 2) else i, hasFraction) := by
  unfold Checked.fractionEnd
  dsimp only
  split_ifs with h
  · obtain ⟨-, hdigit⟩ := Bool.and_eq_true_iff.mp h
    have hi := lt_length_of_any hdigit
    rw [checked_digitsEnd (by omega), h]
    rfl
  · rw [Bool.eq_false_of_not_eq_true h]

theorem checked_numberEnd (bytes : Bytes) (start : Nat) :
    Checked.numberEnd bytes start = some (numberEnd bytes start) := by
  unfold Checked.numberEnd numberEnd
  rw [checked_wholeEnd]
  cases wholeEnd bytes (start + if bytes[start]? = some minus then 1 else 0) with
  | none => rfl
  | some stop =>
    simp only [Option.bind_eq_bind, Option.bind_some, checked_fractionEnd, checked_exponentEnd,
      Option.map_some]
    generalize exponentEnd bytes _ = exponent
    cases exponent <;> rfl

theorem wholeEnd_boundary {stop : Nat} (h : wholeEnd (utf8 text) i = some stop) :
    Boundary text stop := by
  unfold wholeEnd at h
  split at h
  · cases h
  · rename_i byte hbyte
    split_ifs at h with hdigit hzero
    · cases h
      simp only [Bool.and_eq_true, decide_eq_true_eq] at hdigit
      exact digitsEnd_boundary (.succ hbyte (UInt8.lt_of_le_of_lt hdigit.2 (by decide)))
    · cases h
      exact .succ hbyte (hzero ▸ by decide)

theorem exponentEnd_boundary {stop : Nat} (h : exponentEnd (utf8 text) i = some stop) :
    Boundary text stop := by
  unfold exponentEnd at h
  dsimp only at h
  split_ifs at h with hmark hsign hlast hlast'
  all_goals
    simp only [Bool.or_eq_true, Bool.not_eq_true', not_or, Bool.not_eq_false] at hmark
    have hnext : Boundary text (i + 1) := by
      refine boundary_of_any (fun byte hbyte => ?_) hmark.2
      simp only [Bool.or_eq_true, beq_iff_eq] at hbyte
      rcases hbyte with rfl | rfl <;> decide
    cases h
  · refine digitsEnd_boundary (boundary_of_any (fun byte hbyte => ?_)
      (Bool.and_eq_true_iff.mp hsign).2)
    simp only [Bool.or_eq_true, beq_iff_eq] at hbyte
    rcases hbyte with rfl | rfl <;> decide
  · exact digitsEnd_boundary hnext

theorem numberEnd_boundary {start stop : Nat} {isFloat : Bool}
    (h : numberEnd (utf8 text) start = some (stop, isFloat)) : Boundary text stop := by
  obtain ⟨whole, hwhole, h⟩ := Option.map_eq_some_iff.mp h
  dsimp only at h
  split at h
  · rename_i exponent hexponent
    cases h
    exact exponentEnd_boundary hexponent
  · cases h
    split_ifs with hfraction
    · exact digitsEnd_boundary
        (boundary_of_any (fun _ => isDigit_ascii) (Bool.and_eq_true_iff.mp hfraction).2)
    · exact wholeEnd_boundary hwhole

/-- An integer that is too long offends where it starts. -/
theorem offends_integer {bytes : Bytes} {start stop : Nat}
    (hvalue : Offends f64 bytes (bytes.drop start) .expectingValue)
    (hend : numberEnd bytes start = some (stop, false))
    (hdigits : ((slice bytes start stop).dropWhile (· == minus)).length > maxIntDigits) :
    Offends f64 bytes (bytes.drop start)
      (.intTooLong ((slice bytes start stop).dropWhile (· == minus)).length) := by
  obtain ⟨opened, hstuck, -⟩ := hvalue
  rw [numberEnd_eq] at hend
  obtain ⟨⟨numeral, rest⟩, hnumeral, heq⟩ := Option.map_eq_some_iff.mp hend
  simp only [Prod.mk.injEq, Bool.not_eq_false', Bool.and_eq_true, List.isEmpty_iff] at heq
  obtain ⟨rfl, hfraction, hexponent⟩ := heq
  rw [slice_add_length (Grammar.numeral_append hnumeral).2,
    length_literal_digits hnumeral hfraction hexponent] at hdigits ⊢
  exact ⟨opened, numeral, rest, hstuck, hnumeral, rfl, hdigits⟩

theorem integer_runs {start stop : Nat} (hstart : Boundary text start)
    (hend : numberEnd (utf8 text) start = some (stop, false)) (hstop : Boundary text stop)
    (hvalue : ∀ error : JsonError, (integer (utf8 text) (slice (utf8 text) start stop) start stop :
        Except JsonError (JsonValue φ × Nat)) = .error error →
      Offends f64 (utf8 text) ((utf8 text).drop start) .expectingValue) :
    Runs f64 text (Checked.integer (utf8 text) (slice (utf8 text) start stop) start stop)
      (integer (utf8 text) (slice (utf8 text) start stop) start stop :
        Except JsonError (JsonValue φ × Nat))
      fun result => Boundary text result.2 := by
  unfold Checked.integer
  unfold integer at hvalue ⊢
  by_cases hdigits : ((slice (utf8 text) start stop).dropWhile (· == minus)).length > maxIntDigits
  · simp only [if_pos hdigits] at hvalue ⊢
    exact .fail hstart (offends_integer (hvalue _ rfl) hend hdigits)
  · simp only [if_neg hdigits]
    exact .pure hstop

theorem number_runs {start : Nat} (hstart : Boundary text start)
    (hvalue : Grammar.number f64 ((utf8 text).drop start) = none →
      Offends f64 (utf8 text) ((utf8 text).drop start) .expectingValue) :
    Runs f64 text (Checked.number (utf8 text) f64 start) (number (utf8 text) f64 start)
      fun result => Boundary text result.2 := by
  have hnumber := number_eq (utf8 text) f64 start
  unfold number at hnumber ⊢
  refine .lift (checked_numberEnd (utf8 text) start) ?_
  cases hend : numberEnd (utf8 text) start with
  | none =>
    rw [hend] at hnumber
    exact .fail hstart (hvalue hnumber.symm)
  | some result =>
    obtain ⟨stop, isFloat⟩ := result
    rw [hend] at hnumber
    dsimp only at hnumber ⊢
    have hstop := numberEnd_boundary hend
    refine .lift (hstart.strSlice hstop (numberEnd_advances hend).1.le) ?_
    cases isFloat with
    | false =>
      simp only [Bool.not_false, if_true] at hnumber ⊢
      refine integer_runs hstart hend hstop fun error herror => hvalue ?_
      rw [← hnumber, herror, seen_error]
    | true =>
      cases hparse : f64.parse (slice (utf8 text) start stop) with
      | none =>
        simp only [Bool.not_true, Bool.false_eq_true, if_false, hparse] at hnumber
        exact .fail hstart (hvalue hnumber.symm)
      | some number => exact .pure hstop

variable (f64) in
theorem constants_lt {constant : Bytes × JsonValue φ} (h : constant ∈ constants f64) :
    ∀ byte ∈ constant.1, byte < 0x80 := by
  have hwords : ∀ word ∈ (constants f64).map Prod.fst, ∀ byte ∈ word, byte < 0x80 := by
    simp only [constants, List.map_cons, List.map_nil]
    decide +kernel
  exact hwords _ (List.mem_map_of_mem h)

theorem scalar_runs (hi : Boundary text i)
    (hvalue : Grammar.scalar f64 ((utf8 text).drop i) = none →
      Offends f64 (utf8 text) ((utf8 text).drop i) .expectingValue) :
    Runs f64 text (Checked.scalar (utf8 text) f64 i) (scalar (utf8 text) f64 i)
      fun result => Boundary text result.2 := by
  have hrest : strSlice (utf8 text) i (utf8 text).length = some ((utf8 text).drop i) := by
    rw [hi.strSlice (.last text) hi.le, slice, List.take_of_length_le (by simp)]
  refine .lift hrest ?_
  unfold scalar
  dsimp only
  by_cases hstarts : startsNumber ((utf8 text).drop i)
  · rw [Grammar.scalar, find?_constants_of_startsNumber f64 hstarts] at hvalue
    unfold startsNumber at hstarts
    rw [if_pos hstarts, if_pos hstarts]
    exact number_runs hi hvalue
  · unfold startsNumber at hstarts
    rw [if_neg hstarts, if_neg hstarts]
    cases hfind : (constants f64).find? fun constant =>
        constant.1.isPrefixOf ((utf8 text).drop i) with
    | none =>
      rw [Grammar.scalar, hfind] at hvalue
      exact number_runs hi hvalue
    | some constant =>
      have hpre : constant.1 <+: (utf8 text).drop i := by simpa using List.find?_some hfind
      exact .pure (hi.add hpre (constants_lt f64 (List.mem_of_find?_eq_some hfind)))

/-! ## Containers -/

def Frame.container : Frame φ → Container
  | .array _ => .array
  | .object _ => .object

def Frame.opener : Frame φ → UInt8
  | .array _ => leftBracket
  | .object _ => leftBrace

theorem Frame.closer_container (frame : Frame φ) :
    frame.container.closer = frame.shape.closer := by cases frame <;> rfl

theorem Frame.container_push (frame : Frame φ) (value : JsonValue φ) :
    (frame.push value).container = frame.container := by cases frame <;> rfl

theorem after_drop (opened : List Container) (awaits : Awaits) (i : Nat) :
    Place.after opened awaits ((utf8 text).drop i) =
      ⟨(utf8 text).drop (skipWhitespace (utf8 text) i), opened, awaits⟩ := by
  rw [drop_skipWhitespace, Place.after]

/-- The text leads past a value that is complete, and else to the next value. -/
def Leads (f64 : F64 φ) (text : Text) (complete : Bool) (opened : List (Frame φ)) (i : Nat) :
    Prop :=
  let rest := (utf8 text).drop i
  let containers := opened.map Frame.container
  Reached f64 (utf8 text)
    (if complete then .after containers .next rest else ⟨rest, containers, .value⟩)

theorem step_scalar {rest : Bytes} (opened : List Container) (hquote : rest.head? ≠ some quote)
    (hbracket : rest.head? ≠ some leftBracket) (hbrace : rest.head? ≠ some leftBrace) :
    Place.step f64 ⟨rest, opened, .value⟩ =
      (Grammar.scalar f64 rest).map fun (_, rest) => .after opened .next rest := by
  rw [Place.step, if_neg hquote, if_neg hbracket, if_neg hbrace]

/-- What is no string, no container and no scalar is no value. -/
theorem offends_value {rest : Bytes} {opened : List Container}
    (hreached : Reached f64 (utf8 text) ⟨rest, opened, .value⟩) (hquote : rest.head? ≠ some quote)
    (hbracket : rest.head? ≠ some leftBracket) (hbrace : rest.head? ≠ some leftBrace)
    (h : Grammar.scalar f64 rest = none) : Offends f64 (utf8 text) rest .expectingValue := by
  refine ⟨opened, ⟨hreached, ?_⟩, hquote, fun depth => ?_⟩
  · rw [step_scalar opened hquote hbracket hbrace, h, Option.map_none]
  cases depth <;> simp [Grammar.value, Grammar.valueOf, hquote, hbracket, hbrace, h]

theorem itemPrefix_runs {opened : List (Frame φ)} (frame : Frame φ) (hi : Boundary text i)
    (hreached : Reached f64 (utf8 text) ⟨(utf8 text).drop i,
      frame.container :: opened.map Frame.container, frame.container.item⟩) :
    Runs f64 text (Checked.itemPrefix (utf8 text) frame i) (itemPrefix (utf8 text) frame i)
      fun result =>
        Boundary text result.2 ∧ Leads f64 text false (result.1 :: opened) result.2 := by
  cases frame with
  | array items => exact .pure ⟨hi, hreached⟩
  | object members =>
    refine .bind (require_runs quote .expectingPropertyName hi fun hhead => ?_) fun _ _ hquote => ?_
    · exact ⟨_, ⟨hreached, if_neg hhead⟩, hhead⟩
    refine .bind (string_runs hquote (.inr hreached)) fun (key, stop) hstring hstop => ?_
    have hspace := skipWhitespace_boundary hstop
    have hkey : Reached f64 (utf8 text)
        (.after (.object :: opened.map Frame.container) .colon ((utf8 text).drop stop)) := by
      refine hreached.step ?_
      rw [drop_of_getElem? hquote]
      simp [Place.step, Frame.container, Container.item, chars_of_string hstring]
    rw [after_drop] at hkey
    refine .bind (require_runs colon .expectingColon hspace fun hhead => ?_) fun _ _ hcolon => ?_
    · exact ⟨_, hkey, if_neg hhead⟩
    have hend := skipWhitespace_boundary (.succ hcolon (by decide))
    rw [peek_eq_head?] at hcolon
    have hvalue := hkey.step (if_pos hcolon)
    rw [List.tail_drop, after_drop] at hvalue
    exact .pure ⟨hend, hvalue⟩

theorem shape_closer_lt (frame : Frame φ) : frame.shape.closer < 0x80 := by
  cases frame with
  | array items => exact (by decide : rightBracket < 0x80)
  | object members => exact (by decide : rightBrace < 0x80)

theorem Frame.opener_lt (frame : Frame φ) : frame.opener < 0x80 := by
  cases frame with
  | array items => exact (by decide : leftBracket < 0x80)
  | object members => exact (by decide : leftBrace < 0x80)

variable (f64) in
theorem step_opener (frame : Frame φ) (opened : List Container) {rest : Bytes}
    (hopener : rest.head? = some frame.opener) :
    Place.step f64 ⟨rest, opened, .value⟩ = Place.opens opened frame.container rest.tail := by
  cases frame with
  | array items =>
    replace hopener : rest.head? = some leftBracket := hopener
    simp [Place.step, hopener, Frame.container, show leftBracket ≠ quote by decide]
  | object members =>
    replace hopener : rest.head? = some leftBrace := hopener
    simp [Place.step, hopener, Frame.container, show leftBrace ≠ quote by decide,
      show leftBrace ≠ leftBracket by decide]

theorem openFrame_runs {opened : List (Frame φ)} {frame : Frame φ}
    (hopener : (utf8 text)[i]? = some frame.opener) (hreached : Leads f64 text false opened i) :
    Runs f64 text (Checked.openFrame (utf8 text) opened frame i)
      (openFrame (utf8 text) opened frame i) fun result => Boundary text result.2.2 ∧
        Leads f64 text result.1.isSome result.2.1 result.2.2 := by
  have hascii := frame.opener_lt
  have hnext := skipWhitespace_boundary (.succ hopener hascii)
  have hplace : Reached f64 (utf8 text) ⟨_, _, .value⟩ := hreached
  have hhead : ((utf8 text).drop i).head? = some frame.opener := by rwa [List.head?_drop]
  have hstep := step_opener f64 frame (opened.map Frame.container) hhead
  rw [Place.opens, List.tail_drop, after_drop, List.length_map, Frame.closer_container] at hstep
  unfold Checked.openFrame openFrame
  dsimp only at hstep ⊢
  rw [← peek_eq_head?] at hstep
  split_ifs at hstep ⊢ with hfull hcloser
  · refine .fail (.of_ascii hopener hascii) ?_
    have hlength : (opened.map Frame.container).length ≥ maxDepth := by rwa [List.length_map]
    cases frame <;> exact ⟨_, ⟨hplace, hstep⟩, hlength, hhead⟩
  · rw [List.tail_drop] at hstep
    exact .pure ⟨.succ hcloser (shape_closer_lt frame), hplace.step hstep⟩
  · exact .bind (itemPrefix_runs frame hnext (hplace.step hstep)) fun result _ hresult =>
      .pure hresult

theorem value_runs (opened : List (Frame φ)) (hi : Boundary text i)
    (hreached : Leads f64 text false opened i) :
    Runs f64 text (Checked.value (utf8 text) f64 opened i) (value (utf8 text) f64 opened i)
      fun result => Boundary text result.2.2 ∧
        Leads f64 text result.1.isSome result.2.1 result.2.2 := by
  have hplace : Reached f64 (utf8 text) ⟨(utf8 text).drop i, _, .value⟩ := hreached
  unfold Checked.value value
  split_ifs with hquote hbracket hbrace
  · refine .bind (string_runs hquote (.inl hplace)) fun (string, stop) hstring hstop => ?_
    refine .pure ⟨hstop, hplace.step ?_⟩
    rw [drop_of_getElem? hquote]
    simp [Place.step, chars_of_string hstring]
  · exact openFrame_runs hbracket hreached
  · exact openFrame_runs hbrace hreached
  · rw [peek_eq_head?] at hquote hbracket hbrace
    refine .bind (scalar_runs hi (offends_value hplace hquote hbracket hbrace))
      fun (value, stop) hscalar hstop => .pure ⟨hstop, hplace.step ?_⟩
    have hseen := scalar_eq (utf8 text) f64 i
    rw [hscalar, seen_ok] at hseen
    rw [step_scalar _ hquote hbracket hbrace, ← hseen, Option.map_some]
    rfl

theorem offends_trailingComma {comma : Nat} {opened : List Container} (frame : Frame φ)
    (hreached : Reached f64 (utf8 text)
      ⟨(utf8 text).drop comma, frame.container :: opened, .next⟩)
    (hcomma : (utf8 text)[comma]? = some Ascii.comma)
    (hcloser : peek (utf8 text) (skipWhitespace (utf8 text) (comma + 1)) = some frame.shape.closer) :
    Offends f64 (utf8 text) ((utf8 text).drop comma) frame.shape.trailingComma := by
  have htrailing : TrailingComma frame.shape.closer ((utf8 text).drop comma) := by
    rw [peek_eq_head?, drop_skipWhitespace] at hcloser
    refine ⟨((utf8 text).drop (comma + 1)).takeWhile isWhitespace,
      (Grammar.skipSpace ((utf8 text).drop (comma + 1))).tail, ?_, List.all_takeWhile⟩
    rw [List.cons_head?_tail hcloser, Grammar.skipSpace, List.takeWhile_append_dropWhile]
    exact drop_of_getElem? hcomma
  cases frame <;> exact ⟨opened, hreached, htrailing⟩

theorem add_runs {opened : List (Frame φ)} (frame : Frame φ) (value : JsonValue φ)
    (hi : Boundary text i) (hreached : Leads f64 text true (frame :: opened) i) :
    Runs f64 text (Checked.add (utf8 text) frame value i) (add (utf8 text) frame value i)
      fun result => Boundary text result.2.2 ∧
        Leads f64 text result.1 (if result.1 then opened else result.2.1 :: opened) result.2.2 := by
  have hspace := skipWhitespace_boundary hi
  have hplace : Reached f64 (utf8 text) (.after (frame.container :: _) .next _) := hreached
  rw [after_drop, ← frame.container_push value] at hplace
  unfold Checked.add add
  dsimp only
  generalize frame.push value = frame' at hplace ⊢
  split_ifs with hcloser hcomma htrailing
  · refine .pure ⟨.succ hcloser (shape_closer_lt _), hplace.step ?_⟩
    rw [Place.step, Frame.closer_container, ← peek_eq_head?, if_pos hcloser, List.tail_drop]
    rfl
  · exact .fail hspace (offends_trailingComma _ hplace hcomma htrailing)
  · have hnext := skipWhitespace_boundary (.succ hcomma (by decide))
    refine .bind (itemPrefix_runs _ hnext (hplace.step ?_)) fun result _ hresult => .pure hresult
    rw [Place.step, Frame.closer_container, ← peek_eq_head?, if_neg hcloser, if_pos hcomma,
      List.tail_drop, after_drop]
  · refine .fail hspace ⟨_, _, hplace, ?_⟩
    rw [Place.step, Frame.closer_container, ← peek_eq_head?, if_neg hcloser, if_neg hcomma]

theorem close_runs (opened : List (Frame φ)) (value : JsonValue φ) (hi : Boundary text i)
    (hreached : Leads f64 text true opened i) :
    Runs f64 text (Checked.close (utf8 text) opened value i) (close (utf8 text) opened value i)
      fun result => Boundary text result.2.2 ∧
        Leads f64 text result.1.isSome (if result.1.isSome then [] else result.2.1) result.2.2 := by
  induction opened generalizing value i with
  | nil => exact .pure ⟨hi, hreached⟩
  | cons frame opened ih =>
    refine .bind (add_runs frame value hi hreached) fun (closed, frame', stop) _ ⟨hstop, hadd⟩ => ?_
    cases closed with
    | true => exact ih frame'.intoValue hstop hadd
    | false => exact .pure ⟨hstop, hadd⟩

theorem document_bind (bytes : Bytes) (opened : List (Frame φ)) (i : Nat) :
    document bytes f64 opened i = (do
      match ← value bytes f64 opened i with
      | (none, opened, i) => document bytes f64 opened i
      | (some value, opened, i) =>
        match ← close bytes opened value i with
        | (some done, _, i) => .ok (done, i)
        | (none, opened, i) => document bytes f64 opened i) := by
  rw [document]
  split
  · rename_i hvalue
    rw [hvalue]
    rfl
  · rename_i hvalue
    dsimp only
    rw [hvalue]
    rfl
  · rename_i value opened' i' hvalue
    dsimp only
    rw [hvalue]
    dsimp only [bind, Except.bind]
    split
    all_goals
      rename_i hclose
      rw [hclose]

theorem document_runs {fuel : Nat} (opened : List (Frame φ)) (hi : Boundary text i)
    (hreached : Leads f64 text false opened i) (hfuel : (utf8 text).length < i + fuel) :
    Runs f64 text (Checked.document (utf8 text) f64 fuel opened i)
      (document (utf8 text) f64 opened i) fun result => Boundary text result.2 ∧
        Leads f64 text true [] result.2 := by
  induction fuel generalizing opened i with
  | zero => exact absurd hi.le (by omega)
  | succ fuel ih =>
    rw [document_bind, Checked.document]
    refine .bind (value_runs opened hi hreached) fun (result, opened', i') hvalue ⟨hi', hread⟩ => ?_
    have hadvances := value_advances hvalue
    cases result with
    | none => exact ih opened' hi' hread (by omega)
    | some value =>
      refine .bind (close_runs opened' value hi' hread)
        fun (done, opened'', i'') hclose ⟨hi'', hread⟩ => ?_
      have hadvances' := close_advances hclose
      cases done with
      | none => exact ih opened'' hi'' hread (by omega)
      | some done => exact .pure ⟨hi'', hread⟩

theorem parse_runs (text : Text) (f64 : F64 φ) :
    Runs f64 text (Checked.parse (utf8 text) f64) (parse (utf8 text) f64)
      fun _ => Reached f64 (utf8 text) ⟨[], [], .next⟩ := by
  unfold Checked.parse parse
  split_ifs with hmark
  · exact .fail (.zero text) ⟨rfl, List.isPrefixOf_iff_prefix.mp hmark⟩
  · have hstart : Leads f64 text false [] (skipWhitespace (utf8 text) 0) := by
      have hrefl : Reached f64 (utf8 text) (.after [] .value ((utf8 text).drop 0)) := .refl
      rwa [after_drop] at hrefl
    refine .bind (document_runs [] (skipWhitespace_boundary (.zero text)) hstart (by omega)) ?_
    rintro ⟨value, i⟩ - ⟨hi, hread⟩
    have hspace := skipWhitespace_boundary hi
    replace hread : Reached f64 (utf8 text) (.after [] .next ((utf8 text).drop i)) := hread
    rw [after_drop] at hread
    dsimp only
    split_ifs with hextra
    · exact .fail hspace ⟨⟨hread, rfl⟩, List.drop_eq_nil_iff.not.mpr (Nat.not_le_of_lt hextra)⟩
    · rw [List.drop_eq_nil_of_le (Nat.le_of_not_lt hextra)] at hread
      exact .pure hread

end Reader

/-- On every text the reader returns without a slice outside it or within a character. The places
of a text that it accepts lead to its end. An error is at the place it names: the position, the line
and the column are those of what offends. -/
theorem parse_positions (text : Text) (f64 : F64 φ) :
    Checked.parse (utf8 text) f64 = some (parse (utf8 text) f64) ∧
      (∀ value, parse (utf8 text) f64 = .ok value → Reached f64 (utf8 text) ⟨[], [], .next⟩) ∧
        ∀ error, parse (utf8 text) f64 = .error error →
          ∃ before after, Located f64 text error before after := by
  obtain ⟨hrun, hresult⟩ := parse_runs text f64
  refine ⟨hrun, fun value hvalue => ?_, fun error herror => ?_⟩
  · rw [hvalue] at hresult
    exact hresult
  · rw [herror] at hresult
    exact hresult

end Agentless.Json
