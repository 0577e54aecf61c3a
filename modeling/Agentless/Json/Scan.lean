import Agentless.Json.Grammar

/-!
# The reader's scanners against the grammar

The reader walks the text by its offset and the grammar takes bytes off what is left of it, so
each scanner is compared on `text.drop i`: what it returns is what the grammar reads there, and it
fails where the grammar does. A string is the exception in one place. The reader wants a byte after
a unicode escape before it looks at the digits; the grammar reads the escape and finds the string
unterminated after it. So the two agree on a string as a whole, not on each escape.
-/

namespace Agentless.Json

open Ascii

variable {text : Bytes}

/-- What a scanner returns, with the bytes that are left instead of the offset. -/
def seen {α : Type} (text : Bytes) (result : Except JsonError (α × Nat)) : Option (α × Bytes) :=
  result.toOption.map fun (value, i) => (value, text.drop i)

@[simp] theorem seen_ok {α : Type} (value : α) (i : Nat) :
    seen text (.ok (value, i)) = some (value, text.drop i) := rfl

@[simp] theorem seen_error {α : Type} (error : JsonError) :
    seen (α := α) text (.error error) = none := rfl

theorem peek_eq_head? (i : Nat) : peek text i = (text.drop i).head? := (List.head?_drop ..).symm

theorem drop_length_takeWhile {α : Type} (p : α → Bool) (items : List α) :
    items.drop (items.takeWhile p).length = items.dropWhile p := by
  calc items.drop (items.takeWhile p).length
    _ = (items.takeWhile p ++ items.dropWhile p).drop (items.takeWhile p).length := by
      rw [List.takeWhile_append_dropWhile]
    _ = items.dropWhile p := List.drop_left

@[simp] theorem drop_skipWhitespace (i : Nat) :
    text.drop (skipWhitespace text i) = Grammar.skipSpace (text.drop i) := by
  rw [skipWhitespace, ← List.drop_drop, drop_length_takeWhile]
  rfl

theorem drop_skipWhitespace_succ (i : Nat) :
    text.drop (skipWhitespace text i + 1) = (Grammar.skipSpace (text.drop i)).tail := by
  rw [← List.tail_drop, drop_skipWhitespace]

/-! ## Strings -/

theorem hexValue_lt {byte : UInt8} {value : Nat} (h : hexValue byte = some value) : value < 16 := by
  unfold hexValue isDigit at h
  split_ifs at h <;> simp_all [UInt8.le_iff_toNat_le] <;> omega

theorem hexValue_ascii {byte : UInt8} {value : Nat} (h : hexValue byte = some value) :
    byte < 0x80 := by
  unfold hexValue isDigit at h
  split_ifs at h with h1 h2 h3 <;>
    simp only [Bool.and_eq_true, decide_eq_true_eq, UInt8.le_iff_toNat_le, UInt8.reduceToNat,
      UInt8.lt_iff_toNat_lt] at * <;> omega

theorem shiftLeft_or_hexValue {byte : UInt8} {value : Nat} (h : hexValue byte = some value)
    (code : Nat) : code <<< 4 ||| value = code * 16 + value := by
  have := hexValue_lt h
  rw [← Nat.shiftLeft_add_eq_or_of_lt (by omega), Nat.shiftLeft_eq]

theorem foldlM_hexValue (a b c d : UInt8) :
    [a, b, c, d].foldlM
      (fun code digit => (hexValue digit).map fun value => code <<< 4 ||| value) 0 =
      Grammar.hex4 a b c d := by
  unfold Grammar.hex4
  cases ha : hexValue a with
  | none => simp [ha]
  | some a' =>
    cases hb : hexValue b with
    | none => simp [ha, hb]
    | some b' =>
      cases hc : hexValue c with
      | none => simp [ha, hb, hc]
      | some c' =>
        cases hd : hexValue d with
        | none => simp [ha, hb, hc, hd]
        | some d' =>
          simp [ha, hb, hc, hd, shiftLeft_or_hexValue hb, shiftLeft_or_hexValue hc,
            shiftLeft_or_hexValue hd]

theorem hex4_of_drop {i : Nat} {a b c d : UInt8} {rest : Bytes}
    (h : text.drop i = a :: b :: c :: d :: rest) : hex4 text i = Grammar.hex4 a b c d := by
  have hlength := congrArg List.length h
  simp only [List.length_drop, List.length_cons] at hlength
  rw [hex4, if_pos (by omega), slice, h, Nat.add_sub_cancel_left]
  exact foldlM_hexValue a b c d

variable (text) in
/-- The grammar's unit, read at an offset: the reader finds the same digits there. -/
theorem unit_drop (i : Nat) (hi : i + 5 ≤ text.length) :
    Grammar.unit (text.drop i) =
      if (text.drop i).head? = some lowerU then
        (hex4 text (i + 1)).map fun code => (code, text.drop (i + 5))
      else none := by
  have hlength : (text.drop i).length = (text.length - i - 5) + 5 := by
    rw [List.length_drop]
    omega
  obtain ⟨letter, a, b, c, d, rest, hdrop⟩ :
      ∃ letter a b c d rest, text.drop i = letter :: a :: b :: c :: d :: rest := by
    match hdrop : text.drop i with
    | letter :: a :: b :: c :: d :: rest => exact ⟨letter, a, b, c, d, rest, rfl⟩
    | [] | [_] | [_, _] | [_, _, _] | [_, _, _, _] => simp [hdrop] at hlength
  have hnext : text.drop (i + 1) = a :: b :: c :: d :: rest := by
    rw [← List.drop_drop, hdrop]
    rfl
  have hrest : text.drop (i + 5) = rest := by
    rw [← List.drop_drop, hdrop]
    rfl
  rw [hdrop, hex4_of_drop hnext, hrest]
  simp [Grammar.unit]

theorem chars_backslash (rest : Bytes) :
    Grammar.chars (backslash :: rest) = (Grammar.escape rest).bind fun (code, rest) =>
      (Grammar.chars rest).map fun (bytes, rest) =>
        (CodePointString.encoded code ++ bytes, rest) := by
  rw [Grammar.chars]
  simp only [show backslash ≠ quote by decide, if_false, if_true]
  split <;> simp [*]

theorem escape_of_unit {input rest : Bytes} {code : Nat}
    (h : Grammar.unit input = some (code, rest)) :
    Grammar.escape input =
      match if Grammar.isHigh code then Grammar.lowEscape rest else none with
      | some (low, rest) => some (Grammar.joined code low, rest)
      | none => some (code, rest) := by
  unfold Grammar.escape
  rewrite [h]
  rfl

theorem unescaped_lowerU : Grammar.unescaped lowerU = none := by decide

/-- An escape whose digits are missing or wrong, or have nothing after them, ends no string. -/
theorem chars_bad_unit {rest : Bytes}
    (h : ∀ code rest', Grammar.unit (lowerU :: rest) = some (code, rest') → rest' = []) :
    Grammar.chars (backslash :: lowerU :: rest) = none := by
  rw [chars_backslash, Grammar.escape]
  cases hunit : Grammar.unit (lowerU :: rest) with
  | none => simp [unescaped_lowerU]
  | some result =>
    obtain ⟨code, rest'⟩ := result
    obtain rfl := h code rest' hunit
    simp [Grammar.lowEscape, Grammar.chars]

theorem head?_drop_of_isPrefixOf {i : Nat} {a b : UInt8}
    (h : [a, b].isPrefixOf (text.drop i)) : text.drop i = a :: b :: text.drop (i + 2) := by
  obtain ⟨rest, hrest⟩ := List.isPrefixOf_iff_prefix.mp h
  rw [← List.drop_drop, ← hrest]
  rfl

theorem lowEscape_backslash (rest : Bytes) :
    Grammar.lowEscape (backslash :: rest) =
      (Grammar.unit rest).filter fun low => Grammar.isLow low.1 := by
  simp [Grammar.lowEscape]

theorem unit_of_isPrefixOf {i : Nat} (hpre : [backslash, lowerU].isPrefixOf (text.drop i))
    (hi : i + 6 ≤ text.length) :
    Grammar.unit (lowerU :: text.drop (i + 2)) =
      (hex4 text (i + 2)).map fun code => (code, text.drop (i + 6)) := by
  have hnext : text.drop (i + 1) = lowerU :: text.drop (i + 2) := by
    rw [← List.drop_drop, head?_drop_of_isPrefixOf hpre]
    rfl
  have hunit := unit_drop text (i + 1) (by omega)
  rw [hnext] at hunit
  exact hunit

/-- The low surrogate after the escape of a high one, when the reader looks for one. -/
theorem lowEscape_drop {i : Nat} (hpre : [backslash, lowerU].isPrefixOf (text.drop i))
    (hi : i + 6 ≤ text.length) :
    Grammar.lowEscape (text.drop i) =
      ((hex4 text (i + 2)).filter Grammar.isLow).map fun low => (low, text.drop (i + 6)) := by
  rw [head?_drop_of_isPrefixOf hpre, lowEscape_backslash, unit_of_isPrefixOf hpre hi]
  cases hex4 text (i + 2) with
  | none => rfl
  | some low =>
    rw [Option.map_some]
    by_cases hlow : Grammar.isLow low <;> simp [Option.filter, hlow]

theorem lowEscape_of_not_isPrefixOf {input : Bytes}
    (hpre : [backslash, lowerU].isPrefixOf input = false) : Grammar.lowEscape input = none := by
  unfold Grammar.lowEscape
  split_ifs with hhead
  · have hcons : input = backslash :: input.tail := (List.cons_head?_tail hhead).symm
    generalize input.tail = rest at *
    subst hcons
    unfold Grammar.unit
    split
    · split_ifs with hletter
      · simp [hletter] at hpre
      · rfl
    · rfl
  · rfl

/-- Where the text is too short for the reader to look for a low surrogate, the string has no
end. -/
theorem chars_of_short_low {i : Nat} (hpre : [backslash, lowerU].isPrefixOf (text.drop i))
    (hi : text.length ≤ i + 6) :
    Grammar.chars (text.drop i) = none ∧
      ∀ low rest, Grammar.lowEscape (text.drop i) = some (low, rest) → rest = [] := by
  have hdrop := head?_drop_of_isPrefixOf hpre
  have hlength := congrArg List.length hdrop
  simp only [List.length_drop, List.length_cons] at hlength
  constructor
  · rw [hdrop]
    refine chars_bad_unit fun code rest hunit => ?_
    have := Grammar.unit_length hunit
    rw [List.length_cons, List.length_drop] at this
    apply List.length_eq_zero_iff.mp
    omega
  · intro low rest hlow
    rw [hdrop, lowEscape_backslash] at hlow
    have := Grammar.unit_length (Option.filter_eq_some_iff.mp hlow).1
    rw [List.length_cons, List.length_drop] at this
    apply List.length_eq_zero_iff.mp
    omega

theorem isHigh_eq (code : Nat) :
    (decide (0xd800 ≤ code) && decide (code ≤ 0xdbff)) = Grammar.isHigh code := rfl

theorem isLow_eq (code : Nat) :
    (decide (0xdc00 ≤ code) && decide (code ≤ 0xdfff)) = Grammar.isLow code := rfl

theorem joined_eq (code low : Nat) :
    0x10000 + ((code - 0xd800) <<< 10) + (low - 0xdc00) = Grammar.joined code low := by
  unfold Grammar.joined
  omega

theorem map_chars_push (string : CodePointString) (code : Nat) (rest : Bytes) :
    ((Grammar.chars rest).map fun (bytes, rest) => ((string.push code).bytes ++ bytes, rest)) =
      ((Grammar.chars rest).map fun (bytes, rest) =>
        (CodePointString.encoded code ++ bytes, rest)).map fun (bytes, rest) =>
          (string.bytes ++ bytes, rest) := by
  simp [CodePointString.push, CodePointString.pushStr, Function.comp_def]

theorem unicodeEscape_chars (string : CodePointString) {i : Nat}
    (hi : (text.drop i).head? = some lowerU) :
    ((unicodeEscape text string i).toOption.bind fun (string, i) =>
      (Grammar.chars (text.drop i)).map fun (bytes, rest) => (string.bytes ++ bytes, rest)) =
      (Grammar.chars (backslash :: text.drop i)).map fun (bytes, rest) =>
        (string.bytes ++ bytes, rest) := by
  have hcons : text.drop i = lowerU :: (text.drop i).tail := (List.cons_head?_tail hi).symm
  unfold unicodeEscape
  dsimp only
  by_cases hlength : i + 5 ≥ text.length
  · have hnone : Grammar.chars (backslash :: text.drop i) = none := by
      rw [hcons]
      refine chars_bad_unit fun code rest' hunit => ?_
      have := Grammar.unit_length hunit
      rw [← hcons, List.length_drop] at this
      apply List.length_eq_zero_iff.mp
      omega
    rw [if_pos hlength, hnone]
    rfl
  · rw [if_neg hlength]
    have hunit := unit_drop text i (by omega)
    rw [if_pos hi] at hunit
    cases hcode : hex4 text (i + 1) with
    | none =>
      have hnone : Grammar.chars (backslash :: text.drop i) = none := by
        rw [hcons]
        refine chars_bad_unit fun code rest' h => ?_
        rw [← hcons, hunit, hcode] at h
        cases h
      rw [hnone]
      rfl
    | some code =>
      rw [hcode, Option.map_some] at hunit
      rw [chars_backslash, escape_of_unit hunit]
      simp only [isHigh_eq, isLow_eq, joined_eq]
      by_cases hhigh : Grammar.isHigh code
      · by_cases hpre : [backslash, lowerU].isPrefixOf (text.drop (i + 5))
        · by_cases hlow : i + 5 + 6 < text.length
          · have hlowEscape := lowEscape_drop hpre (Nat.le_of_lt hlow)
            simp only [hhigh, hpre, hlow, decide_true, Bool.and_true, if_true]
            cases hhex : hex4 text (i + 5 + 2) with
            | none =>
              have hnone : Grammar.chars (text.drop (i + 5)) = none := by
                rw [head?_drop_of_isPrefixOf hpre]
                refine chars_bad_unit fun code rest h => ?_
                rw [unit_of_isPrefixOf hpre (Nat.le_of_lt hlow), hhex] at h
                cases h
              rw [hhex] at hlowEscape
              simp [hlowEscape, hnone, Except.toOption]
            | some low =>
              rw [hhex] at hlowEscape
              by_cases hisLow : Grammar.isLow low
              · rw [Option.filter_some_pos hisLow, Option.map_some] at hlowEscape
                simp only [hisLow, if_true, hlowEscape]
                exact map_chars_push string (Grammar.joined code low) _
              · simp only [Bool.not_eq_true] at hisLow
                rw [Option.filter_some_neg hisLow, Option.map_none] at hlowEscape
                simp only [hisLow, hlowEscape]
                exact map_chars_push string code _
          · obtain ⟨hnone, hshort⟩ := chars_of_short_low hpre (by omega)
            simp only [hhigh, hpre, hlow, decide_false, Bool.and_true, if_true]
            cases hlowEscape : Grammar.lowEscape (text.drop (i + 5)) with
            | none => simp [hnone, Except.toOption]
            | some result =>
              obtain ⟨low, rest⟩ := result
              obtain rfl := hshort low rest hlowEscape
              simp [hnone, Except.toOption, Grammar.chars]
        · simp only [Bool.not_eq_true] at hpre
          simp only [hpre, Bool.and_false, lowEscape_of_not_isPrefixOf hpre, ite_self]
          exact map_chars_push string code _
      · simp only [Bool.not_eq_true] at hhigh
        simp only [hhigh, Bool.false_and]
        exact map_chars_push string code _

theorem unescaped_eq_lookup (letter : UInt8) :
    Grammar.unescaped letter = simpleEscapes.lookup letter := by
  unfold Grammar.unescaped simpleEscapes
  split_ifs
  case neg =>
    symm
    simp_all [List.lookup_eq_none_iff]
  all_goals
    subst letter
    rfl

theorem unit_of_ne {letter : UInt8} (hletter : letter ≠ lowerU) (rest : Bytes) :
    Grammar.unit (letter :: rest) = none := by
  unfold Grammar.unit
  split
  · simp_all
  · rfl

theorem drop_of_getElem? {i : Nat} {byte : UInt8} (h : text[i]? = some byte) :
    text.drop i = byte :: text.drop (i + 1) := by
  obtain ⟨hi, rfl⟩ := List.getElem?_eq_some_iff.mp h
  exact List.drop_eq_getElem_cons hi

theorem escape_chars (begin : Nat) (string : CodePointString) (i : Nat) :
    ((escape text begin string i).toOption.bind fun (string, i) =>
      (Grammar.chars (text.drop i)).map fun (bytes, rest) => (string.bytes ++ bytes, rest)) =
      (Grammar.chars (backslash :: text.drop i)).map fun (bytes, rest) =>
        (string.bytes ++ bytes, rest) := by
  unfold escape
  cases hletter : text[i]? with
  | none =>
    have hempty : text.drop i = [] := by simpa using hletter
    rw [hempty, chars_backslash]
    rfl
  | some letter =>
    have hdrop := drop_of_getElem? hletter
    dsimp only
    by_cases hunit : letter = lowerU
    · rw [if_pos hunit]
      exact unicodeEscape_chars string (by rw [hdrop, hunit]; rfl)
    · rw [if_neg hunit, hdrop, chars_backslash]
      simp only [Grammar.escape, unit_of_ne hunit, unescaped_eq_lookup]
      cases simpleEscapes.lookup letter with
      | none => rfl
      | some code => exact map_chars_push string code _

/-- The bytes up to a quote, a backslash or a control character are the string's own. -/
theorem chars_chunk {chunk : Bytes} (hchunk : ∀ byte ∈ chunk, endsChunk byte = false)
    (rest : Bytes) :
    Grammar.chars (chunk ++ rest) =
      (Grammar.chars rest).map fun (bytes, rest) => (chunk ++ bytes, rest) := by
  induction chunk with
  | nil => simp
  | cons byte chunk ih =>
    have hbyte := hchunk byte List.mem_cons_self
    simp only [endsChunk, Bool.or_eq_false_iff, beq_eq_false_iff_ne, decide_eq_false_iff_not]
      at hbyte
    rw [List.cons_append, Grammar.chars, if_neg hbyte.1.1, if_neg hbyte.1.2, if_neg hbyte.2,
      ih fun other hother => hchunk other (List.mem_cons_of_mem _ hother)]
    simp [Function.comp_def]

theorem plain_of_findIdx? {i offset : Nat} (h : (text.drop i).findIdx? endsChunk = some offset) :
    ∀ byte ∈ slice text i (i + offset), endsChunk byte = false := by
  obtain ⟨_, _, hbefore⟩ := List.findIdx?_eq_some_iff_getElem.mp h
  intro byte hbyte
  obtain ⟨k, hk⟩ := List.mem_iff_getElem?.mp hbyte
  rw [getElem?_slice, Nat.add_sub_cancel_left, ← List.getElem?_drop] at hk
  split_ifs at hk with hlt
  obtain ⟨_, rfl⟩ := List.getElem?_eq_some_iff.mp hk
  simpa using hbefore k hlt

variable (text) in
/-- Where the reader stops in a string. -/
theorem chunkEnd_spec (begin i : Nat) :
    match chunkEnd text begin i with
    | .error _ => Grammar.chars (text.drop i) = none
    | .ok stop =>
      (∀ byte ∈ slice text i stop, endsChunk byte = false) ∧
        (text[stop]? = some quote ∨ text[stop]? = some backslash) := by
  unfold chunkEnd
  cases hfind : (text.drop i).findIdx? endsChunk with
  | none =>
    have hall : ∀ byte ∈ text.drop i, endsChunk byte = false := by simpa using hfind
    have hchunk := chars_chunk hall []
    rw [List.append_nil] at hchunk
    rw [hchunk]
    simp [Grammar.chars]
  | some offset =>
    obtain ⟨hoffset, hends, _⟩ := List.findIdx?_eq_some_iff_getElem.mp hfind
    have hat : text[i + offset]? = some (text.drop i)[offset] := by
      rw [← List.getElem?_drop, List.getElem?_eq_getElem hoffset]
    have hchunk := plain_of_findIdx? hfind
    generalize (text.drop i)[offset] = byte at hends hat
    dsimp only
    rw [hat, Option.any_some]
    by_cases hstop : byte == quote || byte == backslash
    · rw [if_pos hstop]
      refine ⟨hchunk, ?_⟩
      rw [hat]
      simpa using hstop
    · rw [if_neg hstop]
      simp only [Bool.or_eq_true, beq_iff_eq, not_or] at hstop
      simp only [endsChunk, Bool.or_eq_true, beq_iff_eq, hstop, false_or, decide_eq_true_eq]
        at hends
      rw [← slice_append_drop (Nat.le_add_right i offset), chars_chunk hchunk,
        drop_of_getElem? hat, Grammar.chars, if_neg hstop.1, if_neg hstop.2, if_pos hends]
      rfl

theorem chars_of_chunkEnd {begin i stop : Nat} (h : chunkEnd text begin i = .ok stop)
    (string : CodePointString) :
    ((Grammar.chars (text.drop i)).map fun (bytes, rest) => (string.bytes ++ bytes, rest)) =
      (Grammar.chars (text.drop stop)).map fun (bytes, rest) =>
        ((string.pushStr (slice text i stop)).bytes ++ bytes, rest) := by
  have hspec := chunkEnd_spec text begin i
  rw [h] at hspec
  rw [← slice_append_drop (chunkEnd_bounds text h).1, chars_chunk hspec.1]
  simp [CodePointString.pushStr, Function.comp_def]

theorem drop_of_chunkEnd {begin i stop : Nat} (h : chunkEnd text begin i = .ok stop)
    (hquote : text[stop]? ≠ some quote) : text.drop stop = backslash :: text.drop (stop + 1) := by
  have hspec := chunkEnd_spec text begin i
  rw [h] at hspec
  exact drop_of_getElem? (hspec.2.resolve_left hquote)

variable (text) in
theorem stringRest_eq (begin : Nat) (string : CodePointString) (i : Nat) :
    ((seen text (stringRest text begin string i)).map fun (string, rest) => (string.bytes, rest)) =
      (Grammar.chars (text.drop i)).map fun (bytes, rest) => (string.bytes ++ bytes, rest) := by
  fun_induction stringRest text begin string i with
  | case1 string i error hchunk =>
    have hspec := chunkEnd_spec text begin i
    rw [hchunk] at hspec
    rw [hspec]
    rfl
  | case2 string i stop hchunk _ string' hquote =>
    rw [chars_of_chunkEnd hchunk, drop_of_getElem? hquote, Grammar.chars, if_pos rfl]
    simp [string']
  | case3 string i stop hchunk _ string' hquote error hescape =>
    rw [chars_of_chunkEnd hchunk, drop_of_chunkEnd hchunk hquote, ← escape_chars begin, hescape]
    rfl
  | case4 string i stop hchunk _ string' hquote string'' i' hescape _ ih =>
    rw [chars_of_chunkEnd hchunk, drop_of_chunkEnd hchunk hquote, ← escape_chars begin, hescape,
      ih]
    rfl

variable (text) in
theorem string_eq (i : Nat) :
    seen text (string text i) =
      (Grammar.chars (text.drop (i + 1))).map fun (bytes, rest) => (⟨bytes⟩, rest) := by
  have heq := stringRest_eq text i {} (i + 1)
  have hback := congrArg (Option.map fun (bytes, rest) => (CodePointString.mk bytes, rest)) heq
  simpa [string, Function.comp_def] using hback

/-! ## Numbers and words -/

theorem drop_add_length {i : Nat} {part rest : Bytes} (h : part ++ rest = text.drop i) :
    text.drop (i + part.length) = rest := by
  rw [← List.drop_drop, ← h, List.drop_left]

theorem slice_add_length {i : Nat} {part rest : Bytes} (h : part ++ rest = text.drop i) :
    slice text i (i + part.length) = part := by
  rw [slice, ← h, Nat.add_sub_cancel_left, List.take_left]

theorem length_takeWhile_drop {i : Nat} {p : UInt8 → Bool} (h : text[i]?.any p) :
    ((text.drop i).takeWhile p).length = ((text.drop (i + 1)).takeWhile p).length + 1 := by
  cases hbyte : text[i]? with
  | none => simp [hbyte] at h
  | some byte =>
    rw [hbyte, Option.any_some] at h
    rw [drop_of_getElem? hbyte, List.takeWhile_cons_of_pos h, List.length_cons]

theorem isDigit_ascii {byte : UInt8} (h : isDigit byte) : byte < 0x80 := by
  simp only [isDigit, Bool.and_eq_true, decide_eq_true_eq, UInt8.le_iff_toNat_le,
    UInt8.lt_iff_toNat_lt, UInt8.reduceToNat] at *
  omega

theorem isDigit_of_range {byte : UInt8} :
    (decide (0x31 ≤ byte) && decide (byte ≤ 0x39)) = (isDigit byte && byte != zero) := by
  unfold isDigit
  rw [Bool.eq_iff_iff]
  simp only [Bool.and_eq_true, decide_eq_true_eq, bne_iff_ne, ne_eq, UInt8.le_iff_toNat_le,
    ← UInt8.toNat_inj, zero, UInt8.reduceToNat]
  omega

theorem wholeEnd_eq (i : Nat) :
    wholeEnd text i =
      (Grammar.whole (text.drop i)).map fun (whole, _) => i + whole.length := by
  unfold wholeEnd
  cases hbyte : text[i]? with
  | none =>
    have hempty : text.drop i = [] := by simpa using hbyte
    rw [hempty]
    rfl
  | some byte =>
    rw [drop_of_getElem? hbyte, Grammar.whole]
    dsimp only
    rw [isDigit_of_range]
    by_cases hzero : byte = zero
    · simp [hzero]
    · by_cases hdigit : isDigit byte
      · simp [hzero, hdigit, digitsEnd]
        omega
      · simp [hzero, hdigit]

theorem any_head?_drop (i : Nat) (p : UInt8 → Bool) :
    (text.drop i).head?.any p = text[i]?.any p := by
  rw [List.head?_drop]

variable (text) in
theorem fraction_eq (i : Nat) :
    (if text[i]? == some point && text[i + 1]?.any isDigit then digitsEnd text (i + 2) else i) =
      i + (Grammar.fraction (text.drop i)).1.length ∧
    (text[i]? == some point && text[i + 1]?.any isDigit) =
      !(Grammar.fraction (text.drop i)).1.isEmpty := by
  unfold Grammar.fraction Grammar.digits
  rw [List.tail_drop, List.head?_drop, List.head?_drop]
  by_cases hpoint : text[i]? = some point
  · by_cases hdigit : text[i + 1]?.any isDigit
    · have hlength : ((text.drop (i + 1)).takeWhile isDigit).length =
          ((text.drop (i + 2)).takeWhile isDigit).length + 1 := length_takeWhile_drop hdigit
      simp only [hpoint, hdigit, if_true, BEq.rfl, Bool.and_true, List.length_cons, hlength,
        digitsEnd, List.isEmpty_cons, Bool.not_false, and_true]
      omega
    · simp [hpoint, hdigit]
  · simp [hpoint]

theorem getElem?_takeWhile_drop {i k : Nat} {p : UInt8 → Bool}
    (hk : k < ((text.drop i).takeWhile p).length) : text[i + k]?.any p := by
  have hget : text[i + k]? = ((text.drop i).takeWhile p)[k]? := by
    rw [← List.getElem?_drop]
    conv_lhs => rw [← List.takeWhile_append_dropWhile (p := p) (l := text.drop i)]
    exact List.getElem?_append_left hk
  rw [hget, List.getElem?_eq_getElem hk, Option.any_some]
  exact List.mem_takeWhile_imp (List.getElem_mem hk)

theorem takeWhile_drop_eq_nil {i : Nat} {p : UInt8 → Bool} (h : text[i]?.any p = false) :
    (text.drop i).takeWhile p = [] := by
  cases hbyte : text[i]? with
  | none =>
    have hempty : text.drop i = [] := by simpa using hbyte
    rw [hempty, List.takeWhile_nil]
  | some byte =>
    rw [hbyte, Option.any_some] at h
    rw [drop_of_getElem? hbyte, List.takeWhile_cons_of_neg (by simp [h])]

theorem digitsEnd_last {i : Nat} (hbefore : text[i]?.any isDigit = false) :
    text[digitsEnd text (i + 1) - 1]?.any isDigit = text[i + 1]?.any isDigit := by
  by_cases hdigit : text[i + 1]?.any isDigit
  · have hlength := length_takeWhile_drop hdigit
    rw [hdigit, digitsEnd, Nat.add_sub_assoc (by omega)]
    exact getElem?_takeWhile_drop (by omega)
  · rw [Bool.not_eq_true] at hdigit
    rw [digitsEnd, takeWhile_drop_eq_nil hdigit, hdigit]
    exact hbefore

theorem digits_drop (i : Nat) :
    Grammar.digits (text.drop i) =
      if text[i]?.any isDigit then
        some ((text.drop i).takeWhile isDigit, (text.drop i).dropWhile isDigit)
      else none := by
  rw [Grammar.digits, any_head?_drop]

theorem not_isDigit_of_isSign {found : Option UInt8} (h : found.any Grammar.isSign) :
    found.any isDigit = false := by
  cases found with
  | none => rfl
  | some byte =>
    simp only [Option.any_some, Grammar.isSign, Bool.or_eq_true, beq_iff_eq] at h ⊢
    rcases h with rfl | rfl <;> decide

theorem exponent_drop {i : Nat} {mark : UInt8} (hmark : text[i]? = some mark)
    (hletter : mark == lowerE || mark == upperE) :
    let start := if text[i + 1]?.any Grammar.isSign then i + 2 else i + 1
    (Grammar.exponent (text.drop i)).1.isEmpty = !text[start]?.any isDigit ∧
      (text[start]?.any isDigit →
        i + (Grammar.exponent (text.drop i)).1.length = digitsEnd text start) := by
  intro start
  rw [drop_of_getElem? hmark, Grammar.exponent, hletter]
  unfold Grammar.optional
  rw [any_head?_drop]
  by_cases hsign : text[i + 1]?.any Grammar.isSign
  · have hstart : start = i + 2 := if_pos hsign
    have hsome : ((text.drop (i + 1)).take 1).length = 1 := by
      cases hbyte : text[i + 1]? with
      | none => simp [hbyte] at hsign
      | some byte => simp [drop_of_getElem? hbyte]
    rw [if_pos hsign]
    simp only [if_true, List.splitAt_eq, List.drop_drop, Nat.add_assoc, Nat.reduceAdd,
      digits_drop, hstart]
    by_cases hdigit : text[i + 2]?.any isDigit
    · simp only [hdigit, if_true, digitsEnd, List.length_cons, List.length_append, hsome,
        List.isEmpty_cons, Bool.not_true, true_and]
      omega
    · simp [hdigit]
  · have hstart : start = i + 1 := if_neg hsign
    rw [if_neg hsign]
    simp only [if_true, digits_drop, hstart]
    by_cases hdigit : text[i + 1]?.any isDigit
    · simp only [hdigit, if_true, digitsEnd, List.length_cons, List.nil_append,
        List.isEmpty_cons, Bool.not_true, true_and]
      omega
    · simp [hdigit]

theorem exponentEnd_eq (i : Nat) :
    exponentEnd text i =
      if (Grammar.exponent (text.drop i)).1.isEmpty then none
      else some (i + (Grammar.exponent (text.drop i)).1.length) := by
  unfold exponentEnd
  cases hmark : text[i]? with
  | none =>
    have hempty : text.drop i = [] := by simpa using hmark
    rw [hempty]
    simp [Grammar.exponent]
  | some mark =>
    rw [Option.any_some]
    by_cases hletter : mark == lowerE || mark == upperE
    · have hnot : text[i]?.any isDigit = false := by
        rw [hmark, Option.any_some]
        rcases Bool.or_eq_true_iff.mp hletter with h | h <;> rw [eq_of_beq h] <;> decide
      obtain ⟨hempty, hlength⟩ := exponent_drop hmark hletter
      rw [hempty]
      have hfold : (text[i + 1]?.any fun byte => byte == plus || byte == minus) =
          text[i + 1]?.any Grammar.isSign := rfl
      dsimp only
      rw [hfold]
      by_cases hshort : i + 1 ≥ text.length
      · simp [hshort]
      · simp only [hshort, hletter, decide_false, Bool.not_true, Bool.or_false, Bool.false_eq_true,
          if_false]
        by_cases hsign : text[i + 1]?.any Grammar.isSign
        · rw [if_pos hsign] at hlength
          have hbefore := not_isDigit_of_isSign hsign
          by_cases hlast : i + 1 + 1 < text.length
          · simp only [hsign, hlast, decide_true, Bool.and_true, if_true, digitsEnd_last hbefore]
            by_cases hdigit : text[i + 2]?.any isDigit
            · simp [hdigit, hlength hdigit]
            · simp [hdigit]
          · -- Nothing follows the sign, and neither reading finds a digit.
            simp only [hsign, hlast, decide_false, Bool.false_and, Bool.false_eq_true, if_true,
              if_false, digitsEnd_last hnot, hbefore]
            simp [List.getElem?_eq_none (Nat.le_of_not_lt hlast)]
        · rw [if_neg hsign] at hlength
          rw [Bool.not_eq_true] at hsign
          simp only [hsign, Bool.and_false, Bool.false_eq_true, if_false, digitsEnd_last hnot]
          by_cases hdigit : text[i + 1]?.any isDigit
          · simp [hdigit, hlength hdigit]
          · simp [hdigit]
    · rw [drop_of_getElem? hmark, Grammar.exponent]
      simp [hletter]

theorem length_sign (i : Nat) :
    (Grammar.optional (· == minus) (text.drop i)).1.length =
      if text[i]? = some minus then 1 else 0 := by
  unfold Grammar.optional
  rw [any_head?_drop]
  cases hbyte : text[i]? with
  | none => simp
  | some byte => by_cases hminus : byte = minus <;> simp [hminus, drop_of_getElem? hbyte]

/-- The end of a number after its whole part. -/
theorem fractionEnd_eq (i : Nat) :
    (match exponentEnd text
        (if text[i]? == some point && text[i + 1]?.any isDigit then digitsEnd text (i + 2) else i)
      with
      | some stop => (stop, true)
      | none =>
        (if text[i]? == some point && text[i + 1]?.any isDigit then digitsEnd text (i + 2) else i,
          text[i]? == some point && text[i + 1]?.any isDigit)) =
      (i + ((Grammar.fraction (text.drop i)).1.length +
        (Grammar.exponent (Grammar.fraction (text.drop i)).2).1.length),
        !((Grammar.fraction (text.drop i)).1.isEmpty &&
          (Grammar.exponent (Grammar.fraction (text.drop i)).2).1.isEmpty)) := by
  obtain ⟨hend, hflag⟩ := fraction_eq text i
  have hrest := drop_add_length (Grammar.fraction_append (text.drop i))
  rw [hend, hflag, exponentEnd_eq, hrest]
  by_cases hexponent : (Grammar.exponent (Grammar.fraction (text.drop i)).2).1.isEmpty
  · simp [List.isEmpty_iff.mp hexponent]
  · simp [hexponent, Nat.add_assoc]

theorem numberEnd_eq (start : Nat) :
    numberEnd text start = (Grammar.numeral (text.drop start)).map fun (numeral, _) =>
      (start + numeral.literal.length,
        !(numeral.fraction.isEmpty && numeral.exponent.isEmpty)) := by
  unfold numberEnd Grammar.numeral
  have hsign := drop_add_length (Grammar.optional_append (· == minus) (text.drop start))
  rw [wholeEnd_eq, ← length_sign, hsign]
  dsimp only
  cases hwhole : Grammar.whole (Grammar.optional (· == minus) (text.drop start)).2 with
  | none => rfl
  | some result =>
    obtain ⟨whole, rest⟩ := result
    have hrest := hwhole
    rw [← hsign] at hrest
    have hrest := drop_add_length (Grammar.whole_append hrest).2
    simp only [Option.map_some, Option.some.injEq, Grammar.Numeral.literal, List.length_append]
    rw [← hrest]
    refine (fractionEnd_eq _).trans ?_
    simp only [Nat.add_assoc]

theorem whole_head {input whole rest : Bytes} (h : Grammar.whole input = some (whole, rest)) :
    whole.head?.any isDigit := by
  unfold Grammar.whole at h
  split at h
  · cases h
  · split_ifs at h with hzero hdigit
    · cases h
      rfl
    · cases h
      exact hdigit

theorem optional_all (choice : UInt8 → Bool) (input : Bytes) :
    (Grammar.optional choice input).1.all choice := by
  unfold Grammar.optional
  split_ifs with hhead
  · cases input with
    | nil => rfl
    | cons byte input => simpa using hhead
  · rfl

/-- The digits of an integer are those of its literal without the sign. -/
theorem length_literal_digits {input rest : Bytes} {numeral : Grammar.Numeral}
    (h : Grammar.numeral input = some (numeral, rest)) (hfraction : numeral.fraction = [])
    (hexponent : numeral.exponent = []) :
    (numeral.literal.dropWhile (· == minus)).length = numeral.whole.length := by
  rw [Grammar.Numeral.literal, hfraction, hexponent, List.append_nil, List.append_nil]
  obtain ⟨⟨whole, rest'⟩, hwhole, heq⟩ := Option.map_eq_some_iff.mp h
  cases heq
  have hsign := optional_all (· == minus) input
  rw [List.all_eq_true] at hsign
  rw [List.dropWhile_append_of_pos hsign]
  have hhead := whole_head hwhole
  cases whole with
  | nil => rfl
  | cons byte whole =>
    have hbyte : (byte == minus) = false := by
      refine beq_eq_false_iff_ne.mpr ?_
      rintro rfl
      have hminus : isDigit minus := by simpa using hhead
      exact absurd hminus (by decide)
    rw [List.dropWhile_cons_of_neg (by simp [hbyte])]

variable (text) in
theorem number_eq {φ : Type} (f64 : F64 φ) (start : Nat) :
    seen text (number text f64 start) = Grammar.number f64 (text.drop start) := by
  unfold number Grammar.number
  rw [numberEnd_eq]
  cases hnumeral : Grammar.numeral (text.drop start) with
  | none => rfl
  | some result =>
    obtain ⟨numeral, rest⟩ := result
    have happend := (Grammar.numeral_append hnumeral).2
    simp only [Option.map_some, Option.bind_some, Grammar.Numeral.value, slice_add_length happend]
    by_cases hinteger : numeral.fraction = [] ∧ numeral.exponent = []
    · rw [if_pos hinteger]
      simp only [hinteger, List.isEmpty_nil, Bool.and_self, Bool.not_true, Bool.not_false, if_true,
        integer, length_literal_digits hnumeral hinteger.1 hinteger.2]
      by_cases hdigits : numeral.whole.length > maxIntDigits
      · simp only [hdigits, Nat.not_le_of_lt hdigits, if_true, if_false, seen_error,
          Option.map_none]
      · simp only [hdigits, Nat.le_of_not_lt hdigits, if_true, if_false, seen_ok,
          drop_add_length happend, Option.map_some]
    · rw [if_neg hinteger]
      have hfloat : (numeral.fraction.isEmpty && numeral.exponent.isEmpty) = false := by
        simpa using hinteger
      simp only [hfloat, Bool.not_false, Bool.not_true, Bool.false_eq_true, if_false]
      cases f64.parse numeral.literal with
      | none => rfl
      | some number =>
        rw [seen_ok, drop_add_length happend]
        rfl

def startsNumber (input : Bytes) : Bool :=
  input.head?.any isDigit || input.head? == some minus && input[1]?.any isDigit

theorem find?_constants_of_startsNumber {φ : Type} (f64 : F64 φ) {input : Bytes}
    (h : startsNumber input) :
    ((constants f64).find? fun constant => constant.1.isPrefixOf input) = none := by
  have hwords : ∀ word ∈ (constants f64).map Prod.fst, 2 ≤ word.length ∧ startsNumber word = false := by
    simp only [constants, List.map_cons, List.map_nil]
    decide
  rw [List.find?_eq_none]
  intro constant hconstant hpre
  obtain ⟨hlength, hstarts⟩ := hwords _ (List.mem_map_of_mem hconstant)
  obtain ⟨rest, rfl⟩ := List.isPrefixOf_iff_prefix.mp hpre
  unfold startsNumber at h hstarts
  rw [List.head?_append_of_ne_nil _ (List.ne_nil_of_length_pos (by omega)),
    List.getElem?_append_left (by omega), hstarts] at h
  cases h

variable (text) in
theorem scalar_eq {φ : Type} (f64 : F64 φ) (i : Nat) :
    seen text (scalar text f64 i) = Grammar.scalar f64 (text.drop i) := by
  unfold scalar Grammar.scalar
  dsimp only
  by_cases hstarts : startsNumber (text.drop i)
  · rw [find?_constants_of_startsNumber f64 hstarts]
    unfold startsNumber at hstarts
    rw [if_pos hstarts]
    exact number_eq text f64 i
  · unfold startsNumber at hstarts
    rw [if_neg hstarts]
    cases (constants f64).find? fun constant => constant.1.isPrefixOf (text.drop i) with
    | none => exact number_eq text f64 i
    | some constant =>
      dsimp only
      rw [seen_ok, List.drop_drop]

end Agentless.Json
