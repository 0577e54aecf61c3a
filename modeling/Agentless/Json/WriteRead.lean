import Agentless.Json.Image
import Agentless.Json.Write

/-!
# A value that was read is read again from its text

The writer's text of every value that the reader can produce spells that value. A string is
written code point by code point; the reader joins the escapes of a high and a low surrogate,
which the writer puts next to each other only for the one code point that they encode.
-/

namespace Agentless.Json

open Ascii

/-! ## Strings -/

theorem hexValue_hexDigit : ∀ value : Fin 16, hexValue (hexDigit value) = some value.val := by
  decide

theorem hexValue_hexDigit_of_lt {value : Nat} (h : value < 16) :
    hexValue (hexDigit value) = some value := hexValue_hexDigit ⟨value, h⟩

/-- The digits of a code unit are read back. -/
theorem unit_unitText {code : Nat} (hcode : code < 0x10000) (rest : Bytes) :
    Grammar.unit ((unitText code).tail ++ rest) = some (code, rest) := by
  simp (disch := omega) only [unitText, List.tail_cons, List.cons_append, List.nil_append,
    Grammar.unit, if_true, Grammar.hex4, hexValue_hexDigit_of_lt, Option.pure_def,
    Option.bind_eq_bind, Option.bind_some, Option.map_some, Option.some.injEq, Prod.mk.injEq,
    and_true]
  omega

theorem unitText_append (code : Nat) (rest : Bytes) :
    unitText code ++ rest = backslash :: ((unitText code).tail ++ rest) := rfl

theorem lowEscape_unitText {code : Nat} (hcode : code < 0x10000) (rest : Bytes) :
    Grammar.lowEscape (unitText code ++ rest) =
      if Grammar.isLow code then some (code, rest) else none := by
  rw [unitText_append, lowEscape_backslash, unit_unitText hcode]
  simp [Option.filter]

theorem shortEscape_cases {code : Nat} {escape : Bytes} (h : shortEscape code = some escape) :
    ∃ letter, escape = [backslash, letter] ∧ letter ≠ lowerU ∧
      Grammar.unescaped letter = some code := by
  unfold shortEscape at h
  split_ifs at h with h1 h2 h3 h4 h5 h6 h7 <;>
    exact ⟨_, (Option.some.inj h).symm, by decide, by subst code; decide⟩

theorem units_spec {code : Nat} (hcode : 0x10000 ≤ code) (hbound : code ≤ 0x10ffff) :
    ∃ high low, 0xd800 ||| (code - 0x10000) >>> 10 = high ∧
      0xdc00 ||| (code - 0x10000) &&& 0x3ff = low ∧ high < 0x10000 ∧ low < 0x10000 ∧
      Grammar.isHigh high ∧ Grammar.isLow low ∧ Grammar.joined high low = code := by
  have hshift : (code - 0x10000) >>> 10 = (code - 0x10000) / 0x400 := Nat.shiftRight_eq_div_pow ..
  have hmask : (code - 0x10000) &&& 0x3ff = (code - 0x10000) % 0x400 :=
    Nat.and_two_pow_sub_one_eq_mod _ 10
  have hhigh : 0xd800 ||| (code - 0x10000) / 0x400 = 0xd800 + (code - 0x10000) / 0x400 :=
    (Nat.two_pow_add_eq_or_of_lt (by omega : (code - 0x10000) / 0x400 < 2 ^ 10) 0x36).symm
  have hlow : 0xdc00 ||| (code - 0x10000) % 0x400 = 0xdc00 + (code - 0x10000) % 0x400 :=
    (Nat.two_pow_add_eq_or_of_lt (by omega : (code - 0x10000) % 0x400 < 2 ^ 10) 0x37).symm
  refine ⟨_, _, by rw [hshift, hhigh], by rw [hmask, hlow], by omega, by omega, ?_, ?_, ?_⟩
  · simp only [Grammar.isHigh, Bool.and_eq_true, decide_eq_true_eq]
    omega
  · simp only [Grammar.isLow, Bool.and_eq_true, decide_eq_true_eq]
    omega
  · unfold Grammar.joined
    omega

theorem encoded_ascii : ∀ code : Fin 0x80,
    CodePointString.encoded code = [UInt8.ofNat code] := by
  decide

theorem endsChunk_printable {code : Nat} (hprintable : 0x20 ≤ code ∧ code ≤ 0x7e)
    (hshort : shortEscape code = none) : endsChunk (UInt8.ofNat code) = false := by
  have hall : ∀ code : Fin 0x7f, 0x20 ≤ code.val → shortEscape code = none →
      endsChunk (UInt8.ofNat code) = false := by decide
  exact hall ⟨code, by omega⟩ hprintable.1 hshort

theorem lowEscape_codePointText {code : Nat} (hcode : code ≤ 0x10ffff)
    (hlow : Grammar.isLow code = false) (rest : Bytes) :
    Grammar.lowEscape (codePointText code ++ rest) = none := by
  unfold codePointText
  split
  · rename_i escape hescape
    obtain ⟨letter, rfl, hletter, -⟩ := shortEscape_cases hescape
    simp [lowEscape_backslash, unit_of_ne hletter]
  · rename_i hshort
    split_ifs with hprintable hlarge
    · have hends := endsChunk_printable hprintable hshort
      have hbackslash : UInt8.ofNat code ≠ backslash := by
        intro heq
        rw [heq] at hends
        exact absurd hends (by decide)
      simp [Grammar.lowEscape, hbackslash]
    · obtain ⟨high, low, hhigh, -, hlt, -, hisHigh, -, -⟩ := units_spec hlarge hcode
      have hnotLow : Grammar.isLow high = false := by
        simp only [Grammar.isHigh, Grammar.isLow, Bool.and_eq_true, Bool.and_eq_false_iff,
          decide_eq_true_eq, decide_eq_false_iff_not] at *
        omega
      dsimp only
      rw [List.append_assoc, hhigh, lowEscape_unitText hlt, hnotLow]
      rfl
    · rw [lowEscape_unitText (by omega), hlow]
      rfl

theorem escape_unescaped {letter : UInt8} {code : Nat} (hletter : letter ≠ lowerU)
    (h : Grammar.unescaped letter = some code) (rest : Bytes) :
    Grammar.escape (letter :: rest) = some (code, rest) := by
  simp [Grammar.escape, unit_of_ne hletter, h]

theorem chars_codePointText {code : Nat} (hcode : code ≤ 0x10ffff) {rest : Bytes}
    (hrest : Grammar.isHigh code → Grammar.lowEscape rest = none) :
    Grammar.chars (codePointText code ++ rest) =
      (Grammar.chars rest).map fun (bytes, rest) =>
        (CodePointString.encoded code ++ bytes, rest) := by
  have hescaped {input : Bytes} (h : Grammar.escape input = some (code, rest)) :
      Grammar.chars (backslash :: input) = (Grammar.chars rest).map fun (bytes, rest) =>
        (CodePointString.encoded code ++ bytes, rest) := by
    rw [chars_backslash, h]
    rfl
  unfold codePointText
  split
  · rename_i escape hescape
    obtain ⟨letter, rfl, hletter, hunescaped⟩ := shortEscape_cases hescape
    exact hescaped (escape_unescaped hletter hunescaped rest)
  · rename_i hshort
    split_ifs with hprintable hlarge
    · rw [chars_chunk (by simpa using endsChunk_printable hprintable hshort),
        encoded_ascii ⟨code, by omega⟩]
    · obtain ⟨high, low, hhigh, hlow, hhighLt, hlowLt, hisHigh, hisLow, hjoined⟩ :=
        units_spec hlarge hcode
      dsimp only
      rw [hhigh, hlow, List.append_assoc, unitText_append]
      refine hescaped ?_
      rw [escape_of_unit (unit_unitText hhighLt _), if_pos hisHigh, lowEscape_unitText hlowLt,
        if_pos hisLow]
      dsimp only
      rw [hjoined]
    · rw [unitText_append]
      refine hescaped ?_
      rw [escape_of_unit (unit_unitText (by omega) _)]
      split_ifs with hisHigh
      · rw [hrest hisHigh]
      · rfl

/-- The text of a string that the reader can produce is read back. -/
theorem quoted_codes {codes : List Nat} (hcodes : ∀ code ∈ codes, code ≤ 0x10ffff)
    (hunpaired : Unpaired codes) :
    Quoted (codes.flatMap CodePointString.encoded) (codes.flatMap codePointText) := by
  intro rest
  induction codes with
  | nil => simp [Grammar.chars]
  | cons code codes ih =>
    obtain ⟨hcode, hmore⟩ := List.forall_mem_cons.mp hcodes
    obtain ⟨hhead, htail⟩ := List.isChain_cons.mp hunpaired
    have hlow : Grammar.isHigh code →
        Grammar.lowEscape (codes.flatMap codePointText ++ quote :: rest) = none := by
      intro hhigh
      cases codes with
      | nil => rfl
      | cons next codes =>
        have hnext : Grammar.isLow next = false := by
          simpa [hhigh] using hhead next rfl
        rw [List.flatMap_cons, List.append_assoc]
        exact lowEscape_codePointText (hmore next List.mem_cons_self) hnext _
    rw [List.flatMap_cons, List.append_assoc, chars_codePointText hcode hlow, ih hmore htail]
    rfl

theorem stringText_spells {string : CodePointString} (h : IsRead string) :
    ∃ body, stringText string = quote :: (body ++ [quote]) ∧ Quoted string.bytes body := by
  obtain ⟨codes, hcodes⟩ := h
  have hstring : string = CodePointString.ofCodePoints codes := by
    cases string
    exact congrArg CodePointString.mk hcodes.encoded
  have hpoints : string.codePoints = codes := by
    rw [hstring]
    exact CodePointString.codePoints_ofCodePoints hcodes.bound
  refine ⟨codes.flatMap codePointText, by rw [stringText, hpoints], ?_⟩
  rw [hcodes.encoded]
  exact quoted_codes hcodes.bound hcodes.unpaired

/-! ## Values -/

section Values

variable {φ : Type} (f64 : F64 φ)

/-- The work stack writes these steps as a text, whatever is below them. -/
def Writes (steps : List (Step φ)) (output : Bytes) : Prop :=
  ∀ text pending, writeAll (jsonText f64) text (steps ++ pending) =
    writeAll (jsonText f64) (text ++ output) pending

theorem Writes.append {steps steps' : List (Step φ)} {output output' : Bytes}
    (h : Writes f64 steps output) (h' : Writes f64 steps' output') :
    Writes f64 (steps ++ steps') (output ++ output') := by
  intro text pending
  rw [List.append_assoc, h, h', List.append_assoc]

theorem writes_text (raw : Bytes) : Writes f64 [.text raw] raw := by
  intro text pending
  rw [List.singleton_append, writeAll]

theorem writes_key (key : CodePointString) : Writes f64 [.key key] (stringText key) := by
  intro text pending
  rw [List.singleton_append, writeAll]
  rfl

theorem writes_value {value : JsonValue φ} {output : Bytes}
    (h : ∀ pending, pushValue (jsonText f64) value pending = (output, pending)) :
    Writes f64 [.value value] output := by
  intro text pending
  rw [List.singleton_append, writeAll, h]

section Items

variable {α : Type} {spells : α → Bytes → Prop} {steps : α → List (Step φ)}

theorem writes_separated (closer : UInt8) (before : Bytes) {first : α} {more : List α}
    (h : ∀ item ∈ first :: more, ∃ output, spells item output ∧ Writes f64 (steps item) output)
    (hbefore : before.all isWhitespace) :
    ∃ body, Parser.Listed isWhitespace comma closer spells (first :: more) (before ++ body) ∧
      Writes f64 (steps first ++ (separated (more.map steps) ++ [.text [closer]])) body := by
  have hnone : ([] : Bytes).all isWhitespace := rfl
  obtain ⟨output, hspells, hwrites⟩ := h first List.mem_cons_self
  induction more generalizing first before output with
  | nil =>
    refine ⟨output ++ [closer], .last hbefore hspells hnone, ?_⟩
    exact hwrites.append f64 (writes_text f64 [closer])
  | cons next more ih =>
    have hmore := fun item hitem => h item (List.mem_cons_of_mem _ hitem)
    obtain ⟨output', hspells', hwrites'⟩ := hmore next List.mem_cons_self
    obtain ⟨body, hlisted, hbody⟩ := ih [space] hmore rfl output' hspells' hwrites'
    refine ⟨output ++ ([comma, space] ++ body), .cons hbefore hspells hnone hlisted, ?_⟩
    have hall := hwrites.append f64 ((writes_text f64 [comma, space]).append f64 hbody)
    simpa [separated] using hall

theorem writes_items (closer : UInt8) {items : List α}
    (h : ∀ item ∈ items, ∃ output, spells item output ∧ Writes f64 (steps item) output) :
    ∃ body, SpellsItems closer spells items body ∧ ∀ text pending,
      writeAll (jsonText f64) text (pushItems pending [closer] (items.map steps)) =
        writeAll (jsonText f64) (text ++ body) pending := by
  simp only [pushItems_eq]
  cases items with
  | nil =>
    refine ⟨[closer], .inl ⟨rfl, [], rfl, rfl⟩, fun text pending => ?_⟩
    exact writes_text f64 [closer] text pending
  | cons first more =>
    obtain ⟨body, hlisted, hbody⟩ := writes_separated f64 closer [] h rfl
    refine ⟨body, .inr hlisted, fun text pending => ?_⟩
    simpa using hbody text pending

end Items

/-- The number is part of the value. -/
inductive JsonValue.Holds (number : φ) : JsonValue φ → Prop where
  | float : Holds number (.float number)
  | array {items : List (JsonValue φ)} {item : JsonValue φ} (hitem : item ∈ items)
      (h : Holds number item) : Holds number (.array items)
  | object {pairs : List (CodePointString × JsonValue φ)} {pair : CodePointString × JsonValue φ}
      (hpair : pair ∈ pairs) (h : Holds number pair.2) : Holds number (.object pairs)

theorem scalar_spells {depth : Nat} {value : JsonValue φ} (h : Readable f64 depth value)
    (hfloats : ∀ number, value.Holds number → Rereads f64 (.float number) (floatValue f64 number))
    (hscalar : value.isScalar) :
    ∃ output, Rereads f64 value output ∧ Writes f64 [.value value] output := by
  cases value with
  | null =>
    have hword := parse_of_constant f64 (utf8 "null".toList) .null (by simp [constants])
    exact ⟨_, hword, writes_value f64 fun _ => rfl⟩
  | bool flag =>
    cases flag with
    | false =>
      have hword := parse_of_constant f64 (utf8 "false".toList) (.bool false) (by simp [constants])
      exact ⟨_, hword, writes_value f64 fun _ => rfl⟩
    | true =>
      have hword := parse_of_constant f64 (utf8 "true".toList) (.bool true) (by simp [constants])
      exact ⟨_, hword, writes_value f64 fun _ => rfl⟩
  | int digits =>
    refine ⟨digits, ?_, writes_value f64 fun _ => rfl⟩
    cases depth <;> exact h
  | float number => exact ⟨_, hfloats number .float, writes_value f64 fun _ => rfl⟩
  | str _ => cases hscalar
  | array _ => cases hscalar
  | object _ => cases hscalar

theorem spells_of_rereads {depth : Nat} {value : JsonValue φ} {output : Bytes}
    (hscalar : value.isScalar) (h : Rereads f64 value output) : Spells f64 depth value output := by
  cases value with
  | str _ => cases hscalar
  | array _ => cases hscalar
  | object _ => cases hscalar
  | _ => cases depth <;> exact h

/-- The writer's text of a value that the reader can produce spells it. -/
theorem value_spells (depth : Nat) {value : JsonValue φ} (h : Readable f64 depth value)
    (hfloats : ∀ number, value.Holds number → Rereads f64 (.float number) (floatValue f64 number)) :
    ∃ output, Spells f64 depth value output ∧ Writes f64 [.value value] output := by
  induction depth generalizing value with
  | zero =>
    cases value with
    | str string =>
      obtain ⟨body, htext, hbody⟩ := stringText_spells h
      exact ⟨stringText string, ⟨body, htext, hbody⟩, writes_value f64 fun _ => rfl⟩
    | array items => cases h
    | object pairs => cases h
    | _ =>
      obtain ⟨output, hreads, hwrites⟩ := scalar_spells f64 h hfloats rfl
      exact ⟨output, spells_of_rereads f64 rfl hreads, hwrites⟩
  | succ depth ih =>
    cases value with
    | str string =>
      obtain ⟨body, htext, hbody⟩ := stringText_spells h
      exact ⟨stringText string, ⟨body, htext, hbody⟩, writes_value f64 fun _ => rfl⟩
    | array items =>
      obtain ⟨body, hbody, hwrites⟩ := writes_items f64 rightBracket
        (fun item hitem => ih (h item hitem) fun number hnumber => hfloats number (.array hitem hnumber))
      refine ⟨leftBracket :: body, ⟨body, rfl, hbody⟩, fun text pending => ?_⟩
      rw [List.singleton_append, writeAll]
      simpa [pushValue] using hwrites (text ++ [leftBracket]) pending
    | object pairs =>
      have hpairs : ∀ pair ∈ pairs, ∃ output, SpellsPair (Spells f64 depth) pair output ∧
          Writes f64 [Step.key pair.1, .text [colon, space], .value pair.2] output := by
        intro pair hpair
        obtain ⟨hkey, hreadable⟩ := h.2 pair hpair
        obtain ⟨body, htext, hbody⟩ := stringText_spells hkey
        obtain ⟨inner, hinner, hwrites⟩ :=
          ih hreadable fun number hnumber => hfloats number (.object hpair hnumber)
        refine ⟨stringText pair.1 ++ ([colon, space] ++ inner), ?_, ?_⟩
        · exact ⟨body, [], [space], inner, hbody, rfl, rfl, hinner, by simp [htext]⟩
        · exact (writes_key f64 pair.1).append f64 ((writes_text f64 [colon, space]).append f64 hwrites)
      obtain ⟨body, hbody, hwrites⟩ := writes_items f64 rightBrace hpairs
      refine ⟨leftBrace :: body, ⟨body, rfl, h.1, hbody⟩, fun text pending => ?_⟩
      rw [List.singleton_append, writeAll]
      simpa [pushValue] using hwrites (text ++ [leftBrace]) pending
    | _ =>
      obtain ⟨output, hreads, hwrites⟩ := scalar_spells f64 h hfloats rfl
      exact ⟨output, spells_of_rereads f64 rfl hreads, hwrites⟩

/-- A value that was read from a text is read again from the text that it is written as, when each
float in it is read from its own text. -/
theorem parse_valueText {text : Text} {value : JsonValue φ} (h : parse (utf8 text) f64 = .ok value)
    (hfloats : ∀ number, value.Holds number →
      parse (floatValue f64 number) f64 = .ok (.float number)) :
    parse (valueText f64 value) f64 = .ok value := by
  obtain ⟨output, hspells, hwrites⟩ := value_spells f64 maxDepth (parse_readable f64 h) hfloats
  have hwritten : valueText f64 value = output := by
    have hall := hwrites [] []
    rwa [writeAll, List.append_nil, List.nil_append] at hall
  rw [hwritten]
  exact parse_of_spells f64 hspells

end Values

/-- Numbers held as their own texts. -/
def literals : F64 Bytes where
  parse := some
  nan := utf8 "nan".toList
  infinity := utf8 "inf".toList
  negInfinity := utf8 "-inf".toList
  isNan number := number == utf8 "nan".toList
  isInfinite number := number == utf8 "inf".toList || number == utf8 "-inf".toList
  isPositive number := number == utf8 "inf".toList
  floatText number := number

/-- The value of `{"a\ud800": [1.5, -0], "b": "\udc00"}`. -/
def loneSurrogates : JsonValue Bytes :=
  .object [(⟨[0x61, 0xed, 0xa0, 0x80]⟩, .array [.float (utf8 "1.5".toList), .int [zero]]),
    (⟨[0x62]⟩, .str ⟨[0xed, 0xb0, 0x80]⟩)]

theorem holds_loneSurrogates {number : Bytes} (h : loneSurrogates.Holds number) :
    number = utf8 "1.5".toList := by
  obtain - | - | ⟨hpair, h⟩ := h
  simp only [List.mem_cons, List.not_mem_nil, or_false] at hpair
  obtain rfl | rfl := hpair
  · obtain - | ⟨hitem, h⟩ := h
    simp only [List.mem_cons, List.not_mem_nil, or_false] at hitem
    obtain rfl | rfl := hitem <;> cases h
    rfl
  · cases h

theorem parse_valueText_loneSurrogates :
    parse (utf8 "\x7b\"a\\ud800\": [1.5, -0], \"b\": \"\\udc00\"\x7d".toList) literals =
        .ok loneSurrogates ∧
      parse (valueText literals loneSurrogates) literals = .ok loneSurrogates := by
  have hparse : parse (utf8 "\x7b\"a\\ud800\": [1.5, -0], \"b\": \"\\udc00\"\x7d".toList) literals =
      .ok loneSurrogates := by with_unfolding_all rfl
  refine ⟨hparse, parse_valueText literals hparse fun number hnumber => ?_⟩
  rw [holds_loneSurrogates hnumber]
  with_unfolding_all rfl

end Agentless.Json
