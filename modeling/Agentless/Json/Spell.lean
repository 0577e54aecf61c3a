import Agentless.Json.ParseExact

/-!
# Texts that spell a value

`Spells depth value text` says that a text is a spelling of a value with at most `depth` containers
around any part of it, whatever blanks its containers are laid out with. Every spelling is read
back: `value_reads`. A writer is then correct once its texts are spellings.
-/

namespace Agentless.Json

open Ascii

/-- A byte that a number goes on with. -/
def continues (byte : UInt8) : Bool :=
  isDigit byte || byte == point || byte == lowerE || byte == upperE

/-- What may follow a number. -/
def Stops (rest : Bytes) : Prop := rest.head?.all fun byte => !continues byte

theorem stops_nil : Stops [] := rfl

theorem stops_cons {byte : UInt8} {rest : Bytes} (h : continues byte = false) :
    Stops (byte :: rest) := by
  simp [Stops, h]

/-! ## Numbers -/

theorem takeWhile_append_stop {α : Type} {p : α → Bool} {items rest : List α} (hitems : items.all p)
    (hrest : rest.head?.all fun item => !p item) : (items ++ rest).takeWhile p = items := by
  rw [List.takeWhile_append_of_pos (List.all_eq_true.mp hitems)]
  cases rest with
  | nil => simp
  | cons item rest =>
    have hitem : p item = false := by simpa using hrest
    simp [hitem]

theorem dropWhile_append_stop {α : Type} {p : α → Bool} {items rest : List α} (hitems : items.all p)
    (hrest : rest.head?.all fun item => !p item) : (items ++ rest).dropWhile p = rest := by
  rw [List.dropWhile_append_of_pos (List.all_eq_true.mp hitems)]
  cases rest with
  | nil => simp
  | cons item rest =>
    have hitem : p item = false := by simpa using hrest
    simp [hitem]

/-- What follows digits: no digit. -/
def StopsDigits (rest : Bytes) : Prop := rest.head?.all fun byte => !isDigit byte

theorem digits_append_stop {input digits rest tail : Bytes}
    (h : Grammar.digits input = some (digits, rest)) (htail : StopsDigits tail) :
    Grammar.digits (digits ++ tail) = some (digits, tail) := by
  unfold Grammar.digits at h
  split_ifs at h with hhead
  cases h
  have hall : (input.takeWhile isDigit).all isDigit := List.all_takeWhile
  have hne : (input.takeWhile isDigit).head?.any isDigit := by
    cases input with
    | nil => simp at hhead
    | cons byte input =>
      have hbyte : isDigit byte := by simpa using hhead
      simp [hbyte]
  rw [Grammar.digits, takeWhile_append_stop hall htail, dropWhile_append_stop hall htail, if_pos]
  cases hdigits : input.takeWhile isDigit with
  | nil => simp [hdigits] at hne
  | cons byte digits => simpa [hdigits] using hne

theorem whole_append_stop {input whole rest tail : Bytes}
    (h : Grammar.whole input = some (whole, rest)) (htail : StopsDigits tail) :
    Grammar.whole (whole ++ tail) = some (whole, tail) := by
  unfold Grammar.whole at h
  split at h
  · cases h
  · rename_i byte input
    split_ifs at h with hzero hdigit
    · cases h
      simp [Grammar.whole]
    · cases h
      have hall : (input.takeWhile isDigit).all isDigit := List.all_takeWhile
      rw [List.cons_append, Grammar.whole, if_neg hzero, if_pos hdigit,
        takeWhile_append_stop hall htail, dropWhile_append_stop hall htail]

theorem fraction_append_stop {input tail : Bytes} (hdigits : StopsDigits tail)
    (hpoint : tail.head? ≠ some point) :
    Grammar.fraction ((Grammar.fraction input).1 ++ tail) = ((Grammar.fraction input).1, tail) := by
  cases hfraction : (if input.head? = some point then Grammar.digits input.tail else none) with
  | none =>
    have hempty : (Grammar.fraction input).1 = [] := by simp only [Grammar.fraction, hfraction]
    rw [hempty, List.nil_append, Grammar.fraction, if_neg hpoint]
  | some result =>
    obtain ⟨digits, rest⟩ := result
    have hpart : (Grammar.fraction input).1 = point :: digits := by
      simp only [Grammar.fraction, hfraction]
    split_ifs at hfraction
    rw [hpart]
    simp [Grammar.fraction, digits_append_stop hfraction hdigits]

theorem optional_append_stop {choice : UInt8 → Bool} (input : Bytes) {tail : Bytes}
    (htail : tail.head?.any choice = false) :
    Grammar.optional choice ((Grammar.optional choice input).1 ++ tail) =
      ((Grammar.optional choice input).1, tail) := by
  by_cases hhead : input.head?.any choice
  · cases input with
    | nil => simp at hhead
    | cons byte input =>
      have hbyte : choice byte := by simpa using hhead
      simp [Grammar.optional, hbyte]
  · simp [Grammar.optional, hhead, htail]

theorem digits_head {input digits rest : Bytes}
    (h : Grammar.digits input = some (digits, rest)) : digits.head?.any isDigit := by
  unfold Grammar.digits at h
  split_ifs at h with hhead
  cases h
  cases input with
  | nil => simp at hhead
  | cons byte input =>
    have hbyte : isDigit byte := by simpa using hhead
    simp [hbyte]

theorem stopsDigits_of_stops {tail : Bytes} (h : Stops tail) : StopsDigits tail := by
  cases tail with
  | nil => rfl
  | cons byte tail =>
    have hbyte : continues byte = false := by simpa [Stops] using h
    simp only [continues, Bool.or_eq_false_iff] at hbyte
    simp [StopsDigits, hbyte]

theorem ne_point_of_stops {tail : Bytes} (h : Stops tail) : tail.head?.all (· != point) := by
  cases tail with
  | nil => rfl
  | cons byte tail =>
    have hbyte : continues byte = false := by simpa [Stops] using h
    simp only [continues, Bool.or_eq_false_iff] at hbyte
    simpa using hbyte.1.1.2

theorem exponent_of_stops {tail : Bytes} (h : Stops tail) : Grammar.exponent tail = ([], tail) := by
  cases tail with
  | nil => rfl
  | cons byte tail =>
    have hbyte : continues byte = false := by simpa [Stops] using h
    simp only [continues, Bool.or_eq_false_iff] at hbyte
    simp [Grammar.exponent, hbyte]

theorem exponent_append_stop (input : Bytes) {tail : Bytes} (htail : Stops tail) :
    Grammar.exponent ((Grammar.exponent input).1 ++ tail) = ((Grammar.exponent input).1, tail) := by
  cases input with
  | nil => exact exponent_of_stops htail
  | cons mark input =>
    cases hdigits : (if mark == lowerE || mark == upperE then
        Grammar.digits (Grammar.optional Grammar.isSign input).2 else none) with
    | none =>
      have hempty : (Grammar.exponent (mark :: input)).1 = [] := by
        simp only [Grammar.exponent, hdigits]
      rw [hempty]
      exact exponent_of_stops htail
    | some result =>
      obtain ⟨digits, rest⟩ := result
      have hpart : (Grammar.exponent (mark :: input)).1 =
          mark :: ((Grammar.optional Grammar.isSign input).1 ++ digits) := by
        simp only [Grammar.exponent, hdigits]
      split_ifs at hdigits with hmark
      have hsign : (digits ++ tail).head?.any Grammar.isSign = false := by
        have hhead := digits_head hdigits
        cases digits with
        | nil => simp at hhead
        | cons digit digits =>
          have hdigit : isDigit digit := by simpa using hhead
          by_contra hsome
          have hnot : (some digit).any isDigit = false :=
            not_isDigit_of_isSign (by simpa using hsome)
          simp [hdigit] at hnot
      rw [hpart, List.cons_append, List.append_assoc, Grammar.exponent,
        optional_append_stop input hsign]
      simp [hmark, digits_append_stop hdigits (stopsDigits_of_stops htail)]

theorem exponent_head (input : Bytes) :
    (Grammar.exponent input).1.head?.all fun byte => byte == lowerE || byte == upperE := by
  unfold Grammar.exponent
  split
  · rfl
  · dsimp only
    split
    · rename_i hdigits
      split_ifs at hdigits with hmark
      simpa using hmark
    · rfl

theorem fraction_head (input : Bytes) :
    (Grammar.fraction input).1.head?.all fun byte => byte == point := by
  unfold Grammar.fraction
  split <;> simp

theorem head?_append_all {p q : UInt8 → Bool} {part tail : Bytes} (hpart : part.head?.all p)
    (htail : tail.head?.all q) (himp : ∀ byte, p byte → q byte) : (part ++ tail).head?.all q := by
  cases part with
  | nil => exact htail
  | cons byte part =>
    have hbyte : p byte := by simpa using hpart
    simpa using himp byte hbyte

/-- A number is read again from its own text, whatever stops it. -/
theorem numeral_literal_append {input rest tail : Bytes} {numeral : Grammar.Numeral}
    (h : Grammar.numeral input = some (numeral, rest)) (htail : Stops tail) :
    Grammar.numeral (numeral.literal ++ tail) = some (numeral, tail) := by
  obtain ⟨⟨whole, afterWhole⟩, hwhole, heq⟩ := Option.map_eq_some_iff.mp h
  obtain ⟨rfl, -⟩ := Prod.mk.injEq .. ▸ heq
  -- What follows each part does not go on with it.
  have hexponent : StopsDigits ((Grammar.exponent (Grammar.fraction afterWhole).2).1 ++ tail) := by
    refine head?_append_all (exponent_head _) (stopsDigits_of_stops htail) ?_
    intro byte hbyte
    rcases Bool.or_eq_true_iff.mp hbyte with h | h <;> rw [eq_of_beq h] <;> decide
  have hpoint : ((Grammar.exponent (Grammar.fraction afterWhole).2).1 ++ tail).head? ≠
      some point := by
    have hall : ((Grammar.exponent (Grammar.fraction afterWhole).2).1 ++ tail).head?.all
        (· != point) := by
      refine head?_append_all (exponent_head _) (ne_point_of_stops htail) ?_
      intro byte hbyte
      rcases Bool.or_eq_true_iff.mp hbyte with h | h <;> rw [eq_of_beq h] <;> decide
    intro hsome
    simp [hsome] at hall
  have hfraction : StopsDigits ((Grammar.fraction afterWhole).1 ++
      ((Grammar.exponent (Grammar.fraction afterWhole).2).1 ++ tail)) := by
    refine head?_append_all (fraction_head _) hexponent ?_
    intro byte hbyte
    rw [eq_of_beq hbyte]
    decide
  have hminus : (whole ++ ((Grammar.fraction afterWhole).1 ++
      ((Grammar.exponent (Grammar.fraction afterWhole).2).1 ++ tail))).head?.any (· == minus) =
        false := by
    have hhead := whole_head hwhole
    cases whole with
    | nil => simp at hhead
    | cons byte whole =>
      have hbyte : isDigit byte := by simpa using hhead
      simp only [List.cons_append, List.head?_cons, Option.any_some, beq_eq_false_iff_ne]
      rintro rfl
      exact absurd hbyte (by decide)
  simp only [Grammar.Numeral.literal, List.append_assoc]
  simp only [Grammar.numeral, optional_append_stop input hminus,
    whole_append_stop hwhole hfraction, Option.map_some,
    fraction_append_stop hexponent hpoint, exponent_append_stop _ htail]

section Values

variable {φ : Type} (f64 : F64 φ)

theorem startsNumber_literal {input rest : Bytes} {numeral : Grammar.Numeral}
    (h : Grammar.numeral input = some (numeral, rest)) (tail : Bytes) :
    startsNumber (numeral.literal ++ tail) := by
  obtain ⟨⟨whole, afterWhole⟩, hwhole, heq⟩ := Option.map_eq_some_iff.mp h
  obtain ⟨rfl, -⟩ := Prod.mk.injEq .. ▸ heq
  have hhead := whole_head hwhole
  cases whole with
  | nil => simp at hhead
  | cons byte whole =>
    have hbyte : isDigit byte := by simpa using hhead
    simp only [Grammar.Numeral.literal, Grammar.optional]
    split_ifs with hminus
    · cases input with
      | nil => simp at hminus
      | cons sign input =>
        have hsign : sign = minus := by simpa using hminus
        simp [startsNumber, hsign, hbyte]
    · simp [startsNumber, hbyte]

/-- No word is the start of another. -/
theorem find?_constants_append {constant : Bytes × JsonValue φ} (h : constant ∈ constants f64)
    (tail : Bytes) :
    ((constants f64).find? fun other => other.1.isPrefixOf (constant.1 ++ tail)) =
      some constant := by
  simp only [constants, List.mem_cons, List.not_mem_nil, or_false] at h
  rcases h with rfl | rfl | rfl | rfl | rfl | rfl <;> rfl

/-- A number or a word is read again from its own text, whatever stops it. -/
theorem scalar_append {text rest : Bytes} {value : JsonValue φ}
    (h : Grammar.scalar f64 text = some (value, rest)) {tail : Bytes} (htail : Stops tail) :
    ∃ taken, text = taken ++ rest ∧ taken ≠ [] ∧
      Grammar.scalar f64 (taken ++ tail) = some (value, tail) := by
  unfold Grammar.scalar at h
  split at h
  · rename_i word value' hfind
    cases h
    have hpre : word <+: text := by simpa using List.find?_some hfind
    obtain ⟨rest, rfl⟩ := hpre
    have hmem := List.mem_of_find?_eq_some hfind
    refine ⟨word, by simp, List.ne_nil_of_length_pos (length_pos_of_mem_constants f64 hmem), ?_⟩
    rw [Grammar.scalar, find?_constants_append f64 hmem]
    simp
  · obtain ⟨⟨numeral, rest'⟩, hnumeral, h⟩ := Option.bind_eq_some_iff.mp h
    obtain ⟨_, hvalue, heq⟩ := Option.map_eq_some_iff.mp h
    cases heq
    obtain ⟨hne, happend⟩ := Grammar.numeral_append hnumeral
    refine ⟨numeral.literal, happend.symm, ?_, ?_⟩
    · simp [Grammar.Numeral.literal, hne]
    · rw [Grammar.scalar, find?_constants_of_startsNumber f64 (startsNumber_literal hnumeral tail)]
      simp [Grammar.number, numeral_literal_append hnumeral htail, hvalue]

/-! ## Values -/

/-- The text between the quotes of a string with these bytes. -/
def Quoted (bytes body : Bytes) : Prop :=
  ∀ rest, Grammar.chars (body ++ quote :: rest) = some (bytes, rest)

/-- A text that is read as a value on its own. -/
def Rereads (value : JsonValue φ) (text : Bytes) : Prop := parse text f64 = .ok value

/-- A text spells a pair when it is a quoted key, a colon and the value's text, with blanks between. -/
def SpellsPair (spells : JsonValue φ → Bytes → Prop) (pair : CodePointString × JsonValue φ)
    (text : Bytes) : Prop :=
  ∃ body before after inner, Quoted pair.1.bytes body ∧ before.all isWhitespace ∧
    after.all isWhitespace ∧ spells pair.2 inner ∧
    text = quote :: (body ++ quote :: (before ++ colon :: (after ++ inner)))

/-- A container's text: blanks and its closer when it is empty, else its items. -/
def SpellsItems {α : Type} (closer : UInt8) (spells : α → Bytes → Prop) (items : List α)
    (text : Bytes) : Prop :=
  (items = [] ∧ ∃ blank : Bytes, blank.all isWhitespace ∧ text = blank ++ [closer]) ∨
    Parser.Listed isWhitespace comma closer spells items text

/-- A text spells a value with at most `depth` containers around any part of it. Numbers and words
are spelled by any text that is read as them. -/
def Spells : Nat → JsonValue φ → Bytes → Prop
  | depth + 1, .array items, text =>
    ∃ body, text = leftBracket :: body ∧ SpellsItems rightBracket (Spells depth) items body
  | depth + 1, .object pairs, text =>
    ∃ body, text = leftBrace :: body ∧ (pairs.map Prod.fst).Nodup ∧
      SpellsItems rightBrace (SpellsPair (Spells depth)) pairs body
  | _, .str string, text => ∃ body, text = quote :: (body ++ [quote]) ∧ Quoted string.bytes body
  | 0, .array _, _ | 0, .object _, _ => False
  | _, value, text => Rereads f64 value text

theorem not_continues_of_isWhitespace {byte : UInt8} (h : isWhitespace byte) :
    continues byte = false := by
  simp only [isWhitespace, Bool.or_eq_true, beq_iff_eq] at h
  rcases h with ((rfl | rfl) | rfl) | rfl <;> decide

theorem stops_blank_append {blank rest : Bytes} (hblank : blank.all isWhitespace)
    (hrest : Stops rest) : Stops (blank ++ rest) := by
  cases blank with
  | nil => exact hrest
  | cons byte blank =>
    have hbyte : isWhitespace byte := by
      rw [List.all_cons, Bool.and_eq_true] at hblank
      exact hblank.1
    exact stops_cons (not_continues_of_isWhitespace hbyte)

/-- The symbols of a container end a number. -/
theorem ends_stops {closer : UInt8} (hcloser : continues closer = false) :
    Parser.Ends isWhitespace comma closer Stops := by
  intro after symbol rest hafter hsymbol
  refine stops_blank_append hafter (stops_cons ?_)
  rcases hsymbol with rfl | rfl
  · decide
  · exact hcloser

theorem skipSpace_append {text : Bytes} (h : Grammar.skipSpace text ≠ []) (rest : Bytes) :
    Grammar.skipSpace (text ++ rest) = Grammar.skipSpace text ++ rest := by
  rw [Grammar.skipSpace, List.dropWhile_append, if_neg (by simpa [Grammar.skipSpace] using h)]
  rfl

theorem skipSpace_eq_nil {text : Bytes} (h : Grammar.skipSpace text = []) :
    text.all isWhitespace := by
  simpa [Grammar.skipSpace] using h

def JsonValue.isScalar : JsonValue φ → Bool
  | .null | .bool _ | .int _ | .float _ => true
  | .str _ | .array _ | .object _ => false

theorem container_value {closer : UInt8} {empty value : JsonValue φ}
    {items : Bytes → Option (JsonValue φ × Bytes)} {input rest : Bytes}
    (h : Grammar.container closer empty items input = some (value, rest)) :
    value = empty ∨ ∃ input rest, items input = some (value, rest) := by
  unfold Grammar.container at h
  dsimp only at h
  split_ifs at h
  · cases h
    exact .inl rfl
  · exact .inr ⟨_, _, h⟩

theorem scalar_of_valueOf {inner : Option (Parser UInt8 (JsonValue φ))} {input rest : Bytes}
    {value : JsonValue φ} (h : Grammar.valueOf f64 inner input = some (value, rest))
    (hscalar : value.isScalar) :
    (input.head? ≠ some quote ∧ input.head? ≠ some leftBracket ∧ input.head? ≠ some leftBrace) ∧
      Grammar.scalar f64 input = some (value, rest) := by
  unfold Grammar.valueOf at h
  split_ifs at h with hquote hbracket hbrace
  · obtain ⟨_, -, heq⟩ := Option.map_eq_some_iff.mp h
    cases heq
    cases hscalar
  · obtain ⟨item, -, h⟩ := Option.bind_eq_some_iff.mp h
    obtain rfl | ⟨_, _, h⟩ := container_value h
    · cases hscalar
    · obtain ⟨_, -, heq⟩ := Option.map_eq_some_iff.mp h
      cases heq
      cases hscalar
  · obtain ⟨item, -, h⟩ := Option.bind_eq_some_iff.mp h
    obtain rfl | ⟨_, _, h⟩ := container_value h
    · cases hscalar
    · obtain ⟨_, -, heq⟩ := Option.map_eq_some_iff.mp h
      cases heq
      cases hscalar
  · exact ⟨⟨hquote, hbracket, hbrace⟩, h⟩

/-- A number or a word that a text gives on its own is read from it in any place. -/
theorem valueOf_of_rereads {value : JsonValue φ} {text : Bytes} (hscalar : value.isScalar)
    (h : Rereads f64 value text) (inner : Option (Parser UInt8 (JsonValue φ))) {rest : Bytes}
    (hrest : Stops rest) :
    ∃ rest', Grammar.valueOf f64 inner (Grammar.skipSpace (text ++ rest)) = some (value, rest') ∧
      Grammar.skipSpace rest' = Grammar.skipSpace rest := by
  have hdocument : Grammar.document f64 text = some value := by
    rw [← parse_toOption, h]
    rfl
  obtain ⟨⟨value', blank⟩, hrun, hend⟩ := Option.bind_eq_some_iff.mp hdocument
  dsimp only at hend
  split_ifs at hend with hblank
  cases hend
  have hvalue := value_run f64 0
  rw [Nat.sub_zero] at hvalue
  rw [hvalue] at hrun
  obtain ⟨hheads, hread⟩ := scalar_of_valueOf f64 hrun hscalar
  have hblank := skipSpace_eq_nil hblank
  obtain ⟨taken, htaken, hne, hread⟩ := scalar_append f64 hread (stops_blank_append hblank hrest)
  refine ⟨blank ++ rest, ?_, Parser.dropWhile_append_all isWhitespace hblank rest⟩
  have hskip : Grammar.skipSpace (text ++ rest) = taken ++ (blank ++ rest) := by
    rw [skipSpace_append (by simp [htaken, hne]), htaken, List.append_assoc]
  have hhead : (taken ++ (blank ++ rest)).head? = (Grammar.skipSpace text).head? := by
    rw [htaken, List.head?_append_of_ne_nil _ hne, List.head?_append_of_ne_nil _ hne]
  rw [hskip, Grammar.valueOf, hhead, if_neg hheads.1, if_neg hheads.2.1, if_neg hheads.2.2]
  exact hread

theorem skipSpace_cons {byte : UInt8} (h : isWhitespace byte = false) (rest : Bytes) :
    Grammar.skipSpace (byte :: rest) = byte :: rest :=
  List.dropWhile_cons_of_neg (by simp [h])

theorem skipSpace_blank_cons {blank : Bytes} (hblank : blank.all isWhitespace) {byte : UInt8}
    (h : isWhitespace byte = false) (rest : Bytes) :
    Grammar.skipSpace (blank ++ byte :: rest) = byte :: rest :=
  (Parser.dropWhile_append_all isWhitespace hblank _).trans (skipSpace_cons h rest)

/-- Pairs with distinct keys are what an object keeps of them. -/
theorem lastValues_of_nodup {pairs : List (CodePointString × JsonValue φ)}
    (h : (pairs.map Prod.fst).Nodup) : Grammar.lastValues pairs = pairs := by
  simp only [Grammar.lastValues, Assoc.eraseDups_of_nodup h, Assoc.lookup_reverse h]
  exact (Assoc.eq_filterMap_lookup h).symm

theorem member_reads {depth : Nat}
    (hvalue : ∀ value text, Spells f64 depth value text →
      Parser.Reads isWhitespace Stops (Grammar.value f64 depth) value text)
    (pair : CodePointString × JsonValue φ) (text : Bytes)
    (h : SpellsPair (Spells f64 depth) pair text) :
    Parser.Reads isWhitespace Stops (Grammar.memberParser (Grammar.value f64 depth)) pair text := by
  obtain ⟨body, before, after, inner, hbody, hbefore, hafter, hinner, rfl⟩ := h
  intro rest hrest
  obtain ⟨rest', hrun, hrest'⟩ := hvalue pair.2 inner hinner rest hrest
  refine ⟨rest', ?_, hrest'⟩
  have hread : Grammar.member (Grammar.value f64 depth)
      (quote :: (body ++ quote :: (before ++ colon :: (after ++ (inner ++ rest))))) =
        some (pair, rest') := by
    unfold Grammar.member
    simp only [List.head?_cons, if_true, List.tail_cons, hbody _, Option.bind_some,
      skipSpace_blank_cons hbefore (show isWhitespace colon = false by decide)]
    rw [Grammar.skipSpace, Parser.dropWhile_append_all isWhitespace hafter, hrun]
    rfl
  have hskip : List.dropWhile isWhitespace
      (quote :: (body ++ quote :: (before ++ colon :: (after ++ inner))) ++ rest) =
        quote :: (body ++ quote :: (before ++ colon :: (after ++ (inner ++ rest)))) := by
    rw [List.cons_append, List.dropWhile_cons_of_neg (by decide)]
    simp
  rw [hskip]
  exact hread

/-- The items of a container are read, and then it closes. -/
theorem whole_of_spells {depth : Nat} (frame : Frame φ) {body : Bytes} {rest : Bytes}
    {value : JsonValue φ}
    (hitems : frame.items (Grammar.value f64 depth) (Grammar.skipSpace (body ++ rest)) =
      some (value, rest)) :
    frame.whole (Grammar.value f64 depth) (body ++ rest) = some (value, rest) := by
  unfold Frame.whole
  dsimp only
  rw [if_neg]
  · exact hitems
  · intro hcloser
    rw [items_closer f64 depth frame hcloser] at hitems
    cases hitems

theorem whole_of_blank {depth : Nat} (frame : Frame φ) {blank : Bytes}
    (hblank : blank.all isWhitespace) (hcloser : isWhitespace frame.shape.closer = false)
    (rest : Bytes) :
    frame.whole (Grammar.value f64 depth) (blank ++ frame.shape.closer :: rest) =
      some (frame.intoValue, rest) := by
  unfold Frame.whole
  dsimp only
  rw [skipSpace_blank_cons hblank hcloser]
  simp

theorem str_reads (inner : Option (Parser UInt8 (JsonValue φ))) {string : CodePointString}
    {body : Bytes} (hbody : Quoted string.bytes body) (rest : Bytes) :
    Grammar.valueOf f64 inner (Grammar.skipSpace (quote :: (body ++ [quote]) ++ rest)) =
      some (.str string, rest) := by
  rw [List.cons_append, skipSpace_cons (by decide), List.append_assoc]
  simp [Grammar.valueOf, hbody rest]

theorem array_reads {depth : Nat} {items : List (JsonValue φ)} {body : Bytes}
    (hitems : ∀ value text, Spells f64 depth value text →
      Parser.Reads isWhitespace Stops (Grammar.value f64 depth) value text)
    (h : SpellsItems rightBracket (Spells f64 depth) items body) (rest : Bytes) :
    Grammar.array (Grammar.value f64 depth) (body ++ rest) = some (.array items, rest) := by
  rw [whole_array]
  obtain ⟨rfl, blank, hblank, rfl⟩ | hlisted := h
  · rw [List.append_assoc]
    exact whole_of_blank f64 (.array []) hblank rfl rest
  · refine whole_of_spells f64 (.array []) ?_
    have hsepBy := Parser.sepBy_listed hitems (ends_stops (by decide)) (by decide) (by decide)
      (by decide) hlisted rest
    simp [Frame.items, Grammar.elements, Grammar.skipSpace, hsepBy]

theorem object_reads {depth : Nat} {pairs : List (CodePointString × JsonValue φ)} {body : Bytes}
    (hitems : ∀ value text, Spells f64 depth value text →
      Parser.Reads isWhitespace Stops (Grammar.value f64 depth) value text)
    (hnodup : (pairs.map Prod.fst).Nodup)
    (h : SpellsItems rightBrace (SpellsPair (Spells f64 depth)) pairs body) (rest : Bytes) :
    Grammar.object (Grammar.value f64 depth) (body ++ rest) = some (.object pairs, rest) := by
  rw [whole_object]
  obtain ⟨rfl, blank, hblank, rfl⟩ | hlisted := h
  · rw [List.append_assoc]
    exact whole_of_blank f64 (.object {}) hblank rfl rest
  · refine whole_of_spells f64 (.object {}) ?_
    have hsepBy := Parser.sepBy_listed (member_reads f64 hitems) (ends_stops (by decide))
      (by decide) (by decide) (by decide) hlisted rest
    simp [Frame.items, Grammar.members, Grammar.skipSpace, hsepBy, Object.insertAll_pairs,
      lastValues_of_nodup hnodup]

theorem value_reads (depth : Nat) (value : JsonValue φ) (text : Bytes)
    (h : Spells f64 depth value text) :
    Parser.Reads isWhitespace Stops (Grammar.value f64 depth) value text := by
  induction depth generalizing value text with
  | zero =>
    intro rest hrest
    cases value with
    | str string =>
      obtain ⟨body, rfl, hbody⟩ := h
      exact ⟨rest, str_reads f64 none hbody rest, rfl⟩
    | array items => cases h
    | object pairs => cases h
    | _ => exact valueOf_of_rereads f64 rfl h none hrest
  | succ depth ih =>
    intro rest hrest
    cases value with
    | str string =>
      obtain ⟨body, rfl, hbody⟩ := h
      exact ⟨rest, str_reads f64 (some (Grammar.value f64 depth)) hbody rest, rfl⟩
    | array items =>
      obtain ⟨body, rfl, hitems⟩ := h
      refine ⟨rest, ?_, rfl⟩
      rw [List.cons_append, List.dropWhile_cons_of_neg (by decide)]
      exact array_reads f64 ih hitems rest
    | object pairs =>
      obtain ⟨body, rfl, hnodup, hitems⟩ := h
      refine ⟨rest, ?_, rfl⟩
      rw [List.cons_append, List.dropWhile_cons_of_neg (by decide)]
      exact object_reads f64 ih hnodup hitems rest
    | _ => exact valueOf_of_rereads f64 rfl h (some (Grammar.value f64 depth)) hrest

/-- A whole text that spells a value is read as it. -/
theorem parse_of_spells {value : JsonValue φ} {text : Bytes} (h : Spells f64 maxDepth value text) :
    parse text f64 = .ok value := by
  obtain ⟨rest, hrun, hrest⟩ := value_reads f64 maxDepth value text h [] stops_nil
  rw [List.append_nil] at hrun
  have hend : Grammar.skipSpace rest = [] := hrest
  rw [← Except.toOption_eq_some_iff, parse_toOption, Grammar.document, Grammar.skipSpace, hrun]
  exact if_pos hend

end Values

end Agentless.Json
