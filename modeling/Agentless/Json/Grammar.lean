import Agentless.Json.Parse
import Agentless.Library.Parser

/-!
# The JSON grammar, by recursive descent

The grammar that the reader documents, over the bytes that are left: JSON with the words `NaN`,
`Infinity` and `-Infinity`, containers nested to a depth, integers with a bounded number of
digits, and objects in which a repeated key keeps its first position and its last value. A value
of depth `n + 1` has items of depth `n`, so the recursion is on the depth and, within a
container, on what is left of the text.
-/

namespace Agentless.Json.Grammar

open Ascii

def skipSpace (input : Bytes) : Bytes := input.dropWhile isWhitespace

/-! ## Strings -/

def hex4 (a b c d : UInt8) : Option Nat := do
  let a ← hexValue a
  let b ← hexValue b
  let c ← hexValue c
  let d ← hexValue d
  return ((a * 16 + b) * 16 + c) * 16 + d

def isHigh (code : Nat) : Bool := 0xd800 ≤ code && code ≤ 0xdbff

def isLow (code : Nat) : Bool := 0xdc00 ≤ code && code ≤ 0xdfff

def joined (high low : Nat) : Nat := 0x10000 + (high - 0xd800) * 0x400 + (low - 0xdc00)

def unescaped (letter : UInt8) : Option Nat :=
  if letter = quote then some 0x22
  else if letter = backslash then some 0x5c
  else if letter = slash then some 0x2f
  else if letter = lowerB then some 0x08
  else if letter = lowerF then some 0x0c
  else if letter = lowerN then some 0x0a
  else if letter = lowerR then some 0x0d
  else if letter = lowerT then some 0x09
  else none

/-- The four digits after a letter U, as a code unit. -/
def unit : Bytes → Option (Nat × Bytes)
  | letter :: a :: b :: c :: d :: rest =>
    if letter = lowerU then (hex4 a b c d).map fun code => (code, rest) else none
  | _ => none

/-- The escape of a low surrogate. -/
def lowEscape (input : Bytes) : Option (Nat × Bytes) :=
  if input.head? = some backslash then (unit input.tail).filter fun low => isLow low.1 else none

/-- What follows a backslash: a letter, or a code unit. The escape of a high surrogate and that of
a low one after it are one code point. -/
def escape (input : Bytes) : Option (Nat × Bytes) :=
  match unit input with
  | some (code, rest) =>
    match if isHigh code then lowEscape rest else none with
    | some (low, rest) => some (joined code low, rest)
    | none => some (code, rest)
  | none =>
    match input with
    | [] => none
    | letter :: rest => (unescaped letter).map fun code => (code, rest)

theorem unit_length {input rest : Bytes} {code : Nat} (h : unit input = some (code, rest)) :
    input.length = rest.length + 5 := by
  unfold unit at h
  split at h
  · split_ifs at h
    obtain ⟨_, -, heq⟩ := Option.map_eq_some_iff.mp h
    cases heq
    rfl
  · cases h

theorem lowEscape_shrinks {input rest : Bytes} {code : Nat}
    (h : lowEscape input = some (code, rest)) : rest.length < input.length := by
  unfold lowEscape at h
  split_ifs at h
  have := unit_length (Option.filter_eq_some_iff.mp h).1
  rw [List.length_tail] at this
  omega

theorem escape_shrinks {input rest : Bytes} {code : Nat}
    (h : escape input = some (code, rest)) : rest.length < input.length := by
  unfold escape at h
  split at h
  · rename_i unit rest' hunit
    have := unit_length hunit
    split at h
    · rename_i low rest'' hlow
      split_ifs at hlow
      have := lowEscape_shrinks hlow
      simp only [Option.some.injEq, Prod.mk.injEq] at h
      obtain ⟨-, rfl⟩ := h
      omega
    · cases h
      omega
  · split at h
    · cases h
    · obtain ⟨_, -, heq⟩ := Option.map_eq_some_iff.mp h
      cases heq
      simp

/-- The bytes of a string after its opening quote, and what follows the closing one. -/
def chars (input : Bytes) : Option (Bytes × Bytes) :=
  match input with
  | [] => none
  | byte :: rest =>
    if byte = quote then some ([], rest)
    else if byte = backslash then
      match hescape : escape rest with
      | none => none
      | some (code, rest') =>
        have := escape_shrinks hescape
        (chars rest').map fun (bytes, rest) => (CodePointString.encoded code ++ bytes, rest)
    else if byte ≤ 0x1f then none
    else (chars rest).map fun (bytes, rest) => (byte :: bytes, rest)
termination_by input.length
decreasing_by
  all_goals
    simp only [List.length_cons]
    omega

theorem chars_shrinks {input bytes rest : Bytes} (h : chars input = some (bytes, rest)) :
    rest.length < input.length := by
  fun_induction chars input generalizing bytes with
  | case1 => cases h
  | case2 =>
    cases h
    simp
  | case3 => cases h
  | case4 rest' code rest'' hescape _ _ ih =>
    obtain ⟨⟨bytes', _⟩, hchars, heq⟩ := Option.map_eq_some_iff.mp h
    cases heq
    have := ih hchars
    have := escape_shrinks hescape
    simp only [List.length_cons]
    omega
  | case5 => cases h
  | case6 byte rest' _ _ _ ih =>
    obtain ⟨⟨bytes', _⟩, hchars, heq⟩ := Option.map_eq_some_iff.mp h
    cases heq
    have := ih hchars
    simp only [List.length_cons]
    omega

/-! ## Numbers and words -/

/-- A symbol of a choice, or nothing. -/
def optional (choice : UInt8 → Bool) (input : Bytes) : Bytes × Bytes :=
  if input.head?.any choice then input.splitAt 1 else ([], input)

/-- One zero, or digits that start with none. -/
def whole : Bytes → Option (Bytes × Bytes)
  | [] => none
  | byte :: rest =>
    if byte = zero then some ([zero], rest)
    else if isDigit byte then
      some (byte :: rest.takeWhile isDigit, rest.dropWhile isDigit)
    else none

/-- At least one digit. -/
def digits (input : Bytes) : Option (Bytes × Bytes) :=
  if input.head?.any isDigit then some (input.takeWhile isDigit, input.dropWhile isDigit) else none

/-- A point and digits, or nothing. -/
def fraction (input : Bytes) : Bytes × Bytes :=
  match if input.head? = some point then digits input.tail else none with
  | some (digits, rest) => (point :: digits, rest)
  | none => ([], input)

def isSign (byte : UInt8) : Bool := byte == plus || byte == minus

/-- A letter E, at most one sign and digits, or nothing. -/
def exponent (input : Bytes) : Bytes × Bytes :=
  match input with
  | [] => ([], [])
  | mark :: rest =>
    let (sign, rest) := optional isSign rest
    match if mark == lowerE || mark == upperE then digits rest else none with
    | some (digits, rest) => (mark :: (sign ++ digits), rest)
    | none => ([], input)

/-- The parts of a number. -/
structure Numeral where
  sign : Bytes
  whole : Bytes
  fraction : Bytes
  exponent : Bytes

def Numeral.literal (numeral : Numeral) : Bytes :=
  numeral.sign ++ (numeral.whole ++ (numeral.fraction ++ numeral.exponent))

def numeral (input : Bytes) : Option (Numeral × Bytes) :=
  let sign := optional (· == minus) input
  (whole sign.2).map fun whole =>
    let fraction := fraction whole.2
    let exponent := exponent fraction.2
    (⟨sign.1, whole.1, fraction.1, exponent.1⟩, exponent.2)

/-! Each part of a number is taken off the front of the input. -/

theorem optional_append (choice : UInt8 → Bool) (input : Bytes) :
    (optional choice input).1 ++ (optional choice input).2 = input := by
  unfold optional
  split_ifs
  · rw [List.splitAt_eq]
    exact List.take_append_drop 1 input
  · rfl

theorem whole_append {input whole rest : Bytes} (h : Grammar.whole input = some (whole, rest)) :
    whole ≠ [] ∧ whole ++ rest = input := by
  unfold Grammar.whole at h
  split at h
  · cases h
  · split_ifs at h with hzero
    · cases h
      simp [hzero]
    · cases h
      simp [List.takeWhile_append_dropWhile]

theorem digits_append {input digits rest : Bytes}
    (h : Grammar.digits input = some (digits, rest)) : digits ++ rest = input := by
  unfold Grammar.digits at h
  split_ifs at h
  cases h
  exact List.takeWhile_append_dropWhile

theorem fraction_append (input : Bytes) : (fraction input).1 ++ (fraction input).2 = input := by
  unfold fraction
  split
  · rename_i digits rest hdigits
    split_ifs at hdigits with hpoint
    rw [List.cons_append, digits_append hdigits]
    exact List.cons_head?_tail hpoint
  · rfl

theorem exponent_append (input : Bytes) : (exponent input).1 ++ (exponent input).2 = input := by
  unfold exponent
  split
  · rfl
  · rename_i mark rest
    dsimp only
    split
    · rename_i digits rest' hdigits
      split_ifs at hdigits
      rw [List.cons_append, List.append_assoc, digits_append hdigits, optional_append]
    · rfl

theorem numeral_append {input rest : Bytes} {numeral : Numeral}
    (h : Grammar.numeral input = some (numeral, rest)) :
    numeral.whole ≠ [] ∧ numeral.literal ++ rest = input := by
  obtain ⟨⟨whole, afterWhole⟩, hwhole, heq⟩ := Option.map_eq_some_iff.mp h
  obtain ⟨hne, hwhole⟩ := whole_append hwhole
  cases heq
  refine ⟨hne, ?_⟩
  simp only [Numeral.literal, List.append_assoc]
  rw [exponent_append, fraction_append, hwhole, optional_append]

section Values

variable {φ : Type} (f64 : F64 φ)

/-- A number without fraction and exponent is an integer, of which -0 is 0; its digits are
limited. Any other number is left to `f64`. -/
def Numeral.value (numeral : Numeral) : Option (JsonValue φ) :=
  let literal := numeral.literal
  if numeral.fraction = [] ∧ numeral.exponent = [] then
    if numeral.whole.length ≤ maxIntDigits then
      some (.int (if literal = [minus, zero] then [zero] else literal))
    else none
  else (f64.parse literal).map .float

def number (input : Bytes) : Option (JsonValue φ × Bytes) :=
  (numeral input).bind fun (numeral, rest) => (numeral.value f64).map fun value => (value, rest)

theorem number_shrinks {input rest : Bytes} {value : JsonValue φ}
    (h : number f64 input = some (value, rest)) : rest.length < input.length := by
  obtain ⟨⟨numeral, rest'⟩, hnumeral, h⟩ := Option.bind_eq_some_iff.mp h
  obtain ⟨_, -, heq⟩ := Option.map_eq_some_iff.mp h
  cases heq
  obtain ⟨hne, happend⟩ := numeral_append hnumeral
  have hpos := List.length_pos_iff.mpr hne
  have hlength := congrArg List.length happend
  simp only [Numeral.literal, List.length_append] at hlength
  omega

def scalar (input : Bytes) : Option (JsonValue φ × Bytes) :=
  match (constants f64).find? fun constant => constant.1.isPrefixOf input with
  | some (word, value) => some (value, input.drop word.length)
  | none => number f64 input

theorem scalar_shrinks {input rest : Bytes} {value : JsonValue φ}
    (h : scalar f64 input = some (value, rest)) : rest.length < input.length := by
  unfold scalar at h
  split at h
  · rename_i word value hfind
    cases h
    have hword : 0 < word.length :=
      length_pos_of_mem_constants f64 (List.mem_of_find?_eq_some hfind)
    have hpre : word <+: input := by simpa using List.find?_some hfind
    have hfits := hpre.length_le
    rw [List.length_drop]
    omega
  · exact number_shrinks f64 h

/-! ## Containers -/

/-- The pairs in the order in which their keys are first seen, with the last value of each. -/
def lastValues (pairs : List (CodePointString × JsonValue φ)) :
    List (CodePointString × JsonValue φ) :=
  (pairs.map Prod.fst).eraseDups.filterMap fun key =>
    (pairs.reverse.lookup key).map fun value => (key, value)

/-- A key, a colon and a value. -/
def member (item : Parser UInt8 (JsonValue φ)) (input : Bytes) :
    Option ((CodePointString × JsonValue φ) × Bytes) :=
  if input.head? = some quote then
    (chars input.tail).bind fun (key, rest) =>
      let rest := skipSpace rest
      if rest.head? = some colon then
        (item.run (skipSpace rest.tail)).map fun (value, rest) => ((⟨key⟩, value), rest)
      else none
  else none

theorem length_skipSpace_le (input : Bytes) : (skipSpace input).length ≤ input.length :=
  Parser.length_dropWhile_le isWhitespace input

theorem length_tail_of_head? {input : Bytes} {byte : UInt8} (h : input.head? = some byte) :
    input.tail.length < input.length := by
  cases input with
  | nil => cases h
  | cons => simp

theorem member_shrinks {item : Parser UInt8 (JsonValue φ)} {input rest : Bytes}
    {pair : CodePointString × JsonValue φ} (h : member item input = some (pair, rest)) :
    rest.length < input.length := by
  unfold member at h
  split_ifs at h with hquote
  obtain ⟨⟨key, after⟩, hkey, h⟩ := Option.bind_eq_some_iff.mp h
  dsimp only at h
  split_ifs at h with hcolon
  obtain ⟨⟨value, _⟩, hvalue, heq⟩ := Option.map_eq_some_iff.mp h
  simp only [Prod.mk.injEq] at heq
  obtain ⟨-, rfl⟩ := heq
  have := length_tail_of_head? hquote
  have := chars_shrinks hkey
  have := length_skipSpace_le after
  have := length_tail_of_head? hcolon
  have := length_skipSpace_le (skipSpace after).tail
  have := item.shrinks hvalue
  omega

def memberParser (item : Parser UInt8 (JsonValue φ)) :
    Parser UInt8 (CodePointString × JsonValue φ) :=
  ⟨member item, member_shrinks⟩

def elements (item : Parser UInt8 (JsonValue φ)) (input : Bytes) :
    Option (List (JsonValue φ) × Bytes) :=
  Parser.sepBy isWhitespace comma rightBracket item input

def members (item : Parser UInt8 (JsonValue φ)) (input : Bytes) :
    Option (List (CodePointString × JsonValue φ) × Bytes) :=
  Parser.sepBy isWhitespace comma rightBrace (memberParser item) input

/-- The rest of a container: nothing but its closing symbol, or its items. -/
def container (closer : UInt8) (empty : JsonValue φ)
    (items : Bytes → Option (JsonValue φ × Bytes)) (input : Bytes) :
    Option (JsonValue φ × Bytes) :=
  let input := skipSpace input
  if input.head? = some closer then some (empty, input.tail) else items input

/-- What follows an opening bracket. -/
def array (item : Parser UInt8 (JsonValue φ)) : Bytes → Option (JsonValue φ × Bytes) :=
  container rightBracket (.array []) fun input =>
    (elements item input).map fun (items, rest) => (.array items, rest)

/-- What follows an opening brace. -/
def object (item : Parser UInt8 (JsonValue φ)) : Bytes → Option (JsonValue φ × Bytes) :=
  container rightBrace (.object []) fun input =>
    (members item input).map fun (pairs, rest) => (.object (lastValues pairs), rest)

/-- A value whose containers have the items of `inner`, if it may be a container. -/
def valueOf (inner : Option (Parser UInt8 (JsonValue φ))) (input : Bytes) :
    Option (JsonValue φ × Bytes) :=
  if input.head? = some quote then
    (chars input.tail).map fun (bytes, rest) => (.str ⟨bytes⟩, rest)
  else if input.head? = some leftBracket then inner.bind fun item => array item input.tail
  else if input.head? = some leftBrace then inner.bind fun item => object item input.tail
  else scalar f64 input

theorem container_shrinks {closer : UInt8} {empty value : JsonValue φ}
    {items : Bytes → Option (JsonValue φ × Bytes)} {input rest : Bytes}
    (hitems : ∀ {input value rest}, items input = some (value, rest) → rest.length < input.length)
    (h : container closer empty items input = some (value, rest)) :
    rest.length < input.length := by
  have hle := length_skipSpace_le input
  unfold container at h
  dsimp only at h
  split_ifs at h with hcloser
  · have := length_tail_of_head? hcloser
    cases h
    omega
  · have := hitems h
    omega

theorem array_shrinks {item : Parser UInt8 (JsonValue φ)} {input rest : Bytes}
    {value : JsonValue φ} (h : array item input = some (value, rest)) :
    rest.length < input.length := by
  refine container_shrinks (fun h => ?_) h
  obtain ⟨⟨items, _⟩, hitems, heq⟩ := Option.map_eq_some_iff.mp h
  cases heq
  exact Parser.sepBy_shrinks isWhitespace comma rightBracket item hitems

theorem object_shrinks {item : Parser UInt8 (JsonValue φ)} {input rest : Bytes}
    {value : JsonValue φ} (h : object item input = some (value, rest)) :
    rest.length < input.length := by
  refine container_shrinks (fun h => ?_) h
  obtain ⟨⟨pairs, _⟩, hpairs, heq⟩ := Option.map_eq_some_iff.mp h
  cases heq
  exact Parser.sepBy_shrinks isWhitespace comma rightBrace (memberParser item) hpairs

theorem valueOf_shrinks {inner : Option (Parser UInt8 (JsonValue φ))} {input rest : Bytes}
    {value : JsonValue φ} (h : valueOf f64 inner input = some (value, rest)) :
    rest.length < input.length := by
  unfold valueOf at h
  split_ifs at h with hquote hbracket hbrace
  · obtain ⟨⟨bytes, _⟩, hchars, heq⟩ := Option.map_eq_some_iff.mp h
    cases heq
    exact (chars_shrinks hchars).trans (length_tail_of_head? hquote)
  · obtain ⟨item, -, h⟩ := Option.bind_eq_some_iff.mp h
    exact (array_shrinks h).trans (length_tail_of_head? hbracket)
  · obtain ⟨item, -, h⟩ := Option.bind_eq_some_iff.mp h
    exact (object_shrinks h).trans (length_tail_of_head? hbrace)
  · exact scalar_shrinks f64 h

/-- A value with at most `depth` containers around any of its parts. -/
def value : Nat → Parser UInt8 (JsonValue φ)
  | 0 => ⟨valueOf f64 none, valueOf_shrinks f64⟩
  | depth + 1 => ⟨valueOf f64 (some (value depth)), valueOf_shrinks f64⟩

/-- One value with nothing but whitespace around it. -/
def document (input : Bytes) : Option (JsonValue φ) := do
  let (value, rest) ← (value f64 maxDepth).run (skipSpace input)
  if skipSpace rest = [] then some value else none

end Values

end Agentless.Json.Grammar
