import Agentless.Json.Scan
import Agentless.Library.Assoc

/-!
# The reader accepts the grammar

The reader keeps open containers on a stack; the grammar recurses into them. `resume` says what the
grammar still has to read for a stack once the value on top of it is known: the rest of each frame's
items, from the innermost frame out. Running the reader from a stack is then reading a value by
the grammar and resuming the stack with it, which every step of the loop preserves.
-/

namespace Agentless.Json

open Ascii

variable {φ : Type}

/-! ## Objects -/

/-- Pairs inserted one after the other. -/
def Object.insertAll (object : Object φ) (pairs : List (CodePointString × JsonValue φ)) :
    Object φ :=
  pairs.foldl (fun object pair => { object with key := pair.1 }.insert pair.2) object

/-- What an object holds after pairs were inserted into an empty one. -/
structure Object.Holds (object : Object φ) (pairs : List (CodePointString × JsonValue φ)) :
    Prop where
  slotted : ∀ key, object.slots.lookup key = (object.pairs.map Prod.fst).idxOf? key
  keys : object.pairs.map Prod.fst = (pairs.map Prod.fst).eraseDups
  values : ∀ key, object.pairs.lookup key = pairs.reverse.lookup key

theorem Object.Holds.insert {object : Object φ} {pairs : List (CodePointString × JsonValue φ)}
    (h : object.Holds pairs) (key : CodePointString) (value : JsonValue φ) :
    Object.Holds ({ object with key := key }.insert value) (pairs ++ [(key, value)]) := by
  unfold Object.insert
  dsimp only
  rw [h.slotted key]
  have hreverse : (pairs ++ [(key, value)]).reverse = (key, value) :: pairs.reverse := by simp
  have hmem : key ∈ pairs.map Prod.fst ↔ key ∈ object.pairs.map Prod.fst := by
    rw [h.keys, List.mem_eraseDups]
  cases hslot : (object.pairs.map Prod.fst).idxOf? key with
  | some slot =>
    have hseen : key ∈ object.pairs.map Prod.fst := by
      by_contra hnot
      rw [List.idxOf?_eq_none_iff.mpr hnot] at hslot
      cases hslot
    refine ⟨fun other => ?_, ?_, fun other => ?_⟩
    · rw [Assoc.map_fst_modify]
      exact h.slotted other
    · rw [Assoc.map_fst_modify, List.map_append, List.map_singleton, Assoc.eraseDups_concat,
        if_pos (hmem.mpr hseen)]
      exact h.keys
    · rw [Assoc.lookup_modify hslot, hreverse, Assoc.lookup_cons_eq, h.values]
  | none =>
    have hnew : key ∉ object.pairs.map Prod.fst := List.idxOf?_eq_none_iff.mp hslot
    refine ⟨fun other => ?_, ?_, fun other => ?_⟩
    · rw [Assoc.lookup_cons_eq, List.map_append, List.map_singleton, Assoc.idxOf?_concat hnew,
        List.length_map, h.slotted]
    · rw [List.map_append, List.map_append, List.map_singleton, Assoc.eraseDups_concat,
        if_neg (fun hkey => hnew (hmem.mp hkey)), h.keys]
    · rw [Assoc.lookup_concat hnew, hreverse, Assoc.lookup_cons_eq, h.values]

theorem Object.holds_insertAll (pairs : List (CodePointString × JsonValue φ)) :
    (Object.insertAll {} pairs).Holds pairs := by
  induction pairs using List.reverseRecOn with
  | nil => exact ⟨fun key => rfl, rfl, fun key => rfl⟩
  | append_singleton pairs pair ih =>
    rw [Object.insertAll, List.foldl_append]
    exact ih.insert pair.1 pair.2

/-- A repeated key keeps its first position and takes the last value. -/
theorem Object.insertAll_pairs (pairs : List (CodePointString × JsonValue φ)) :
    (Object.insertAll {} pairs).pairs = Grammar.lastValues pairs := by
  have h := Object.holds_insertAll pairs
  have hnodup : ((Object.insertAll {} pairs).pairs.map Prod.fst).Nodup := by
    rw [h.keys]
    exact Assoc.nodup_eraseDups _
  rw [Assoc.eq_filterMap_lookup hnodup, Grammar.lastValues, h.keys]
  simp only [h.values]

/-! ## Frames -/

namespace Frame

/-- The value of a container with the items of `input` after those the frame has. -/
def items (item : Parser UInt8 (JsonValue φ)) (frame : Frame φ) (input : Bytes) :
    Option (JsonValue φ × Bytes) :=
  match frame with
  | array items =>
    (Grammar.elements item input).map fun (more, rest) => (.array (items ++ more), rest)
  | object members =>
    (Grammar.members item input).map fun (more, rest) =>
      (.object (members.insertAll more).pairs, rest)

/-- The value of a container after one more item, with what follows that item. -/
def finish (item : Parser UInt8 (JsonValue φ)) (frame : Frame φ) (value : JsonValue φ)
    (input : Bytes) : Option (JsonValue φ × Bytes) :=
  let frame := frame.push value
  let input := Grammar.skipSpace input
  if input.head? = some frame.shape.closer then some (frame.intoValue, input.tail)
  else if input.head? = some comma then frame.items item (Grammar.skipSpace input.tail)
  else none

theorem sepByTail_eq {α : Type} (closer : UInt8) (item : Parser UInt8 α) (input : Bytes) :
    Parser.sepByTail isWhitespace comma closer item input =
      let input := Grammar.skipSpace input
      if input.head? = some closer then some ([], input.tail)
      else if input.head? = some comma then
        Parser.sepBy isWhitespace comma closer item (Grammar.skipSpace input.tail)
      else none := by
  unfold Parser.sepByTail Grammar.skipSpace
  cases input.dropWhile isWhitespace with
  | nil => rfl
  | cons byte rest => simp

theorem array_items_eq (item : Parser UInt8 (JsonValue φ)) (items : List (JsonValue φ))
    (input : Bytes) :
    (array items).items item input = (item.run input).bind fun (value, rest) =>
      (array items).finish item value rest := by
  rw [Frame.items, Grammar.elements, Parser.sepBy_eq, Option.map_bind]
  congr 1
  funext ⟨value, rest⟩
  simp only [Function.comp_apply, sepByTail_eq, finish, push, shape, arrayShape]
  by_cases hcloser : (Grammar.skipSpace rest).head? = some rightBracket
  · simp [hcloser, intoValue]
  · by_cases hcomma : (Grammar.skipSpace rest).head? = some comma
    · simp [hcomma, show comma ≠ rightBracket by decide, Frame.items, Grammar.elements,
        Function.comp_def]
    · simp [hcloser, hcomma]

theorem object_items_eq (item : Parser UInt8 (JsonValue φ)) (members : Object φ)
    (input : Bytes) :
    (object members).items item input =
      (Grammar.member item input).bind fun (pair, rest) =>
        (object { members with key := pair.1 }).finish item pair.2 rest := by
  rw [Frame.items, Grammar.members, Parser.sepBy_eq, Option.map_bind]
  congr 1
  funext ⟨pair, rest⟩
  simp only [Function.comp_apply, sepByTail_eq, finish, push, shape, objectShape]
  by_cases hcloser : (Grammar.skipSpace rest).head? = some rightBrace
  · simp [hcloser, intoValue, Object.insertAll]
  · by_cases hcomma : (Grammar.skipSpace rest).head? = some comma
    · simp [hcomma, show comma ≠ rightBrace by decide, Frame.items, Grammar.members,
        Function.comp_def, Object.insertAll]
    · simp [hcloser, hcomma]

end Frame

variable {text : Bytes}

theorem chars_of_string {i stop : Nat} {key : CodePointString}
    (h : string text i = .ok (key, stop)) :
    Grammar.chars (text.drop (i + 1)) = some (key.bytes, text.drop stop) := by
  have hstring := string_eq text i
  rw [h, seen_ok] at hstring
  obtain ⟨⟨bytes, rest⟩, hchars, heq⟩ := Option.map_eq_some_iff.mp hstring.symm
  cases heq
  exact hchars

theorem chars_of_string_error {i : Nat} {error : JsonError} (h : string text i = .error error) :
    Grammar.chars (text.drop (i + 1)) = none := by
  have hstring := string_eq text i
  rw [h, seen_error] at hstring
  exact Option.map_eq_none_iff.mp hstring.symm

variable (text) in
theorem itemPrefix_spec (item : Parser UInt8 (JsonValue φ)) (frame : Frame φ) (i : Nat) :
    match itemPrefix text frame i with
    | .error _ => frame.items item (text.drop i) = none
    | .ok (frame', i') =>
      frame.items item (text.drop i) =
        (item.run (text.drop i')).bind fun (value, rest) => frame'.finish item value rest := by
  cases frame with
  | array items => exact Frame.array_items_eq item items _
  | object members =>
    rw [Frame.object_items_eq, Grammar.member, itemPrefix, require, peek_eq_head?]
    by_cases hquote : (text.drop i).head? = some quote
    · rw [if_pos hquote, if_pos hquote, List.tail_drop]
      cases hkey : string text i with
      | error error =>
        rw [chars_of_string_error hkey]
        rfl
      | ok result =>
        obtain ⟨key, stop⟩ := result
        rw [chars_of_string hkey]
        simp only [Option.bind_some, require, peek_eq_head?, drop_skipWhitespace]
        by_cases hcolon : (Grammar.skipSpace (text.drop stop)).head? = some colon
        · simp only [hcolon, if_true, bind, Except.bind]
          rw [drop_skipWhitespace, drop_skipWhitespace_succ, Option.bind_map]
          rfl
        · simp [hcolon, bind, Except.bind]
    · rw [if_neg hquote, if_neg hquote]
      rfl

/-- The bytes that a number or a word starts with. -/
def startsScalar (byte : UInt8) : Bool := isDigit byte || (utf8 "-ntfNI".toList).contains byte

theorem scalar_eq_none (f64 : F64 φ) {byte : UInt8} (hbyte : startsScalar byte = false)
    (rest : Bytes) : Grammar.scalar f64 (byte :: rest) = none := by
  have hwords : ((constants f64).find? fun constant =>
      constant.1.isPrefixOf (byte :: rest)) = none := by
    rw [List.find?_eq_none]
    have hheads : ∀ word ∈ (constants f64).map Prod.fst, word.head?.any startsScalar := by
      simp only [constants, List.map_cons, List.map_nil]
      decide
    intro constant hconstant hpre
    have hhead := hheads _ (List.mem_map_of_mem hconstant)
    obtain ⟨more, hmore⟩ := List.isPrefixOf_iff_prefix.mp hpre
    cases hword : constant.1 with
    | nil => simp [hword] at hhead
    | cons first word =>
      rw [hword, List.cons_append, List.cons.injEq] at hmore
      simp [hword, hmore.1, hbyte] at hhead
  have hdigit : isDigit byte = false := (Bool.or_eq_false_iff.mp hbyte).1
  have hminus : byte ≠ minus := by
    rintro rfl
    exact absurd hbyte (by decide)
  have hzero : byte ≠ zero := by
    rintro rfl
    exact absurd hdigit (by decide)
  have hnumber : Grammar.number f64 (byte :: rest) = none := by
    simp [Grammar.number, Grammar.numeral, Grammar.optional, Grammar.whole, hminus, hzero, hdigit]
  rw [Grammar.scalar, hwords]
  exact hnumber

theorem valueOf_eq_none (f64 : F64 φ) (inner : Option (Parser UInt8 (JsonValue φ))) {byte : UInt8}
    (hbyte : startsScalar byte = false)
    (hopens : byte ≠ quote ∧ byte ≠ leftBracket ∧ byte ≠ leftBrace) (rest : Bytes) :
    Grammar.valueOf f64 inner (byte :: rest) = none := by
  rw [Grammar.valueOf, if_neg (by simp [hopens]), if_neg (by simp [hopens]),
    if_neg (by simp [hopens])]
  exact scalar_eq_none f64 hbyte rest

theorem items_closer (f64 : F64 φ) (depth : Nat) (frame : Frame φ) {input : Bytes}
    (h : input.head? = some frame.shape.closer) :
    frame.items (Grammar.value f64 depth) input = none := by
  cases frame with
  | array items =>
    replace h : input.head? = some rightBracket := h
    have hvalue (inner : Option (Parser UInt8 (JsonValue φ))) :
        Grammar.valueOf f64 inner input = none := by
      rw [← List.cons_head?_tail h]
      exact valueOf_eq_none f64 inner (by decide) (by decide) _
    rw [Frame.array_items_eq]
    cases depth <;> simp [Grammar.value, hvalue]
  | object members =>
    replace h : input.head? = some rightBrace := h
    rw [Frame.object_items_eq, Grammar.member, h, if_neg (by decide)]
    rfl

variable (text) in
/-- Adding a value to a frame: the reader refuses where the grammar does, closes the frame where
the grammar does, and otherwise leaves the frame at its next item. -/
theorem add_spec (f64 : F64 φ) (depth : Nat) (frame : Frame φ) (value : JsonValue φ) (i : Nat) :
    match add text frame value i with
    | .error _ => frame.finish (Grammar.value f64 depth) value (text.drop i) = none
    | .ok (true, frame', i') =>
      frame.finish (Grammar.value f64 depth) value (text.drop i) =
        some (frame'.intoValue, text.drop i')
    | .ok (false, frame', i') =>
      frame.finish (Grammar.value f64 depth) value (text.drop i) =
        ((Grammar.value f64 depth).run (text.drop i')).bind fun (value, rest) =>
          frame'.finish (Grammar.value f64 depth) value rest := by
  unfold add Frame.finish
  simp only [peek_eq_head?, drop_skipWhitespace]
  generalize frame.push value = frame'
  by_cases hcloser : (Grammar.skipSpace (text.drop i)).head? = some frame'.shape.closer
  · simp only [hcloser, if_true, drop_skipWhitespace_succ]
  · by_cases hcomma : (Grammar.skipSpace (text.drop i)).head? = some comma
    · rw [if_neg hcloser, if_pos hcomma, if_neg hcloser, if_pos hcomma]
      rw [drop_skipWhitespace_succ]
      by_cases htrailing : (Grammar.skipSpace (Grammar.skipSpace (text.drop i)).tail).head? =
          some frame'.shape.closer
      · rw [if_pos htrailing]
        exact items_closer f64 depth frame' htrailing
      · rw [if_neg htrailing]
        have hpre := itemPrefix_spec text (Grammar.value f64 depth) frame'
          (skipWhitespace text (skipWhitespace text i + 1))
        rw [drop_skipWhitespace, drop_skipWhitespace_succ] at hpre
        cases hresult : itemPrefix text frame' (skipWhitespace text (skipWhitespace text i + 1)) with
        | error error =>
          rw [hresult] at hpre
          exact hpre
        | ok result =>
          rw [hresult] at hpre
          exact hpre
    · rw [if_neg hcloser, if_neg hcomma, if_neg hcloser, if_neg hcomma]

/-! ## The stack -/

section Stack

variable (f64 : F64 φ)

/-- The value of the whole document once the value on top of the stack is known: each frame takes
the rest of its items, read at the depth that is left under it. -/
def resume : List (Frame φ) → JsonValue φ → Bytes → Option (JsonValue φ × Bytes)
  | [], value, rest => some (value, rest)
  | frame :: opened, value, rest =>
    (frame.finish (Grammar.value f64 (maxDepth - (opened.length + 1))) value rest).bind
      fun (value, rest) => resume opened value rest

/-- What the reader has still to read of the document, by the grammar. -/
def remaining (opened : List (Frame φ)) (input : Bytes) : Option (JsonValue φ × Bytes) :=
  ((Grammar.value f64 (maxDepth - opened.length)).run input).bind fun (value, rest) =>
    resume f64 opened value rest

variable (text) in
/-- Closing frames keeps what is left to read. -/
theorem close_spec (opened : List (Frame φ)) (value : JsonValue φ) (i : Nat) :
    match close text opened value i with
    | .error _ => resume f64 opened value (text.drop i) = none
    | .ok (some done, _, i') => resume f64 opened value (text.drop i) = some (done, text.drop i')
    | .ok (none, opened', i') =>
      resume f64 opened value (text.drop i) = remaining f64 opened' (text.drop i') := by
  induction opened generalizing value i with
  | nil => rfl
  | cons frame opened ih =>
    have hadd := add_spec text f64 (maxDepth - (opened.length + 1)) frame value i
    rw [close, resume]
    cases hresult : add text frame value i with
    | error error =>
      rw [hresult] at hadd
      rw [hadd]
      rfl
    | ok result =>
      obtain ⟨closed, frame', i'⟩ := result
      rw [hresult] at hadd
      cases closed with
      | true =>
        rw [hadd, Option.bind_some]
        have htail := ih frame'.intoValue i'
        dsimp only [bind, Except.bind]
        cases hclose : close text opened frame'.intoValue i' with
        | error error =>
          rw [hclose] at htail
          exact htail
        | ok result =>
          obtain ⟨done, opened', i''⟩ := result
          rw [hclose] at htail
          cases done with
          | some done => exact htail
          | none => exact htail
      | false =>
        rw [hadd, Option.bind_assoc]
        rfl

/-- A container by the grammar, as the frame that the reader opens for it. -/
def Frame.whole (item : Parser UInt8 (JsonValue φ)) (frame : Frame φ) (input : Bytes) :
    Option (JsonValue φ × Bytes) :=
  let input := Grammar.skipSpace input
  if input.head? = some frame.shape.closer then some (frame.intoValue, input.tail)
  else frame.items item input

theorem whole_array (item : Parser UInt8 (JsonValue φ)) (input : Bytes) :
    Grammar.array item input = (Frame.array []).whole item input := rfl

theorem whole_object (item : Parser UInt8 (JsonValue φ)) (input : Bytes) :
    Grammar.object item input = (Frame.object {}).whole item input := by
  unfold Frame.whole Frame.items
  simp only [Object.insertAll_pairs]
  rfl

/-- The items of a container that a stack of this height may open. -/
def innerAt (height : Nat) : Option (Parser UInt8 (JsonValue φ)) :=
  if height ≥ maxDepth then none else some (Grammar.value f64 (maxDepth - (height + 1)))

theorem value_run (height : Nat) :
    (Grammar.value f64 (maxDepth - height)).run = Grammar.valueOf f64 (innerAt f64 height) := by
  unfold innerAt
  by_cases hheight : height ≥ maxDepth
  · rw [if_pos hheight, Nat.sub_eq_zero_of_le hheight]
    rfl
  · rw [if_neg hheight, show maxDepth - height = maxDepth - (height + 1) + 1 by omega]
    rfl

variable (text) in
/-- Opening a container keeps what is left to read. -/
theorem openFrame_spec (opened : List (Frame φ)) (frame : Frame φ) (i : Nat) :
    match openFrame text opened frame i with
    | .error _ =>
      ((innerAt f64 opened.length).bind fun item => frame.whole item (text.drop (i + 1))) = none
    | .ok (some value, opened', i') =>
      opened' = opened ∧
        ((innerAt f64 opened.length).bind fun item => frame.whole item (text.drop (i + 1))) =
          some (value, text.drop i')
    | .ok (none, opened', i') =>
      (((innerAt f64 opened.length).bind fun item =>
        frame.whole item (text.drop (i + 1))).bind fun (value, rest) =>
          resume f64 opened value rest) = remaining f64 opened' (text.drop i') := by
  unfold openFrame innerAt
  dsimp only
  by_cases hdepth : opened.length ≥ maxDepth
  · rw [if_pos hdepth, if_pos hdepth]
    rfl
  · rw [if_neg hdepth, if_neg hdepth, Option.bind_some, Frame.whole, peek_eq_head?,
      drop_skipWhitespace]
    by_cases hcloser : (Grammar.skipSpace (text.drop (i + 1))).head? = some frame.shape.closer
    · rw [if_pos hcloser, if_pos hcloser]
      exact ⟨rfl, by rw [drop_skipWhitespace_succ]⟩
    · rw [if_neg hcloser, if_neg hcloser]
      have hpre := itemPrefix_spec text (Grammar.value f64 (maxDepth - (opened.length + 1))) frame
        (skipWhitespace text (i + 1))
      rw [drop_skipWhitespace] at hpre
      cases hresult : itemPrefix text frame (skipWhitespace text (i + 1)) with
      | error error =>
        rw [hresult] at hpre
        exact hpre
      | ok result =>
        rw [hresult] at hpre
        rw [hpre, Option.bind_assoc]
        rfl

variable (text) in
/-- Reading a value keeps what is left to read. -/
theorem value_spec (opened : List (Frame φ)) (i : Nat) :
    match value text f64 opened i with
    | .error _ => (Grammar.value f64 (maxDepth - opened.length)).run (text.drop i) = none
    | .ok (some value, opened', i') =>
      opened' = opened ∧
        (Grammar.value f64 (maxDepth - opened.length)).run (text.drop i) =
          some (value, text.drop i')
    | .ok (none, opened', i') =>
      remaining f64 opened (text.drop i) = remaining f64 opened' (text.drop i') := by
  unfold value remaining
  rw [value_run, Grammar.valueOf, peek_eq_head?, List.tail_drop]
  by_cases hquote : (text.drop i).head? = some quote
  · rw [if_pos hquote, if_pos hquote]
    cases hstring : string text i with
    | error error =>
      rw [chars_of_string_error hstring]
      rfl
    | ok result =>
      rw [chars_of_string hstring]
      exact ⟨rfl, rfl⟩
  · rw [if_neg hquote, if_neg hquote]
    by_cases hbracket : (text.drop i).head? = some leftBracket
    · rw [if_pos hbracket, if_pos hbracket]
      exact openFrame_spec text f64 opened (.array []) i
    · rw [if_neg hbracket, if_neg hbracket]
      by_cases hbrace : (text.drop i).head? = some leftBrace
      · rw [if_pos hbrace, if_pos hbrace]
        simp only [whole_object]
        exact openFrame_spec text f64 opened (.object {}) i
      · rw [if_neg hbrace, if_neg hbrace]
        have hscalar := scalar_eq text f64 i
        cases hresult : scalar text f64 i with
        | error error =>
          rw [hresult] at hscalar
          exact hscalar.symm
        | ok result =>
          rw [hresult] at hscalar
          exact ⟨rfl, hscalar.symm⟩

variable {f64} in
theorem remaining_of_value {opened opened' : List (Frame φ)} {value : JsonValue φ} {i i' : Nat}
    (h : Json.value text f64 opened i = .ok (some value, opened', i')) :
    remaining f64 opened (text.drop i) = resume f64 opened' value (text.drop i') := by
  have hspec := value_spec text f64 opened i
  rw [h] at hspec
  rw [remaining, hspec.2, hspec.1]
  rfl

variable (text) in
/-- Running the reader from a stack reads what is left by the grammar. -/
theorem document_eq (opened : List (Frame φ)) (i : Nat) :
    seen text (document text f64 opened i) = remaining f64 opened (text.drop i) := by
  fun_induction document text f64 opened i with
  | case1 opened i error hvalue =>
    have hspec := value_spec text f64 opened i
    rw [hvalue] at hspec
    rw [remaining, hspec]
    rfl
  | case2 opened i opened' i' hvalue _ ih =>
    have hspec := value_spec text f64 opened i
    rw [hvalue] at hspec
    exact ih.trans hspec.symm
  | case3 opened i value opened' i' hvalue _ error hclose =>
    rw [remaining_of_value hvalue]
    have hspec := close_spec text f64 opened' value i'
    rw [hclose] at hspec
    exact hspec.symm
  | case4 opened i value opened' i' hvalue _ done opened'' i'' hclose =>
    rw [remaining_of_value hvalue]
    have hspec := close_spec text f64 opened' value i'
    rw [hclose] at hspec
    exact hspec.symm
  | case5 opened i value opened' i' hvalue _ opened'' i'' hclose _ ih =>
    rw [remaining_of_value hvalue]
    have hspec := close_spec text f64 opened' value i'
    rw [hclose] at hspec
    exact ih.trans hspec.symm

theorem document_byteOrderMark {text : Bytes}
    (h : (utf8 [Char.ofNat 0xfeff]).isPrefixOf text) : Grammar.document f64 text = none := by
  obtain ⟨rest, rfl⟩ := List.isPrefixOf_iff_prefix.mp h
  have hmark : utf8 [Char.ofNat 0xfeff] = [0xef, 0xbb, 0xbf] := by decide
  have hvalue := value_run f64 0
  rw [Nat.sub_zero] at hvalue
  rw [hmark, Grammar.document, hvalue]
  have hskip : Grammar.skipSpace ([0xef, 0xbb, 0xbf] ++ rest) = 0xef :: 0xbb :: 0xbf :: rest := by
    exact List.dropWhile_cons_of_neg (by decide)
  rw [hskip, valueOf_eq_none f64 _ (by decide) (by decide)]
  rfl

/-- The reader accepts a text, and with a value, exactly when the grammar does. -/
theorem parse_toOption (text : Bytes) : (parse text f64).toOption = Grammar.document f64 text := by
  unfold parse
  by_cases hmark : (utf8 [Char.ofNat 0xfeff]).isPrefixOf text
  · rw [if_pos hmark, document_byteOrderMark f64 hmark]
    rfl
  · rw [if_neg hmark, Grammar.document]
    have hdocument := document_eq text f64 [] (skipWhitespace text 0)
    rw [remaining, List.length_nil, Nat.sub_zero, drop_skipWhitespace, List.drop_zero] at hdocument
    have hread : (Grammar.value f64 maxDepth).run (Grammar.skipSpace text) =
        seen text (document text f64 [] (skipWhitespace text 0)) := by
      rw [hdocument]
      exact (Option.bind_fun_some _).symm
    rw [hread]
    cases document text f64 [] (skipWhitespace text 0) with
    | error error => rfl
    | ok result =>
      obtain ⟨value, i⟩ := result
      have hend : Grammar.skipSpace (text.drop i) = [] ↔ ¬ skipWhitespace text i < text.length := by
        rw [← drop_skipWhitespace, List.drop_eq_nil_iff]
        omega
      simp only [seen_ok, bind, Except.bind, Option.bind_some, hend]
      split_ifs <;> rfl

/-- For every text, the stack reader accepts it, and with a value, exactly when the grammar's
recursive descent does. -/
theorem parse_eq_ok_iff_document (text : Text) (value : JsonValue φ) :
    parse (utf8 text) f64 = .ok value ↔ Grammar.document f64 (utf8 text) = some value := by
  rw [← parse_toOption, Except.toOption_eq_some_iff]

end Stack

end Agentless.Json
