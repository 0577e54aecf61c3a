import Agentless.Json.Format
import Agentless.Json.WriteRead

/-!
# The three forms are read back

Each form's text is ASCII and spells the value that was written, so it is read back exactly when
the value is nested within the reader's limit.
-/

namespace Agentless.Json

open Ascii

namespace JsonFormatter

variable (formatter : JsonFormatter)

@[simp] theorem run_nil : formatter.run [] = ([], formatter) := rfl

@[simp] theorem run_cons (event : Event) (events : List Event) :
    formatter.run (event :: events) =
      ((formatter.step event).1 ++ ((formatter.step event).2.run events).1,
        ((formatter.step event).2.run events).2) := rfl

theorem run_append (events more : List Event) :
    formatter.run (events ++ more) =
      ((formatter.run events).1 ++ ((formatter.run events).2.run more).1,
        ((formatter.run events).2.run more).2) := by
  induction events generalizing formatter with
  | nil => rfl
  | cons event events ih => simp [ih]

/-- Events that are written as a text and leave the formatter as it is. -/
def Writes (events : List Event) (text : Bytes) : Prop := formatter.run events = (text, formatter)

end JsonFormatter

/-! ## Strings -/

theorem escapes_iff (c : Char) :
    escapes c = true ↔ c.toNat < 0x20 ∨ c.toNat = 0x22 ∨ c.toNat = 0x5c := by
  simp only [escapes, Bool.or_eq_true, decide_eq_true_eq, beq_iff_eq, ← Char.toNat_inj, or_assoc]
  rfl

theorem charEscape_eq {c : Char} (h : escapes c) : charEscape c = codePointText c.toNat := by
  cases hshort : shortEscape c.toNat with
  | some escape => simp only [charEscape, codePointText, hshort]
  | none =>
    obtain hcontrol | hquote | hbackslash := (escapes_iff c).mp h
    · simp only [charEscape, codePointText, hshort]
      rw [if_neg (by omega), if_neg (by omega)]
    · rw [hquote] at hshort
      cases hshort
    · rw [hbackslash] at hshort
      cases hshort

theorem shortEscape_eq_none {code : Nat} (h : 0x20 ≤ code) (hquote : code ≠ 0x22)
    (hbackslash : code ≠ 0x5c) : shortEscape code = none := by
  unfold shortEscape
  split_ifs <;> first | omega | rfl

theorem fragmentChar_eq {c : Char} (h : escapes c = false) :
    fragmentChar c = codePointText c.toNat := by
  have hplain : ¬ (c.toNat < 0x20 ∨ c.toNat = 0x22 ∨ c.toNat = 0x5c) := by simp [← escapes_iff, h]
  have hprintable : (' ' ≤ c ∧ c ≤ '~') ↔ (0x20 ≤ c.toNat ∧ c.toNat ≤ 0x7e) := by
    simp only [Char.le_def, UInt32.le_iff_toNat_le]
    rfl
  rw [codePointText, shortEscape_eq_none (by omega) (by omega) (by omega)]
  dsimp only
  simp only [fragmentChar, unitsText, hprintable]
  split_ifs <;> first | rfl | omega

theorem writes_content (formatter : JsonFormatter) (text : Text) :
    formatter.Writes (contentEvents text) (text.flatMap fun c => codePointText c.toNat) := by
  induction text with
  | nil => rfl
  | cons c text ih =>
    unfold JsonFormatter.Writes at ih ⊢
    unfold contentEvents
    rw [List.flatMap_cons]
    split_ifs with hescapes
    · rw [JsonFormatter.run_cons]
      simp only [JsonFormatter.step, ih, charEscape_eq hescapes]
    · rw [← fragmentChar_eq (by simpa using hescapes)]
      split
      · rename_i chars events hevents
        rw [hevents, JsonFormatter.run_cons] at ih
        simp only [JsonFormatter.step, Prod.mk.injEq] at ih
        simp [JsonFormatter.step, ← ih.1, ih.2]
      · simp [JsonFormatter.step, ih]

theorem writes_string (formatter : JsonFormatter) (text : Text) :
    formatter.Writes (stringEvents text)
      (quote :: ((text.flatMap fun c => codePointText c.toNat) ++ [quote])) := by
  have hcontent := writes_content formatter text
  unfold JsonFormatter.Writes at hcontent ⊢
  simp [stringEvents, JsonFormatter.run_append, JsonFormatter.step, hcontent]

/-- A text has no lone surrogate, so each of its characters is read back on its own. -/
theorem quoted_text (text : Text) :
    Quoted (utf8 text) (text.flatMap fun c => codePointText c.toNat) := by
  have hbound : ∀ code ∈ text.map Char.toNat, code ≤ 0x10ffff := by
    intro code hcode
    obtain ⟨c, -, rfl⟩ := List.mem_map.mp hcode
    exact (toNat_not_surrogate c).1
  have hunpaired : Unpaired (text.map Char.toNat) := by
    unfold Unpaired
    rw [List.isChain_map]
    refine (List.pairwise_of_forall fun c next hpair => ?_).isChain
    exact (toNat_not_surrogate c).2.1 hpair.1
  have hquoted := quoted_codes hbound hunpaired
  simpa [List.flatMap_map, CodePointString.encoded_toNat, utf8] using hquoted

/-! ## Numbers -/

theorem head?_toDigits {n : Nat} (hn : 0 < n) : (Nat.toDigits 10 n).head? ≠ some '0' := by
  induction n using Nat.strong_induction_on with
  | _ n ih =>
    by_cases hlarge : 10 ≤ n
    · rw [Nat.toDigits_of_base_le (by decide) hlarge, List.head?_append_of_ne_nil _ Nat.toDigits_ne_nil]
      exact ih (n / 10) (by omega) (by omega)
    · rw [Nat.toDigits_of_lt_base (by omega)]
      have hall : ∀ n : Fin 10, 0 < n.val → [n.val.digitChar].head? ≠ some '0' := by decide
      exact hall ⟨n, by omega⟩ hn

theorem digitBytes_eq (n : Nat) :
    digitBytes n = (Nat.toDigits 10 n).map fun c => UInt8.ofNat c.toNat := by
  refine utf8_ascii fun c hc => ?_
  have hdigit := Nat.isDigit_of_mem_toDigits (by decide) (by decide) hc
  simp only [Char.isDigit, Bool.and_eq_true, decide_eq_true_eq, UInt32.le_iff_toNat_le] at hdigit
  have hle : c.toNat ≤ 57 := hdigit.2
  omega

theorem isDigit_ofNat {c : Char} (h : c.isDigit) : isDigit (UInt8.ofNat c.toNat) := by
  simp only [Char.isDigit, Bool.and_eq_true, decide_eq_true_eq, UInt32.le_iff_toNat_le] at h
  have hle : c.toNat ≤ 57 := h.2
  have hge : 48 ≤ c.toNat := h.1
  simp only [isDigit, Bool.and_eq_true, decide_eq_true_eq, UInt8.le_iff_toNat_le,
    UInt8.toNat_ofNat', UInt8.reduceToNat]
  omega

theorem digitBytes_digits (n : Nat) : (digitBytes n).all isDigit := by
  rw [digitBytes_eq, List.all_map, List.all_eq_true]
  intro c hc
  exact isDigit_ofNat (Nat.isDigit_of_mem_toDigits (by decide) (by decide) hc)

theorem eq_zero_of_ofNat {c : Char} (hdigit : c.isDigit) (h : UInt8.ofNat c.toNat = zero) :
    c = '0' := by
  simp only [Char.isDigit, Bool.and_eq_true, decide_eq_true_eq, UInt32.le_iff_toNat_le] at hdigit
  have hle : c.toNat ≤ 57 := hdigit.2
  have hnat : c.toNat % 256 = 48 := by
    rw [← UInt8.toNat_ofNat', h]
    rfl
  rw [Nat.mod_eq_of_lt (by omega)] at hnat
  exact Char.toNat_inj.mp hnat

theorem digitBytes_head {n : Nat} (hn : 0 < n) : (digitBytes n).head? ≠ some zero := by
  have hhead := head?_toDigits hn
  rw [digitBytes_eq, List.head?_map]
  intro hzero
  obtain ⟨c, hc, hbyte⟩ := Option.map_eq_some_iff.mp hzero
  have hdigit : c.isDigit :=
    Nat.isDigit_of_mem_toDigits (by decide) (by decide) (List.mem_of_mem_head? hc)
  rw [hc, eq_zero_of_ofNat hdigit hbyte] at hhead
  exact hhead rfl

theorem whole_digitBytes (n : Nat) : Grammar.whole (digitBytes n) = some (digitBytes n, []) := by
  by_cases hn : n = 0
  · subst hn
    rfl
  · have hdigits := digitBytes_digits n
    have hhead := digitBytes_head (Nat.pos_of_ne_zero hn)
    cases hbytes : digitBytes n with
    | nil => simp [digitBytes_eq, Nat.toDigits_ne_nil] at hbytes
    | cons byte bytes =>
      rw [hbytes, List.head?_cons, ne_eq, Option.some.injEq] at hhead
      rw [hbytes, List.all_cons, Bool.and_eq_true] at hdigits
      rw [Grammar.whole, if_neg hhead, if_pos hdigits.1,
        List.takeWhile_eq_self_iff.mpr (List.all_eq_true.mp hdigits.2),
        List.dropWhile_eq_nil_iff.mpr (List.all_eq_true.mp hdigits.2)]

theorem length_digitBytes_le {n : Nat} (hn : n ≤ 2 ^ 64) : (digitBytes n).length ≤ maxIntDigits := by
  rw [digitBytes_eq, List.length_map]
  have hlength : (Nat.toDigits 10 n).length ≤ 20 :=
    (Nat.length_toDigits_le_iff (by decide) (by decide)).mpr (by omega)
  exact hlength.trans (by decide)

theorem head?_digitBytes (n : Nat) : (digitBytes n).head?.any isDigit :=
  whole_head (whole_digitBytes n)

theorem optional_digitBytes (n : Nat) :
    Grammar.optional (· == minus) (digitBytes n) = ([], digitBytes n) := by
  have hhead := head?_digitBytes n
  cases hbytes : digitBytes n with
  | nil => rfl
  | cons byte bytes =>
    have hbyte : isDigit byte := by simpa [hbytes] using hhead
    have hminus : byte ≠ minus := by
      rintro rfl
      exact absurd hbyte (by decide)
    simp [Grammar.optional, hminus]

/-- The parts of an integer. -/
theorem numeral_intText (number : Int) :
    ∃ sign, Grammar.numeral (intText number) =
        some (⟨sign, digitBytes number.natAbs, [], []⟩, []) ∧
      sign ++ digitBytes number.natAbs = intText number := by
  cases number with
  | ofNat n =>
    refine ⟨[], ?_, rfl⟩
    simp only [intText, Grammar.numeral, optional_digitBytes, whole_digitBytes, Option.map_some]
    rfl
  | negSucc n =>
    refine ⟨[minus], ?_, rfl⟩
    have hsign : Grammar.optional (· == minus) (minus :: digitBytes (n + 1)) =
        ([minus], digitBytes (n + 1)) := by simp [Grammar.optional]
    simp only [intText, Grammar.numeral, hsign, whole_digitBytes, Option.map_some]
    rfl

theorem intText_ne (number : Int) : intText number ≠ [minus, zero] := by
  intro h
  cases number with
  | ofNat n =>
    have hhead := head?_digitBytes n
    rw [show digitBytes n = [minus, zero] from h] at hhead
    exact absurd hhead (by decide)
  | negSucc n => exact digitBytes_head (Nat.succ_pos n) (by rw [(List.cons.inj h).2]; rfl)

section Values

variable {φ : Type} (f64 : F64 φ)

theorem rereads_intText (held : SerdeNumber) :
    Rereads f64 (.int (intText held.value)) (intText held.value) := by
  obtain ⟨sign, hnumeral, htext⟩ := numeral_intText held.value
  have hliteral : Grammar.Numeral.literal ⟨sign, digitBytes held.value.natAbs, [], []⟩ =
      intText held.value := by simp [Grammar.Numeral.literal, htext]
  have hstarts := startsNumber_literal hnumeral []
  rw [List.append_nil, hliteral] at hstarts
  have hlength : (digitBytes held.value.natAbs).length ≤ maxIntDigits :=
    length_digitBytes_le (by have := held.range; omega)
  refine parse_of_number f64 hstarts ?_
  simp [Grammar.number, hnumeral, Grammar.Numeral.value, hliteral, hlength, intText_ne]

end Values

/-! ## Containers -/

namespace JsonFormatter

/-- The separators are a symbol and blanks. -/
structure Spaced (formatter : JsonFormatter) : Prop where
  separator : ∃ blank : Bytes, blank.all isWhitespace ∧ formatter.separator = comma :: blank
  keySeparator : ∃ blank : Bytes, blank.all isWhitespace ∧ formatter.keySeparator = colon :: blank

theorem spaced_new (form : JsonForm) : (new form).Spaced := by
  cases form with
  | indented => exact ⟨⟨[], rfl, rfl⟩, ⟨[space], rfl, rfl⟩⟩
  | compact => exact ⟨⟨[space], rfl, rfl⟩, ⟨[space], rfl, rfl⟩⟩
  | packed => exact ⟨⟨[], rfl, rfl⟩, ⟨[], rfl, rfl⟩⟩

theorem breakLine_blank (formatter : JsonFormatter) : formatter.breakLine.all isWhitespace := by
  have hspaces : (List.replicate formatter.depth [space, space]).flatten.all isWhitespace := by
    simp only [List.all_flatten, List.all_replicate]
    split_ifs <;> decide
  exact hspaces

theorem beginItem_spec {formatter : JsonFormatter} (h : formatter.Spaced) (first : Bool) :
    ∃ blank : Bytes, blank.all isWhitespace ∧
      formatter.beginItem first =
        ((if first then [] else [comma]) ++ blank, { formatter with hasValue := true }) := by
  obtain ⟨separator, hseparator, hcomma⟩ := h.separator
  have hline := breakLine_blank { formatter with hasValue := true }
  unfold beginItem
  dsimp only
  refine ⟨(if first then [] else separator) ++
    if formatter.lineBreaks then breakLine { formatter with hasValue := true } else [], ?_, ?_⟩
  · rw [List.all_append, Bool.and_eq_true]
    refine ⟨?_, ?_⟩
    · split_ifs <;> simp [hseparator]
    · split_ifs <;> simp [hline]
  · cases first <;> simp [hcomma]

theorem closed_spec (formatter : JsonFormatter) (closer : UInt8) :
    ∃ blank : Bytes, blank.all isWhitespace ∧
      formatter.closed closer =
        (blank ++ [closer], { formatter with depth := formatter.depth - 1, hasValue := true }) := by
  refine ⟨_, ?_, rfl⟩
  split_ifs
  · exact breakLine_blank _
  · rfl

end JsonFormatter

/-- The events of a container's items. -/
def sequence {α : Type} (begins : Bool → Event) (parts : α → List Event) (first : Bool) :
    List α → List Event
  | [] => []
  | item :: items => begins first :: (parts item ++ sequence begins parts false items)

namespace SerdeValue

theorem itemEvents_eq (first : Bool) (items : List SerdeValue) :
    itemEvents first items = sequence .beginArrayValue events first items := by
  induction items generalizing first with
  | nil => rfl
  | cons item items ih => rw [itemEvents, sequence, ih]

/-- The events of a key and its value. -/
def entryParts (entry : Text × SerdeValue) : List Event :=
  stringEvents entry.1 ++ .beginObjectValue :: entry.2.events

theorem entryEvents_eq (first : Bool) (entries : List (Text × SerdeValue)) :
    entryEvents first entries = sequence .beginObjectKey entryParts first entries := by
  induction entries generalizing first with
  | nil => rfl
  | cons entry entries ih => simp [entryEvents, sequence, entryParts, ih]

theorem jsonItems_eq {φ : Type} (items : List SerdeValue) :
    jsonItems items = items.map (json : SerdeValue → JsonValue φ) := by
  induction items with
  | nil => rfl
  | cons item items ih => rw [jsonItems, ih, List.map_cons]

theorem jsonEntries_eq {φ : Type} (entries : List (Text × SerdeValue)) :
    (jsonEntries entries : List (CodePointString × JsonValue φ)) =
      entries.map fun entry => (⟨utf8 entry.1⟩, entry.2.json) := by
  induction entries with
  | nil => rfl
  | cons entry entries ih => rw [jsonEntries, ih, List.map_cons]

end SerdeValue

section Sequence

variable {α : Type} {spells : α → Bytes → Prop} (begins : Bool → Event) {parts : α → List Event}
  (ends : Event) {closer : UInt8}

theorem sequence_listed (hbegins : ∀ formatter first,
      JsonFormatter.step formatter (begins first) = formatter.beginItem first)
    (hends : ∀ formatter, JsonFormatter.step formatter ends = formatter.closed closer)
    (formatter : JsonFormatter) (hspaced : formatter.Spaced) {item : α} {items : List α}
    (hparts : ∀ other ∈ item :: items, ∃ text,
      ({ formatter with hasValue := true } : JsonFormatter).Writes (parts other) text ∧
        spells other text) (first : Bool) :
    ∃ body, Parser.Listed isWhitespace comma closer spells (item :: items) body ∧
      formatter.run (sequence begins parts first (item :: items) ++ [ends]) =
        ((if first then [] else [comma]) ++ body,
          { formatter with depth := formatter.depth - 1, hasValue := true }) := by
  induction items generalizing formatter item first with
  | nil =>
    obtain ⟨text, hwrites, hspells⟩ := hparts item List.mem_cons_self
    obtain ⟨before, hbefore, hbegin⟩ := JsonFormatter.beginItem_spec hspaced first
    obtain ⟨after, hafter, hend⟩ :=
      JsonFormatter.closed_spec { formatter with hasValue := true } closer
    refine ⟨before ++ (text ++ (after ++ [closer])), .last hbefore hspells hafter, ?_⟩
    rw [JsonFormatter.Writes] at hwrites
    simp [sequence, JsonFormatter.run_append, hbegins, hends, hbegin, hwrites, hend]
  | cons next items ih =>
    obtain ⟨text, hwrites, hspells⟩ := hparts item List.mem_cons_self
    obtain ⟨before, hbefore, hbegin⟩ := JsonFormatter.beginItem_spec hspaced first
    obtain ⟨body, hlisted, hbody⟩ := ih { formatter with hasValue := true }
      ⟨hspaced.separator, hspaced.keySeparator⟩
      (fun other hother => hparts other (List.mem_cons_of_mem _ hother)) false
    have hnone : ([] : Bytes).all isWhitespace := rfl
    refine ⟨before ++ (text ++ ([] ++ comma :: body)), .cons hbefore hspells hnone hlisted, ?_⟩
    rw [JsonFormatter.Writes] at hwrites
    rw [sequence, List.cons_append, List.append_assoc, JsonFormatter.run_cons, hbegins, hbegin,
      JsonFormatter.run_append, hwrites, hbody]
    simp

theorem container_spells (hbegins : ∀ formatter first,
      JsonFormatter.step formatter (begins first) = formatter.beginItem first)
    (hends : ∀ formatter, JsonFormatter.step formatter ends = formatter.closed closer)
    (opens : Event) {opener : UInt8}
    (hopens : ∀ formatter, JsonFormatter.step formatter opens = formatter.opened opener)
    (formatter : JsonFormatter) (hspaced : formatter.Spaced) {items : List α}
    (hparts : ∀ inner : JsonFormatter, inner.Spaced → inner.hasValue → ∀ item ∈ items,
      ∃ text, inner.Writes (parts item) text ∧ spells item text) :
    ∃ body, SpellsItems closer spells items body ∧
      formatter.run (opens :: (sequence begins parts true items ++ [ends])) =
        (opener :: body, { formatter with hasValue := true }) := by
  have hinner : ({ formatter with depth := formatter.depth + 1, hasValue := false } :
      JsonFormatter).Spaced := ⟨hspaced.separator, hspaced.keySeparator⟩
  cases items with
  | nil =>
    refine ⟨[closer], .inl ⟨rfl, [], rfl, rfl⟩, ?_⟩
    simp [sequence, hopens, hends, JsonFormatter.opened, JsonFormatter.closed]
  | cons item items =>
    obtain ⟨body, hlisted, hbody⟩ := sequence_listed begins ends hbegins hends
      { formatter with depth := formatter.depth + 1, hasValue := false } hinner
      (hparts { formatter with depth := formatter.depth + 1, hasValue := true }
        ⟨hspaced.separator, hspaced.keySeparator⟩ rfl) true
    refine ⟨body, .inr hlisted, ?_⟩
    rw [JsonFormatter.run_cons, hopens, JsonFormatter.opened, hbody]
    simp

end Sequence

section Values

variable {φ : Type} (f64 : F64 φ)

/-- The text that a formatter writes of a value spells it, and the formatter is as before, except
that the container around the value has one. -/
def Formats (depth : Nat) (value : SerdeValue) : Prop :=
  ∀ formatter : JsonFormatter, formatter.Spaced → ∃ text hasValue,
    formatter.run value.events = (text, { formatter with hasValue := hasValue }) ∧
      (formatter.hasValue → hasValue) ∧ Spells f64 depth value.json text

variable {f64} in
theorem Formats.writes {depth : Nat} {value : SerdeValue} (h : Formats f64 depth value)
    {formatter : JsonFormatter} (hspaced : formatter.Spaced) (hasValue : formatter.hasValue) :
    ∃ text, formatter.Writes value.events text ∧ Spells f64 depth value.json text := by
  obtain ⟨text, has, hrun, himp, hspells⟩ := h formatter hspaced
  refine ⟨text, ?_, hspells⟩
  rw [JsonFormatter.Writes, hrun, himp hasValue, ← hasValue]

theorem formats_raw {depth : Nat} {value : SerdeValue} {text : Bytes}
    (hevents : value.events = [.raw text]) (hspells : Spells f64 depth value.json text) :
    Formats f64 depth value := by
  intro formatter _
  refine ⟨text, formatter.hasValue, ?_, id, hspells⟩
  rw [hevents]
  simp [JsonFormatter.step]

theorem formats_string (depth : Nat) (text : Text) : Formats f64 depth (.string text) := by
  intro formatter _
  refine ⟨_, formatter.hasValue, writes_string formatter text, id, ?_⟩
  have hbody := quoted_text text
  cases depth <;> exact ⟨_, rfl, hbody⟩

theorem formats_scalar (depth : Nat) {value : SerdeValue}
    (hscalar : (value.json : JsonValue φ).isScalar) : Formats f64 depth value := by
  cases value with
  | null =>
    refine formats_raw f64 rfl (spells_of_rereads f64 rfl ?_)
    exact parse_of_constant f64 _ .null (by simp [constants])
  | bool flag =>
    refine formats_raw f64 rfl (spells_of_rereads f64 rfl ?_)
    exact parse_of_constant f64 _ (.bool flag) (by cases flag <;> simp [constants])
  | number held => exact formats_raw f64 rfl (spells_of_rereads f64 rfl (rereads_intText f64 held))
  | _ => cases hscalar

theorem SpellsItems.map {α β : Type} {closer : UInt8} {spells : β → Bytes → Prop} {f : α → β}
    {items : List α} {body : Bytes}
    (h : SpellsItems closer (fun item => spells (f item)) items body) :
    SpellsItems closer spells (items.map f) body := by
  obtain ⟨rfl, hblank⟩ | hlisted := h
  · exact .inl ⟨rfl, hblank⟩
  · exact .inr hlisted.map

theorem formats_array {depth : Nat} {items : List SerdeValue}
    (h : ∀ item ∈ items, Formats f64 depth item) : Formats f64 (depth + 1) (.array items) := by
  intro formatter hspaced
  obtain ⟨body, hbody, hrun⟩ := container_spells .beginArrayValue .endArray (fun _ _ => rfl)
    (fun _ => rfl) .beginArray (fun _ => rfl) formatter hspaced
    (fun inner hinner has item hitem => (h item hitem).writes hinner has)
  refine ⟨leftBracket :: body, true, ?_, fun _ => rfl, body, rfl, ?_⟩
  · rw [SerdeValue.events, SerdeValue.itemEvents_eq]
    exact hrun
  · rw [SerdeValue.jsonItems_eq]
    exact hbody.map

theorem writes_entry {depth : Nat} {entry : Text × SerdeValue} (h : Formats f64 depth entry.2)
    {formatter : JsonFormatter} (hspaced : formatter.Spaced) (has : formatter.hasValue) :
    ∃ text, formatter.Writes (SerdeValue.entryParts entry) text ∧
      SpellsPair (Spells f64 depth) (⟨utf8 entry.1⟩, entry.2.json) text := by
  obtain ⟨inner, hwrites, hinner⟩ := h.writes hspaced has
  obtain ⟨blank, hblank, hcolon⟩ := hspaced.keySeparator
  refine ⟨_, ?_, _, [], blank, inner, quoted_text entry.1, rfl, hblank, hinner, rfl⟩
  have hkey := writes_string formatter entry.1
  unfold JsonFormatter.Writes at hwrites hkey ⊢
  rw [SerdeValue.entryParts, JsonFormatter.run_append, hkey, JsonFormatter.run_cons]
  simp [JsonFormatter.step, hcolon, hwrites]

theorem formats_object {depth : Nat} {entries : List (Text × SerdeValue)}
    (hkeys : (entries.map Prod.fst).Nodup) (h : ∀ entry ∈ entries, Formats f64 depth entry.2) :
    Formats f64 (depth + 1) (.object entries) := by
  intro formatter hspaced
  obtain ⟨body, hbody, hrun⟩ := container_spells .beginObjectKey .endObject (fun _ _ => rfl)
    (fun _ => rfl) .beginObject (fun _ => rfl) formatter hspaced
    (fun inner hinner has entry hentry => writes_entry f64 (h entry hentry) hinner has)
  have hnodup : ((SerdeValue.jsonEntries entries : List (CodePointString × JsonValue φ)).map
      Prod.fst).Nodup := by
    have hinjective : Function.Injective fun key : Text => CodePointString.mk (utf8 key) :=
      fun key other heq => utf8_injective (CodePointString.mk.inj heq)
    rw [SerdeValue.jsonEntries_eq, List.map_map]
    simpa [Function.comp_def] using hkeys.map hinjective
  refine ⟨leftBrace :: body, true, ?_, fun _ => rfl, body, rfl, hnodup, ?_⟩
  · rw [SerdeValue.events, SerdeValue.entryEvents_eq]
    exact hrun
  · rw [SerdeValue.jsonEntries_eq]
    exact hbody.map

theorem formats_value (depth : Nat) {value : SerdeValue} (hkeyed : value.Keyed)
    (hwithin : value.Within depth) : Formats f64 depth value := by
  induction depth generalizing value with
  | zero =>
    cases value with
    | string text => exact formats_string f64 0 text
    | array items => cases hwithin
    | object entries => cases hwithin
    | _ => exact formats_scalar f64 0 rfl
  | succ depth ih =>
    cases hkeyed with
    | string text => exact formats_string f64 _ text
    | array hitems => exact formats_array f64 fun item hitem => ih (hitems item hitem) (hwithin item hitem)
    | object hkeys hentries =>
      exact formats_object f64 hkeys fun entry hentry =>
        ih (hentries entry hentry) (hwithin entry hentry)
    | _ => exact formats_scalar f64 _ rfl

theorem within_of_readable (depth : Nat) {value : SerdeValue}
    (h : Readable f64 depth value.json) : value.Within depth := by
  induction depth generalizing value with
  | zero => cases value <;> trivial
  | succ depth ih =>
    cases value with
    | array items =>
      intro item hitem
      refine ih (h item.json ?_)
      rw [SerdeValue.jsonItems_eq]
      exact List.mem_map_of_mem hitem
    | object entries =>
      intro entry hentry
      refine ih (h.2 (⟨utf8 entry.1⟩, entry.2.json) ?_).2
      rw [SerdeValue.jsonEntries_eq]
      exact List.mem_map.mpr ⟨entry, hentry, rfl⟩
    | _ => trivial

end Values

/-! ## Sorted keys -/

namespace SerdeValue

theorem sortedItems_eq (items : List SerdeValue) : sortedItems items = items.map sorted := by
  induction items with
  | nil => rfl
  | cons item items ih => rw [sortedItems, ih, List.map_cons]

theorem sortedEntries_eq (entries : List (Text × SerdeValue)) :
    sortedEntries entries = entries.map fun entry => (entry.1, entry.2.sorted) := by
  induction entries with
  | nil => rfl
  | cons entry entries ih => rw [sortedEntries, ih, List.map_cons]

theorem forall_sorted_entry {entries : List (Text × SerdeValue)} {holds : SerdeValue → Prop} :
    (∀ entry ∈ (sortedEntries entries).mergeSort keyLe, holds entry.2) ↔
      ∀ entry ∈ entries, holds entry.2.sorted := by
  simp only [List.mem_mergeSort, sortedEntries_eq, List.forall_mem_map]

theorem Keyed.sorted {value : SerdeValue} (h : value.Keyed) : value.sorted.Keyed := by
  induction h with
  | array _ ih =>
    rw [SerdeValue.sorted, sortedItems_eq]
    exact .array (by simpa using ih)
  | @object entries hkeys _ ih =>
    rw [SerdeValue.sorted]
    refine .object ?_ (forall_sorted_entry.mpr ih)
    have hperm := (List.mergeSort_perm (sortedEntries entries) keyLe).map Prod.fst
    refine hperm.nodup_iff.mpr ?_
    simpa [sortedEntries_eq, Function.comp_def] using hkeys
  | null => exact .null
  | bool flag => exact .bool flag
  | number held => exact .number held
  | string text => exact .string text

theorem within_sorted (depth : Nat) (value : SerdeValue) :
    value.sorted.Within depth ↔ value.Within depth := by
  induction depth generalizing value with
  | zero => cases value <;> rfl
  | succ depth ih =>
    cases value with
    | array items =>
      rw [SerdeValue.sorted, sortedItems_eq]
      simp only [Within, List.forall_mem_map, ih]
    | object entries =>
      rw [SerdeValue.sorted]
      simp only [Within]
      rw [forall_sorted_entry]
      simp only [ih]
    | _ => rfl

end SerdeValue

/-! ## ASCII -/

def IsAscii (bytes : Bytes) : Prop := ∀ byte ∈ bytes, byte < 0x80

theorem IsAscii.append {bytes more : Bytes} (h : IsAscii bytes) (h' : IsAscii more) :
    IsAscii (bytes ++ more) := fun byte hbyte =>
  (List.mem_append.mp hbyte).elim (h byte) (h' byte)

theorem isAscii_of_blank {bytes : Bytes} (h : bytes.all isWhitespace) : IsAscii bytes := by
  intro byte hbyte
  have hblank := List.all_eq_true.mp h byte hbyte
  simp only [isWhitespace, Bool.or_eq_true, beq_iff_eq] at hblank
  obtain ((rfl | rfl) | rfl) | rfl := hblank <;> decide

theorem hexDigit_ascii : ∀ value : Fin 16, hexDigit value < 0x80 := by decide

theorem isAscii_unitText {unit : Nat} (h : unit < 0x10000) : IsAscii (unitText unit) := by
  have hdigit {value : Nat} (hvalue : value < 16) : hexDigit value < 0x80 :=
    hexDigit_ascii ⟨value, hvalue⟩
  simp only [IsAscii, unitText, List.forall_mem_cons]
  refine ⟨by decide, by decide, hdigit (by omega), hdigit (by omega), hdigit (by omega),
    hdigit (by omega), by simp⟩

theorem isAscii_codePointText {code : Nat} (h : code ≤ 0x10ffff) : IsAscii (codePointText code) := by
  unfold codePointText
  split
  · rename_i escape hescape
    obtain ⟨letter, rfl, -, hletter⟩ := shortEscape_cases hescape
    simpa [IsAscii] using ⟨by decide, (unescaped_bound hletter).2⟩
  · split_ifs with hprintable hlarge
    · simp only [IsAscii, List.mem_singleton, forall_eq, UInt8.lt_iff_toNat_lt,
        UInt8.toNat_ofNat', UInt8.reduceToNat]
      omega
    · obtain ⟨high, low, hhigh, hlow, hhighLt, hlowLt, -⟩ := units_spec hlarge h
      dsimp only
      rw [hhigh, hlow]
      exact (isAscii_unitText hhighLt).append (isAscii_unitText hlowLt)
    · exact isAscii_unitText (by omega)

/-- An event whose text is ASCII, whatever the formatter's state. -/
def Event.IsAscii : Event → Prop
  | .raw bytes => Json.IsAscii bytes
  | .fragment text => ∀ c ∈ text, escapes c = false
  | .charEscape c => escapes c
  | _ => True

theorem contentEvents_ascii (text : Text) : ∀ event ∈ contentEvents text, event.IsAscii := by
  induction text with
  | nil => simp [contentEvents]
  | cons c text ih =>
    unfold contentEvents
    split_ifs with hescapes
    · exact List.forall_mem_cons.mpr ⟨hescapes, ih⟩
    · have hc : escapes c = false := by simpa using hescapes
      split
      · rename_i chars events hevents
        rw [hevents] at ih
        obtain ⟨hchars, hmore⟩ := List.forall_mem_cons.mp ih
        exact List.forall_mem_cons.mpr ⟨List.forall_mem_cons.mpr ⟨hc, hchars⟩, hmore⟩
      · exact List.forall_mem_cons.mpr ⟨by simpa [Event.IsAscii] using hc, ih⟩

theorem stringEvents_ascii (text : Text) : ∀ event ∈ stringEvents text, event.IsAscii := by
  have hquote : Event.IsAscii (.raw [quote]) := List.forall_mem_singleton.mpr (by decide)
  intro event hevent
  simp only [stringEvents, List.mem_cons, List.mem_append, List.not_mem_nil, or_false] at hevent
  obtain rfl | hevent | rfl := hevent
  · exact hquote
  · exact contentEvents_ascii text event hevent
  · exact hquote

theorem isAscii_intText (number : Int) : IsAscii (intText number) := by
  have hdigits (n : Nat) : IsAscii (digitBytes n) := fun byte hbyte =>
    isDigit_ascii (List.all_eq_true.mp (digitBytes_digits n) byte hbyte)
  cases number with
  | ofNat n => exact hdigits n
  | negSucc n => exact List.forall_mem_cons.mpr ⟨by decide, hdigits (n + 1)⟩

theorem isAscii_word {word : Bytes} (value : JsonValue Bytes)
    (h : (word, value) ∈ constants literals) : IsAscii word := constants_ascii literals h

namespace SerdeValue

mutual

theorem events_ascii : ∀ value : SerdeValue, ∀ event ∈ value.events, event.IsAscii
  | .null => List.forall_mem_singleton.mpr (isAscii_word .null (by simp [constants]))
  | .bool flag =>
    List.forall_mem_singleton.mpr
      (isAscii_word (.bool flag) (by cases flag <;> simp [constants]))
  | .number held => by simpa [events, Event.IsAscii] using isAscii_intText held.value
  | .string text => stringEvents_ascii text
  | .array items => by
    simpa [events, or_imp, forall_and, Event.IsAscii] using itemEvents_ascii true items
  | .object entries => by
    simpa [events, or_imp, forall_and, Event.IsAscii] using entryEvents_ascii true entries

theorem itemEvents_ascii (first : Bool) : ∀ items, ∀ event ∈ itemEvents first items, event.IsAscii
  | [] => by simp [itemEvents]
  | item :: items => by
    have hitem := events_ascii item
    have hmore := itemEvents_ascii false items
    simpa [itemEvents, or_imp, forall_and, Event.IsAscii] using ⟨hitem, hmore⟩

theorem entryEvents_ascii (first : Bool) :
    ∀ entries, ∀ event ∈ entryEvents first entries, event.IsAscii
  | [] => by simp [entryEvents]
  | (key, item) :: entries => by
    have hkey := stringEvents_ascii key
    have hitem := events_ascii item
    have hmore := entryEvents_ascii false entries
    simpa [entryEvents, or_imp, forall_and, Event.IsAscii] using ⟨hkey, hitem, hmore⟩

end

end SerdeValue

namespace JsonFormatter

theorem step_ascii {formatter : JsonFormatter} (h : formatter.Spaced) {event : Event}
    (hevent : event.IsAscii) :
    IsAscii (formatter.step event).1 ∧ (formatter.step event).2.Spaced := by
  have hsame (other : JsonFormatter) (hsep : other.separator = formatter.separator)
      (hkey : other.keySeparator = formatter.keySeparator) : other.Spaced :=
    ⟨hsep ▸ h.separator, hkey ▸ h.keySeparator⟩
  have hopened {opener : UInt8} (hopener : opener < 0x80) :
      IsAscii (formatter.opened opener).1 ∧ (formatter.opened opener).2.Spaced :=
    ⟨List.forall_mem_singleton.mpr hopener, hsame _ rfl rfl⟩
  have hclosed {closer : UInt8} (hcloser : closer < 0x80) :
      IsAscii (formatter.closed closer).1 ∧ (formatter.closed closer).2.Spaced := by
    obtain ⟨blank, hblank, hclose⟩ := closed_spec formatter closer
    rw [hclose]
    exact ⟨(isAscii_of_blank hblank).append (List.forall_mem_singleton.mpr hcloser),
      hsame _ rfl rfl⟩
  have hitem (first : Bool) :
      IsAscii (formatter.beginItem first).1 ∧ (formatter.beginItem first).2.Spaced := by
    obtain ⟨blank, hblank, hbegin⟩ := beginItem_spec h first
    rw [hbegin]
    refine ⟨IsAscii.append ?_ (isAscii_of_blank hblank), hsame _ rfl rfl⟩
    cases first
    · exact List.forall_mem_singleton.mpr (by decide)
    · exact List.forall_mem_nil _
  cases event with
  | raw bytes => exact ⟨hevent, h⟩
  | fragment text =>
    refine ⟨fun byte hbyte => ?_, h⟩
    obtain ⟨c, hc, hbyte⟩ := List.mem_flatMap.mp hbyte
    rw [fragmentChar_eq (hevent c hc)] at hbyte
    exact isAscii_codePointText (toNat_not_surrogate c).1 byte hbyte
  | charEscape c =>
    refine ⟨?_, h⟩
    rw [step, charEscape_eq hevent]
    exact isAscii_codePointText (toNat_not_surrogate c).1
  | beginArray => exact hopened (by decide)
  | endArray => exact hclosed (by decide)
  | beginArrayValue first => exact hitem first
  | beginObject => exact hopened (by decide)
  | endObject => exact hclosed (by decide)
  | beginObjectKey first => exact hitem first
  | beginObjectValue =>
    obtain ⟨blank, hblank, hcolon⟩ := h.keySeparator
    refine ⟨?_, h⟩
    rw [step, hcolon]
    exact List.forall_mem_cons.mpr ⟨by decide, isAscii_of_blank hblank⟩

theorem run_ascii {formatter : JsonFormatter} (h : formatter.Spaced) {events : List Event}
    (hevents : ∀ event ∈ events, event.IsAscii) : IsAscii (formatter.run events).1 := by
  induction events generalizing formatter with
  | nil => exact List.forall_mem_nil _
  | cons event events ih =>
    obtain ⟨hevent, hmore⟩ := List.forall_mem_cons.mp hevents
    obtain ⟨htext, hspaced⟩ := step_ascii h hevent
    exact htext.append (ih hspaced hmore)

end JsonFormatter

theorem isAscii_toText (tree : ValueTree) (form : JsonForm) : IsAscii (toText tree form) :=
  JsonFormatter.run_ascii (JsonFormatter.spaced_new form) (SerdeValue.events_ascii _)

theorem isUtf8_of_isAscii {bytes : Bytes} (h : IsAscii bytes) : IsUtf8 bytes := by
  induction bytes with
  | nil => exact ⟨[], rfl⟩
  | cons byte bytes ih =>
    obtain ⟨hbyte, hmore⟩ := List.forall_mem_cons.mp h
    obtain ⟨text, rfl⟩ := ih hmore
    rw [UInt8.lt_iff_toNat_lt] at hbyte
    have hc : (Char.ofNat byte.toNat).toNat = byte.toNat := by
      rw [Char.toNat_ofNat, if_pos (.inl (by simp only [UInt8.reduceToNat] at hbyte; omega))]
    refine ⟨Char.ofNat byte.toNat :: text, ?_⟩
    rw [utf8_cons, utf8EncodeChar_ascii (by rw [hc]; exact hbyte), hc, UInt8.ofNat_toNat]
    rfl

/-! ## The whole text -/

section Whole

variable {φ : Type} (f64 : F64 φ)

theorem keyed_inForm (tree : ValueTree) (form : JsonForm) : (tree.value.inForm form).Keyed := by
  unfold SerdeValue.inForm
  split_ifs
  · exact tree.keyed.sorted
  · exact tree.keyed

theorem within_inForm (value : SerdeValue) (form : JsonForm) (depth : Nat) :
    (value.inForm form).Within depth ↔ value.Within depth := by
  unfold SerdeValue.inForm
  split_ifs
  · exact SerdeValue.within_sorted depth value
  · rfl

theorem parse_toText {tree : ValueTree} {form : JsonForm} (h : tree.value.Within maxDepth) :
    parse (toText tree form) f64 = .ok (tree.value.inForm form).json := by
  have hwithin := (within_inForm tree.value form maxDepth).mpr h
  obtain ⟨text, _, hrun, -, hspells⟩ :=
    formats_value f64 maxDepth (keyed_inForm tree form) hwithin _ (JsonFormatter.spaced_new form)
  rw [toText, hrun]
  exact parse_of_spells f64 hspells

theorem within_of_parse_toText {tree : ValueTree} {form : JsonForm}
    (h : parse (toText tree form) f64 = .ok (tree.value.inForm form).json) :
    tree.value.Within maxDepth := by
  obtain ⟨text, htext⟩ := isUtf8_of_isAscii (isAscii_toText tree form)
  rw [htext] at h
  exact (within_inForm ..).mp (within_of_readable f64 maxDepth (parse_readable f64 h))

/-- Each form is ASCII, and it is read back as the value that was written, with sorted keys in the
packed form, exactly when the value is nested within the reader's limit. -/
theorem toText_reads_back (tree : ValueTree) (form : JsonForm) :
    IsAscii (toText tree form) ∧
      (parse (toText tree form) f64 = .ok (tree.value.inForm form).json ↔
        tree.value.Within maxDepth) :=
  ⟨isAscii_toText tree form, within_of_parse_toText f64, parse_toText f64⟩

end Whole

/-- An array in as many arrays. -/
def nestedArrays : Nat → SerdeValue
  | 0 => .array []
  | depth + 1 => .array [nestedArrays depth]

theorem keyed_nestedArrays (depth : Nat) : (nestedArrays depth).Keyed := by
  induction depth with
  | zero => exact .array (by simp)
  | succ depth ih => exact .array (by simpa using ih)

theorem not_within_nestedArrays (depth : Nat) : ¬ (nestedArrays depth).Within depth := by
  induction depth with
  | zero => exact id
  | succ depth ih => exact fun h => ih (h _ (List.mem_singleton.mpr rfl))

theorem toText_nestedArrays_refused :
    parse (toText ⟨nestedArrays 9998, keyed_nestedArrays 9998⟩ .compact) literals ≠
      .ok (nestedArrays 9998).json := fun h =>
  not_within_nestedArrays 9998 (within_of_parse_toText literals h)

end Agentless.Json
