import Agentless.Text.CodePointOrder

/-!
# Quoted text

The quoted form has each quote, backslash and character that is not printable written as an escape.
What a code point is written as can be read back whatever follows it, so the quoted form tells the
text. The rule for printable characters is a parameter.
-/

namespace Agentless.CodePointString

/-- The character of a code point that is no surrogate. -/
def fromU32 (code : Nat) : Option Char := if code.isValidChar then some (Char.ofNat code) else none

/-- The last `width` hexadecimal digits. -/
def hex : Nat → Nat → Text
  | 0, _ => []
  | width + 1, code => hex width (code / 16) ++ [Nat.digitChar (code % 16)]

def pushEscape (code : Nat) : Text :=
  if code ≤ 0xff then '\\' :: 'x' :: hex 2 code
  else if code ≤ 0xffff then '\\' :: 'u' :: hex 4 code
  else '\\' :: 'U' :: hex 8 code

section Quoted

variable (isPrintable : Nat → Bool)

def isCopied (c : Char) : Bool :=
  if c.toNat < 0x80 then ' ' ≤ c && c ≤ '~' else isPrintable c.toNat

def pushQuoted (quote : Char) (code : Nat) : Text :=
  match fromU32 code with
  | some c =>
    if c = quote ∨ c = '\\' then ['\\', c]
    else if c = '\t' then ['\\', 't']
    else if c = '\n' then ['\\', 'n']
    else if c = '\r' then ['\\', 'r']
    else if isCopied isPrintable c then [c]
    else pushEscape code
  | none => pushEscape code

def quoted (text : CodePointString) : Text :=
  let has (wanted : Char) := text.codePoints.any (· = wanted.toNat)
  let quote := if has '\'' && !has '"' then '"' else '\''
  quote :: text.codePoints.flatMap (pushQuoted isPrintable quote) ++ [quote]

end Quoted

/-! ## Reading back -/

def digitValue (c : Char) : Nat := if c.toNat < 0x3a then c.toNat - 0x30 else c.toNat - 0x57

def value (digits : Text) : Nat := digits.foldl (fun value c => value * 16 + digitValue c) 0

/-- The first code point of a quoted text, and what follows it. -/
def readQuoted : Text → Option (Nat × Text)
  | [] => none
  | [c] => some (c.toNat, [])
  | c :: kind :: rest =>
    if c ≠ '\\' then some (c.toNat, kind :: rest)
    else if kind = 't' then some (9, rest)
    else if kind = 'n' then some (10, rest)
    else if kind = 'r' then some (13, rest)
    else if kind = 'x' then some (value (rest.take 2), rest.drop 2)
    else if kind = 'u' then some (value (rest.take 4), rest.drop 4)
    else if kind = 'U' then some (value (rest.take 8), rest.drop 8)
    else some (kind.toNat, rest)

theorem digitValue_digitChar : ∀ digit : Fin 16, digitValue (Nat.digitChar digit) = digit := by
  decide

theorem length_hex (width code : Nat) : (hex width code).length = width := by
  induction width generalizing code with
  | zero => rfl
  | succ width ih => simp [hex, ih]

theorem value_hex {width code : Nat} (h : code < 16 ^ width) : value (hex width code) = code := by
  induction width generalizing code with
  | zero => simpa [hex, value, eq_comm] using h
  | succ width ih =>
    have hdigit := digitValue_digitChar ⟨code % 16, Nat.mod_lt _ (by decide)⟩
    have hrest : value (hex width (code / 16)) = code / 16 := ih (by rw [pow_succ] at h; omega)
    unfold value at hrest ⊢
    rw [hex, List.foldl_append, hrest, List.foldl_cons, List.foldl_nil]
    simp only at hdigit
    omega

theorem readQuoted_pushEscape {code : Nat} (hcode : code ≤ 0x10ffff) (rest : Text) :
    readQuoted (pushEscape code ++ rest) = some (code, rest) := by
  have hread (width : Nat) (h : code < 16 ^ width) :
      value ((hex width code ++ rest).take width) = code ∧
        (hex width code ++ rest).drop width = rest := by
    rw [List.take_left' (length_hex width code), List.drop_left' (length_hex width code)]
    exact ⟨value_hex h, rfl⟩
  unfold pushEscape
  split_ifs with h2 h4
  · obtain ⟨hvalue, hrest⟩ := hread 2 (by omega)
    simp [readQuoted, hvalue, hrest]
  · obtain ⟨hvalue, hrest⟩ := hread 4 (by omega)
    simp [readQuoted, hvalue, hrest]
  · obtain ⟨hvalue, hrest⟩ := hread 8 (by omega)
    simp [readQuoted, hvalue, hrest]

section Reading

variable {isPrintable : Nat → Bool} {quote : Char} {code : Nat}

theorem readQuoted_pushQuoted (hquote : quote = '\'' ∨ quote = '"') (hcode : code ≤ 0x10ffff)
    (rest : Text) :
    readQuoted (pushQuoted isPrintable quote code ++ rest) = some (code, rest) := by
  unfold pushQuoted fromU32
  by_cases hvalid : code.isValidChar
  · obtain ⟨c, rfl⟩ : ∃ c : Char, code = c.toNat :=
      ⟨Char.ofNat code, ((Char.toNat_ofNat code).trans (if_pos hvalid)).symm⟩
    rw [if_pos hvalid, Char.ofNat_toNat]
    dsimp only
    split_ifs with hescaped htab hline hreturn hcopied
    · have hkind : c = '\\' ∨ c = '\'' ∨ c = '"' := by
        rcases hescaped with rfl | rfl
        · exact .inr hquote
        · exact .inl rfl
      rcases hkind with rfl | rfl | rfl <;> simp [readQuoted]
    · subst htab
      rfl
    · subst hline
      rfl
    · subst hreturn
      rfl
    · cases rest with
      | nil => rfl
      | cons kind rest => simp [readQuoted, (not_or.mp hescaped).2]
    · exact readQuoted_pushEscape hcode rest
  · rw [if_neg hvalid]
    exact readQuoted_pushEscape hcode rest

/-- No code point is written with the quote first. -/
theorem head?_pushQuoted (hquote : quote = '\'' ∨ quote = '"') :
    ∃ c more, pushQuoted isPrintable quote code = c :: more ∧ c ≠ quote := by
  have hslash : '\\' ≠ quote := by rcases hquote with rfl | rfl <;> decide
  have hescape : ∃ c more, pushEscape code = c :: more ∧ c ≠ quote := by
    unfold pushEscape
    split_ifs <;> exact ⟨_, _, rfl, hslash⟩
  unfold pushQuoted
  split
  · split_ifs with hescaped
    · exact ⟨_, _, rfl, hslash⟩
    · exact ⟨_, _, rfl, hslash⟩
    · exact ⟨_, _, rfl, hslash⟩
    · exact ⟨_, _, rfl, hslash⟩
    · exact ⟨_, _, rfl, (not_or.mp hescaped).1⟩
    · exact hescape
  · exact hescape

/-- The code points between the quotes are read back one after the other. -/
theorem flatMap_pushQuoted_injective (hquote : quote = '\'' ∨ quote = '"') {codes codes' : List Nat}
    (hcodes : ∀ code ∈ codes, code ≤ 0x10ffff) (hcodes' : ∀ code ∈ codes', code ≤ 0x10ffff)
    (h : codes.flatMap (pushQuoted isPrintable quote) ++ [quote] =
      codes'.flatMap (pushQuoted isPrintable quote) ++ [quote]) : codes = codes' := by
  induction codes generalizing codes' with
  | nil =>
    cases codes' with
    | nil => rfl
    | cons code' codes' =>
      obtain ⟨c, more, hhead, hne⟩ : ∃ c more,
          pushQuoted isPrintable quote code' = c :: more ∧ c ≠ quote := head?_pushQuoted hquote
      rw [List.flatMap_cons, hhead] at h
      exact absurd (List.cons.inj h).1.symm hne
  | cons code codes ih =>
    cases codes' with
    | nil =>
      obtain ⟨c, more, hhead, hne⟩ : ∃ c more,
          pushQuoted isPrintable quote code = c :: more ∧ c ≠ quote := head?_pushQuoted hquote
      rw [List.flatMap_cons, hhead] at h
      exact absurd (List.cons.inj h).1 hne
    | cons code' codes' =>
      have hread := congrArg readQuoted h
      rw [List.flatMap_cons, List.flatMap_cons, List.append_assoc, List.append_assoc,
        readQuoted_pushQuoted hquote (hcodes code List.mem_cons_self),
        readQuoted_pushQuoted hquote (hcodes' code' List.mem_cons_self)] at hread
      obtain ⟨rfl, hrest⟩ := Prod.mk.inj (Option.some.inj hread)
      rw [ih (fun other hother => hcodes other (List.mem_cons_of_mem _ hother))
        (fun other hother => hcodes' other (List.mem_cons_of_mem _ hother)) hrest]

end Reading

/-! ## Every value -/

/-- The values that the operations build. -/
inductive Built : CodePointString → Prop
  | default : Built {}
  | push {text : CodePointString} {code : Nat} (h : Built text) (hcode : code ≤ 0x10ffff) :
    Built (text.push code)
  | pushStr {text : CodePointString} (h : Built text) (chars : Text) :
    Built (text.pushStr (utf8 chars))
  | ofStr (chars : Text) : Built ⟨utf8 chars⟩
  | fromUtf8Escaped (bytes : Bytes) : Built (fromUtf8Escaped bytes)

theorem toNat_le (c : Char) : c.toNat ≤ 0x10ffff := by
  have hvalid : c.toNat.isValidChar := c.valid
  simp only [Nat.isValidChar] at hvalid
  omega

theorem Built.exists_ofCodePoints {text : CodePointString} (h : Built text) :
    ∃ codes, (∀ code ∈ codes, code ≤ 0x10ffff) ∧ text = ofCodePoints codes := by
  have hchars (chars : Text) : ∀ code ∈ chars.map Char.toNat, code ≤ 0x10ffff := by
    intro code hcode
    obtain ⟨c, -, rfl⟩ := List.mem_map.mp hcode
    exact toNat_le c
  induction h with
  | default => exact ⟨[], by simp, rfl⟩
  | push h hcode ih =>
    obtain ⟨codes, hcodes, rfl⟩ := ih
    refine ⟨codes ++ [_], ?_, push_ofCodePoints codes _⟩
    simpa [or_imp, forall_and] using ⟨hcodes, hcode⟩
  | pushStr h chars ih =>
    obtain ⟨codes, hcodes, rfl⟩ := ih
    refine ⟨codes ++ chars.map Char.toNat, fun code hcode => ?_, pushStr_ofCodePoints codes chars⟩
    exact (List.mem_append.mp hcode).elim (hcodes code) (hchars chars code)
  | ofStr chars =>
    refine ⟨chars.map Char.toNat, hchars chars, ?_⟩
    exact pushStr_ofCodePoints [] chars
  | fromUtf8Escaped bytes => exact ⟨_, escapedCodePoints_le, rfl⟩

theorem foldl_push (codes before : List Nat) :
    codes.foldl push (ofCodePoints before) = ofCodePoints (before ++ codes) := by
  induction codes generalizing before with
  | nil => simp
  | cons code codes ih => rw [List.foldl_cons, push_ofCodePoints, ih, ← List.append_cons]

/-- Pushed code points are read back, values compare as their code points do, escaped bytes are
told apart, and so are quoted values. -/
theorem codePointString_faithful (isPrintable : Nat → Bool) :
    (∀ codes : List Nat, (∀ code ∈ codes, code ≤ 0x10ffff) →
      (codes.foldl push {}).codePoints = codes) ∧
    (∀ text other, Built text → Built other →
      text.cmp other = List.compareLex compare text.codePoints other.codePoints) ∧
    Function.Injective fromUtf8Escaped ∧
    (∀ text other, Built text → Built other → text.quoted isPrintable = other.quoted isPrintable →
      text = other) := by
  refine ⟨fun codes hcodes => ?_, ?_, fromUtf8Escaped_injective, ?_⟩
  · have hpush : codes.foldl push {} = ofCodePoints codes := foldl_push codes []
    rw [hpush, codePoints_ofCodePoints hcodes]
  · intro text other htext hother
    obtain ⟨codes, hcodes, rfl⟩ := htext.exists_ofCodePoints
    obtain ⟨codes', hcodes', rfl⟩ := hother.exists_ofCodePoints
    rw [codePoints_ofCodePoints hcodes, codePoints_ofCodePoints hcodes']
    exact compareLex_encoded hcodes hcodes'
  · intro text other htext hother h
    obtain ⟨codes, hcodes, rfl⟩ := htext.exists_ofCodePoints
    obtain ⟨codes', hcodes', rfl⟩ := hother.exists_ofCodePoints
    unfold quoted at h
    rw [codePoints_ofCodePoints hcodes, codePoints_ofCodePoints hcodes'] at h
    obtain ⟨hquote, hrest⟩ := List.cons.inj h
    rw [← hquote] at hrest
    rw [flatMap_pushQuoted_injective (by split_ifs <;> simp) hcodes hcodes' hrest]

/-- A lone surrogate and an ordinary character. -/
theorem codePointString_faithful_surrogate :
    ([0xd800, 0x61].foldl push {}).codePoints = [0xd800, 0x61] ∧
      (push {} 0xd800).cmp ⟨utf8 "a".toList⟩ =
        List.compareLex compare (push {} 0xd800).codePoints
          (CodePointString.mk (utf8 "a".toList)).codePoints ∧
      push {} 0x61 = ⟨utf8 "a".toList⟩ := by
  obtain ⟨hpush, hcmp, -, hquoted⟩ := codePointString_faithful fun _ => true
  have hsame : push {} 0x61 = ⟨utf8 "a".toList⟩ := by decide
  refine ⟨hpush _ (by decide), hcmp _ _ (.push .default (by decide)) (.ofStr _), ?_⟩
  exact hquoted _ _ (.push .default (by decide)) (.ofStr _) (by rw [hsame])

end Agentless.CodePointString
