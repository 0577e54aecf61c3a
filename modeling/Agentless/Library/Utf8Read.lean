import Agentless.Library.Boundary

/-!
# Reading UTF-8 in pieces

Bytes are read character by character up to the first place that no character stands at. When the
bytes of a text are cut anywhere, the piece before the cut reads as the characters that end before
it, and the bytes behind them are the beginning of the character that the cut went through.
-/

namespace Agentless

/-- The character at the front of the bytes. -/
def firstChar (bytes : Bytes) : Option Char := bytes.toByteArray.utf8DecodeChar? 0

theorem firstChar_append (c : Char) (rest : Bytes) :
    firstChar (String.utf8EncodeChar c ++ rest) = some c := by
  rw [firstChar, List.toByteArray_append]
  exact ByteArray.utf8DecodeChar?_utf8EncodeChar_append

theorem firstChar_eq_some_iff {bytes : Bytes} {c : Char} :
    firstChar bytes = some c ↔ ∃ rest, bytes = String.utf8EncodeChar c ++ rest := by
  constructor
  · intro h
    obtain ⟨rest, hrest⟩ := ByteArray.exists_of_utf8DecodeChar?_eq_some h
    exact ⟨rest.data.toList, by simpa using congrArg (fun array => array.data.toList) hrest⟩
  · rintro ⟨rest, rfl⟩
    exact firstChar_append c rest

/-- What is read of some bytes: their characters up to the first place that none stands at, and the
bytes from there on. -/
structure Utf8Read where
  text : Text
  rest : Bytes
deriving DecidableEq, Repr

def readUtf8 (bytes : Bytes) : Utf8Read :=
  match _h : firstChar bytes with
  | none => ⟨[], bytes⟩
  | some c =>
    let read := readUtf8 (bytes.drop (String.utf8EncodeChar c).length)
    ⟨c :: read.text, read.rest⟩
termination_by bytes.length
decreasing_by
  obtain ⟨rest, rfl⟩ := firstChar_eq_some_iff.mp _h
  have hpos := List.length_pos_iff.mpr (String.utf8EncodeChar_ne_nil (c := c))
  simp only [List.drop_left, List.length_append]
  omega

theorem readUtf8_none {bytes : Bytes} (h : firstChar bytes = none) : readUtf8 bytes = ⟨[], bytes⟩ := by
  unfold readUtf8
  split
  · rfl
  · simp_all

theorem readUtf8_cons (c : Char) (bytes : Bytes) :
    readUtf8 (String.utf8EncodeChar c ++ bytes) = ⟨c :: (readUtf8 bytes).text, (readUtf8 bytes).rest⟩ := by
  rw [readUtf8]
  split
  · simp_all [firstChar_append]
  · rename_i other hother
    obtain rfl : c = other := by simpa [firstChar_append] using hother
    rw [List.drop_left]

/-- Characters in front of the bytes are read first. -/
theorem readUtf8_append (text : Text) (bytes : Bytes) :
    readUtf8 (utf8 text ++ bytes) = ⟨text ++ (readUtf8 bytes).text, (readUtf8 bytes).rest⟩ := by
  induction text with
  | nil => rfl
  | cons c text ih => rw [utf8_cons, List.append_assoc, readUtf8_cons, ih, List.cons_append]

@[simp] theorem firstChar_nil : firstChar [] = none := by
  cases h : firstChar [] with
  | none => rfl
  | some c =>
    obtain ⟨rest, hrest⟩ := firstChar_eq_some_iff.mp h
    exact absurd (List.append_eq_nil_iff.mp hrest.symm).1 String.utf8EncodeChar_ne_nil

@[simp] theorem readUtf8_utf8 (text : Text) : readUtf8 (utf8 text) = ⟨text, []⟩ := by
  simpa [readUtf8_none firstChar_nil] using readUtf8_append text []

/-- Nothing is lost, and no character stands at the front of what is left. -/
theorem readUtf8_spec (bytes : Bytes) :
    bytes = utf8 (readUtf8 bytes).text ++ (readUtf8 bytes).rest ∧
      firstChar (readUtf8 bytes).rest = none := by
  fun_induction readUtf8 bytes with
  | case1 bytes h => exact ⟨rfl, h⟩
  | case2 bytes c h read ih =>
    obtain ⟨rest, rfl⟩ := firstChar_eq_some_iff.mp h
    have hread : read = readUtf8 rest := by simp [read]
    rw [List.drop_left, ← hread] at ih
    refine ⟨?_, ih.2⟩
    dsimp only
    rw [utf8_cons, List.append_assoc, ← ih.1]

theorem isUtf8_iff {bytes : Bytes} : IsUtf8 bytes ↔ (readUtf8 bytes).rest = [] := by
  constructor
  · rintro ⟨text, rfl⟩
    rw [readUtf8_utf8]
  · intro h
    have hall := (readUtf8_spec bytes).1
    rw [h, List.append_nil] at hall
    exact ⟨_, hall⟩

/-- A text has no more characters than bytes. -/
theorem length_le_utf8 (text : Text) : text.length ≤ (utf8 text).length := by
  induction text with
  | nil => simp
  | cons c text ih =>
    have hpos := List.length_pos_iff.mpr (String.utf8EncodeChar_ne_nil (c := c))
    rw [utf8_cons, List.length_append, List.length_cons]
    omega

/-! ## A character that is cut -/

/-- The bytes that can follow the first byte of a character of three or four bytes: a longer spelling
than needed, a surrogate and a value past the last character are left out. -/
def secondByte (lead byte : UInt8) : Bool :=
  (if lead = 0xe0 then 0xa0 else if lead = 0xf0 then 0x90 else 0x80) ≤ byte &&
    byte ≤ (if lead = 0xed then 0x9f else if lead = 0xf4 then 0x8f else 0xbf)

/-- Whether the bytes are the beginning of a character and not the whole of it. -/
def unfinished : Bytes → Bool
  | [lead] => 0xc2 ≤ lead && lead ≤ 0xf4
  | [lead, second] => 0xe0 ≤ lead && lead ≤ 0xf4 && secondByte lead second
  | [lead, second, third] =>
    0xf0 ≤ lead && lead ≤ 0xf4 && secondByte lead second && 0x80 ≤ third && third ≤ 0xbf
  | _ => false

theorem secondByte_ofNat {lead byte : Nat} (hlead : lead < 0x100) (hbyte : byte < 0x100)
    (hlow : 0x80 ≤ byte) (hhigh : byte ≤ 0xbf) (hlong : lead = 0xe0 → 0xa0 ≤ byte)
    (hlonger : lead = 0xf0 → 0x90 ≤ byte) (hsurrogate : lead = 0xed → byte ≤ 0x9f)
    (hlast : lead = 0xf4 → byte ≤ 0x8f) : secondByte (UInt8.ofNat lead) (UInt8.ofNat byte) := by
  simp only [secondByte, Bool.and_eq_true, decide_eq_true_eq, ← UInt8.toNat_inj,
    UInt8.le_iff_toNat_le, UInt8.toNat_ofNat']
  constructor
  · split_ifs <;> simp_all <;> omega
  · split_ifs <;> simp_all <;> omega

/-- Every way to cut a character gives an unfinished one. -/
theorem unfinished_of_cut {c : Char} {part more : Bytes} (h : String.utf8EncodeChar c = part ++ more)
    (hpart : part ≠ []) (hmore : more ≠ []) : unfinished part := by
  have hvalid : c.val.toNat.isValidChar := c.valid
  simp only [Nat.isValidChar] at hvalid
  unfold String.utf8EncodeChar at h
  generalize c.val.toNat = code at h hvalid
  dsimp only at h
  split_ifs at h with h1 h2 h3
  · rcases part with _ | ⟨a, _ | ⟨b, part⟩⟩ <;> simp_all
  · obtain rfl : part = [UInt8.ofNat (code / 0x40 % 0x20 + 0xc0)] := by
      rcases part with _ | ⟨a, _ | ⟨b, part⟩⟩ <;> simp_all
    simp [unfinished, UInt8.le_iff_toNat_le]
    omega
  · have hsecond : secondByte (UInt8.ofNat (code / 0x1000 % 0x10 + 0xe0))
        (UInt8.ofNat (code / 0x40 % 0x40 + 0x80)) := by
      apply secondByte_ofNat <;> omega
    obtain rfl | rfl : part = [UInt8.ofNat (code / 0x1000 % 0x10 + 0xe0)] ∨
        part = [UInt8.ofNat (code / 0x1000 % 0x10 + 0xe0), UInt8.ofNat (code / 0x40 % 0x40 + 0x80)] := by
      rcases part with _ | ⟨a, _ | ⟨b, _ | ⟨d, part⟩⟩⟩ <;> simp_all
    · simp [unfinished, UInt8.le_iff_toNat_le]
      omega
    · simp only [unfinished, hsecond, Bool.and_true, Bool.and_eq_true, decide_eq_true_eq,
        UInt8.le_iff_toNat_le, UInt8.toNat_ofNat', UInt8.reduceToNat]
      omega
  · have hsecond : secondByte (UInt8.ofNat (code / 0x40000 % 0x08 + 0xf0))
        (UInt8.ofNat (code / 0x1000 % 0x40 + 0x80)) := by
      apply secondByte_ofNat <;> omega
    obtain rfl | rfl | rfl : part = [UInt8.ofNat (code / 0x40000 % 0x08 + 0xf0)] ∨
        part = [UInt8.ofNat (code / 0x40000 % 0x08 + 0xf0), UInt8.ofNat (code / 0x1000 % 0x40 + 0x80)] ∨
        part = [UInt8.ofNat (code / 0x40000 % 0x08 + 0xf0), UInt8.ofNat (code / 0x1000 % 0x40 + 0x80),
          UInt8.ofNat (code / 0x40 % 0x40 + 0x80)] := by
      rcases part with _ | ⟨a, _ | ⟨b, _ | ⟨d, _ | ⟨e, part⟩⟩⟩⟩ <;> simp_all
    · simp [unfinished, UInt8.le_iff_toNat_le]
      omega
    · simp only [unfinished, hsecond, Bool.and_true, Bool.and_eq_true, decide_eq_true_eq,
        UInt8.le_iff_toNat_le, UInt8.toNat_ofNat', UInt8.reduceToNat]
      omega
    · simp only [unfinished, hsecond, Bool.and_true, Bool.and_eq_true, decide_eq_true_eq,
        UInt8.le_iff_toNat_le, UInt8.toNat_ofNat', UInt8.reduceToNat]
      omega

/-- No character stands at the front of a piece of one. -/
theorem firstChar_cut {c : Char} {part more : Bytes} (h : String.utf8EncodeChar c = part ++ more)
    (hmore : more ≠ []) : firstChar part = none := by
  by_contra hsome
  obtain ⟨other, hother⟩ := Option.ne_none_iff_exists'.mp hsome
  obtain ⟨rest, rfl⟩ := firstChar_eq_some_iff.mp hother
  have hsame : firstChar (String.utf8EncodeChar c) = some other := by
    rw [h, List.append_assoc]
    exact firstChar_append other _
  have hwhole : firstChar (String.utf8EncodeChar c) = some c := by
    simpa using firstChar_append c []
  obtain rfl : c = other := Option.some.inj (hwhole.symm.trans hsame)
  have hlength := congrArg List.length h
  simp only [List.length_append] at hlength
  exact hmore (List.eq_nil_of_length_eq_zero (by omega))

/-- Where a cut goes through the bytes of a text. -/
theorem exists_cut {text : Text} {part more : Bytes} (h : utf8 text = part ++ more) :
    ∃ before after cut, text = before ++ after ∧ part = utf8 before ++ cut ∧
      utf8 after = cut ++ more ∧ firstChar cut = none ∧ (cut ≠ [] → unfinished cut) := by
  induction text generalizing part with
  | nil =>
    obtain ⟨rfl, rfl⟩ := List.append_eq_nil_iff.mp h.symm
    exact ⟨[], [], [], rfl, rfl, rfl, firstChar_nil, nofun⟩
  | cons c text ih =>
    rw [utf8_cons] at h
    rcases List.append_eq_append_iff.mp h with ⟨tail, rfl, htail⟩ | ⟨tail, hcut, rfl⟩
    · obtain ⟨before, after, cut, rfl, rfl, hafter, hfirst, hcut⟩ := ih htail
      exact ⟨c :: before, after, cut, rfl, by rw [utf8_cons, List.append_assoc], hafter, hfirst, hcut⟩
    · rcases eq_or_ne tail [] with rfl | htail
      · rw [List.append_nil] at hcut
        refine ⟨[c], text, [], rfl, ?_, rfl, firstChar_nil, nofun⟩
        simp [utf8_cons, hcut]
      · refine ⟨[], c :: text, part, rfl, rfl, ?_, firstChar_cut hcut htail, ?_⟩
        · rw [utf8_cons, hcut, List.append_assoc]
        · intro hpart
          exact unfinished_of_cut hcut hpart htail

/-- The piece of a text before a cut reads as the characters that end before it. -/
theorem readUtf8_cut {text : Text} {part more : Bytes} (h : utf8 text = part ++ more) :
    ∃ after, text = (readUtf8 part).text ++ after ∧ utf8 after = (readUtf8 part).rest ++ more ∧
      ((readUtf8 part).rest ≠ [] → unfinished (readUtf8 part).rest) := by
  obtain ⟨before, after, cut, rfl, rfl, hafter, hfirst, hcut⟩ := exists_cut h
  rw [readUtf8_append, readUtf8_none hfirst, List.append_nil]
  exact ⟨after, rfl, hafter, hcut⟩

end Agentless
