import Mathlib

/-!
# Texts and byte strings

A text is its list of characters and a file's content its list of bytes. The ordered maps and
sets of the program are `Std.TreeMap` and `Std.TreeSet` over these; their keys compare
character by character, which is the order of the UTF-8 bytes as well.
-/

namespace Agentless

abbrev Text := List Char

instance : LawfulBEq Text := inferInstance

abbrev Bytes := List UInt8

end Agentless

/-!
## The UTF-8 bytes of a text
-/

namespace Agentless

def utf8 (text : Text) : Bytes := text.flatMap String.utf8EncodeChar

@[simp] theorem utf8_nil : utf8 [] = [] := rfl

@[simp] theorem utf8_append (text more : Text) : utf8 (text ++ more) = utf8 text ++ utf8 more :=
  List.flatMap_append

/-- Two texts have the same bytes only when they are the same text. -/
theorem utf8_injective : Function.Injective utf8 := by
  intro text text' heq
  have hbytes : text.utf8Encode = text'.utf8Encode := congrArg List.toByteArray heq
  have hdecode := congrArg ByteArray.utf8Decode? hbytes
  rw [List.utf8Decode?_utf8Encode, List.utf8Decode?_utf8Encode, Option.some.injEq] at hdecode
  simpa using congrArg Array.toList hdecode

theorem utf8_cons (c : Char) (text : Text) :
    utf8 (c :: text) = String.utf8EncodeChar c ++ utf8 text := List.flatMap_cons

theorem utf8EncodeChar_ascii {c : Char} (h : c.toNat < 0x80) :
    String.utf8EncodeChar c = [UInt8.ofNat c.toNat] := by
  have hle : c.val.toNat ≤ 0x7f := Nat.le_of_lt_succ h
  rw [String.utf8EncodeChar, if_pos hle]
  rfl

/-- An ASCII text has one byte for each character. -/
theorem utf8_ascii {text : Text} (h : ∀ c ∈ text, c.toNat < 0x80) :
    utf8 text = text.map fun c => UInt8.ofNat c.toNat := by
  induction text with
  | nil => rfl
  | cons c text ih =>
    obtain ⟨hc, hmore⟩ := List.forall_mem_cons.mp h
    rw [utf8_cons, ih hmore, utf8EncodeChar_ascii hc]
    rfl

theorem le_ofNat {n : Nat} (h : 0x80 ≤ n % 0x100) : 0x80 ≤ UInt8.ofNat n := by
  rw [UInt8.le_iff_toNat_le, UInt8.toNat_ofNat']
  exact h

/-- A character is its own byte or has no byte below 0x80. -/
theorem utf8EncodeChar_cases (c : Char) :
    (c.toNat < 0x80 ∧ String.utf8EncodeChar c = [UInt8.ofNat c.toNat]) ∨
      ∀ byte ∈ String.utf8EncodeChar c, 0x80 ≤ byte := by
  unfold String.utf8EncodeChar
  dsimp only
  split_ifs with h1 h2 h3
  · exact .inl ⟨Nat.lt_succ_of_le h1, rfl⟩
  all_goals
    refine .inr fun byte hbyte => ?_
    simp only [List.mem_cons, List.not_mem_nil, or_false] at hbyte
  · rcases hbyte with rfl | rfl <;> exact le_ofNat (by omega)
  · rcases hbyte with rfl | rfl | rfl <;> exact le_ofNat (by omega)
  · rcases hbyte with rfl | rfl | rfl | rfl <;> exact le_ofNat (by omega)

/-- An ASCII character that a text lacks is no byte of it. -/
theorem ascii_notMem_utf8 {c : Char} (hc : c.toNat < 0x80) {text : Text} (h : c ∉ text) :
    UInt8.ofNat c.toNat ∉ utf8 text := by
  intro hbyte
  obtain ⟨other, hother, hbyte⟩ := List.mem_flatMap.mp hbyte
  have hlow : (UInt8.ofNat c.toNat).toNat = c.toNat := by
    rw [UInt8.toNat_ofNat', Nat.mod_eq_of_lt (by omega)]
  rcases utf8EncodeChar_cases other with ⟨hascii, hencode⟩ | hhigh
  · rw [hencode, List.mem_singleton] at hbyte
    have hvalue := congrArg UInt8.toNat hbyte
    rw [hlow, UInt8.toNat_ofNat', Nat.mod_eq_of_lt (by omega)] at hvalue
    exact h (Char.ext (UInt32.toNat_inj.mp hvalue) ▸ hother)
  · have hge := UInt8.le_iff_toNat_le.mp (hhigh _ hbyte)
    rw [hlow] at hge
    exact absurd hge (Nat.not_le_of_lt hc)

/-- Bytes that are the encoding of some text. -/
def IsUtf8 (bytes : Bytes) : Prop := ∃ text, bytes = utf8 text

/-- What follows an ASCII byte is encoded text again. -/
theorem IsUtf8.tail {byte : UInt8} {rest : Bytes} (h : IsUtf8 (byte :: rest)) (hbyte : byte < 0x80) :
    IsUtf8 rest := by
  obtain ⟨text, htext⟩ := h
  cases text with
  | nil => simp at htext
  | cons c text =>
    rw [utf8_cons] at htext
    rcases utf8EncodeChar_cases c with ⟨-, hencode⟩ | hhigh
    · rw [hencode] at htext
      exact ⟨text, (List.cons.inj htext).2⟩
    · have hne := String.utf8EncodeChar_ne_nil (c := c)
      cases hencode : String.utf8EncodeChar c with
      | nil => exact absurd hencode hne
      | cons first bytes =>
        rw [hencode, List.cons_append] at htext
        have hfirst := hhigh first (by simp [hencode])
        rw [← (List.cons.inj htext).1] at hfirst
        exact absurd hbyte (UInt8.not_lt.mpr hfirst)

theorem IsUtf8.drop_ascii {part rest : Bytes} (h : IsUtf8 (part ++ rest))
    (hpart : ∀ byte ∈ part, byte < 0x80) : IsUtf8 rest := by
  induction part with
  | nil => exact h
  | cons byte part ih =>
    exact ih (IsUtf8.tail h (hpart byte List.mem_cons_self))
      fun other hother => hpart other (List.mem_cons_of_mem _ hother)

end Agentless
