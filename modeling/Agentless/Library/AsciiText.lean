import Agentless.Library.Boundary

/-!
# ASCII runs of a text

The slices of a string at byte offsets, and the runs of ASCII bytes in it. A class of ASCII bytes is
a class of characters, and a run of it has one byte for each character.
-/

namespace Agentless

/-- The string before and behind a byte offset, or none where that cuts a character. -/
def strSplit : Text → Nat → Option (Text × Text)
  | text, 0 => some ([], text)
  | [], _ + 1 => none
  | c :: text, offset + 1 =>
    if (String.utf8EncodeChar c).length ≤ offset + 1 then
      (strSplit text (offset + 1 - (String.utf8EncodeChar c).length)).map fun parts =>
        (c :: parts.1, parts.2)
    else none

/-- The string from a byte offset on. -/
def strFrom (text : Text) (offset : Nat) : Option Text := (strSplit text offset).map Prod.snd

/-- The slice of a string from one byte offset to another. -/
def strBetween (text : Text) (start stop : Nat) : Option Text :=
  if start ≤ stop then
    (strFrom text start).bind fun rest => (strSplit rest (stop - start)).map Prod.fst
  else none

theorem length_utf8EncodeChar_pos (c : Char) : 0 < (String.utf8EncodeChar c).length := by
  obtain ⟨first, more, hencode, -⟩ := utf8EncodeChar_starts c
  rw [hencode]
  exact Nat.succ_pos _

theorem strSplit_append (before after : Text) :
    strSplit (before ++ after) (utf8 before).length = some (before, after) := by
  induction before with
  | nil => cases after <;> rfl
  | cons c before ih =>
    obtain ⟨more, hmore⟩ := Nat.exists_eq_add_of_le' (length_utf8EncodeChar_pos c)
    have hlength : (utf8 (c :: before)).length = more + (utf8 before).length + 1 := by
      rw [utf8_cons, List.length_append, hmore]
      omega
    have hrest : more + (utf8 before).length + 1 - (String.utf8EncodeChar c).length =
        (utf8 before).length := by omega
    rw [hlength, List.cons_append, strSplit, if_pos (by omega), hrest, ih]
    rfl

theorem strFrom_append (before after : Text) :
    strFrom (before ++ after) (utf8 before).length = some after := by
  rw [strFrom, strSplit_append]
  rfl

theorem strBetween_append (before piece after : Text) :
    strBetween (before ++ (piece ++ after)) (utf8 before).length
      ((utf8 before).length + (utf8 piece).length) = some piece := by
  rw [strBetween, if_pos (Nat.le_add_right _ _), strFrom_append, Option.bind_some,
    Nat.add_sub_cancel_left, strSplit_append]
  rfl

/-! ## Classes of ASCII bytes -/

/-- The characters whose byte is in the class. -/
def asciiClass (accepts : UInt8 → Bool) (c : Char) : Bool :=
  c.toNat < 0x80 && accepts (UInt8.ofNat c.toNat)

variable {accepts : UInt8 → Bool}

theorem asciiClass_iff {c : Char} :
    asciiClass accepts c = true ↔ c.toNat < 0x80 ∧ accepts (UInt8.ofNat c.toNat) = true := by
  simp [asciiClass]

section Ascii

variable (hascii : ∀ byte, accepts byte = true → byte < 0x80)

include hascii in
/-- The bytes of a character outside the class are outside the class. -/
theorem not_accepts_of_mem {c : Char} (h : asciiClass accepts c = false) :
    ∀ byte ∈ String.utf8EncodeChar c, accepts byte = false := by
  intro byte hbyte
  rcases utf8EncodeChar_cases c with ⟨hc, hencode⟩ | hhigh
  · rw [hencode, List.mem_singleton] at hbyte
    rw [hbyte, Bool.eq_false_iff]
    intro haccepts
    exact absurd (asciiClass_iff.mpr ⟨hc, haccepts⟩) (Bool.eq_false_iff.mp h)
  · rw [Bool.eq_false_iff]
    exact fun haccepts => absurd (hascii byte haccepts) (UInt8.not_lt.mpr (hhigh byte hbyte))

/-- The bytes of a character in the class are its one byte, which is in the class. -/
theorem utf8EncodeChar_of_class {c : Char} (h : asciiClass accepts c = true) :
    String.utf8EncodeChar c = [UInt8.ofNat c.toNat] ∧ accepts (UInt8.ofNat c.toNat) = true := by
  obtain ⟨hc, haccepts⟩ := asciiClass_iff.mp h
  exact ⟨utf8EncodeChar_ascii hc, haccepts⟩

include hascii in
/-- The run of the bytes is the run of the characters. -/
theorem takeWhile_utf8 (text : Text) :
    (utf8 text).takeWhile accepts = utf8 (text.takeWhile (asciiClass accepts)) := by
  induction text with
  | nil => rfl
  | cons c text ih =>
    rw [utf8_cons, List.takeWhile_cons]
    split_ifs with hc
    · obtain ⟨hencode, haccepts⟩ := utf8EncodeChar_of_class hc
      rw [utf8_cons, hencode, List.singleton_append, List.takeWhile_cons, if_pos haccepts, ih,
        List.singleton_append]
    · obtain ⟨first, more, hencode, -⟩ := utf8EncodeChar_starts c
      have hfirst := not_accepts_of_mem hascii (Bool.eq_false_of_not_eq_true hc) first
        (by rw [hencode]; exact List.mem_cons_self)
      rw [hencode, List.cons_append, List.takeWhile_cons, if_neg (by rw [hfirst]; decide)]
      rfl

theorem utf8_of_class {run : Text} (h : ∀ c ∈ run, asciiClass accepts c = true) :
    utf8 run = run.map fun c => UInt8.ofNat c.toNat :=
  utf8_ascii fun c hc => (asciiClass_iff.mp (h c hc)).1

end Ascii

end Agentless
