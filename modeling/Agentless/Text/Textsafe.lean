import Agentless.Library.Text

/-!
# One line of a text

The escape that keeps repository text from opening a line in an answer: each line break and
control character is written as a visible escape.
-/

namespace Agentless.Text

/-- C0 except tab, DEL, C1, and the two Unicode line terminators. -/
def isUnsafe (c : Char) : Bool :=
  c.toNat ≤ 0x08 || (0x0a ≤ c.toNat && c.toNat ≤ 0x1f) || (0x7f ≤ c.toNat && c.toNat ≤ 0x9f) ||
    c.toNat = 0x2028 || c.toNat = 0x2029

/-- The lower case hexadecimal digits of `n`, with zeros before them up to `width`. -/
def zeroPadded (width n : Nat) : Text :=
  let digits := Nat.toDigits 16 n
  List.replicate (width - digits.length) '0' ++ digits

def codeEscape (c : Char) : Text :=
  if c.toNat ≤ 0xff then "\\x".toList ++ zeroPadded 2 c.toNat
  else "\\u".toList ++ zeroPadded 4 c.toNat

/-- What stands for one character. -/
def visible (c : Char) : Text :=
  if c = '\n' then "\\n".toList
  else if c = '\r' then "\\r".toList
  else if isUnsafe c then codeEscape c
  else [c]

def oneLine (text : Text) : Text := if text.any isUnsafe then text.flatMap visible else text

theorem oneLine_of_safe {text : Text} (h : ∀ c ∈ text, (!isUnsafe c) = true) :
    oneLine text = text := by
  rw [oneLine, if_neg]
  rw [List.any_eq_true]
  rintro ⟨c, hc, hrefused⟩
  have := h c hc
  rw [hrefused] at this
  cases this

theorem safe_toDigits (n : Nat) : (Nat.toDigits 10 n).all fun c => !isUnsafe c := by
  refine List.all_eq_true.mpr fun c hc => ?_
  have hdigit := Nat.isDigit_of_mem_toDigits (by decide) (by decide) hc
  simp only [Char.isDigit, Bool.and_eq_true, decide_eq_true_eq, ge_iff_le, UInt32.le_iff_toNat_le] at hdigit
  simp only [isUnsafe, Char.toNat]
  have hlow : 48 ≤ c.val.toNat := hdigit.1
  have hhigh : c.val.toNat ≤ 57 := hdigit.2
  simp only [Bool.not_eq_true', Bool.or_eq_false_iff, Bool.and_eq_false_iff, decide_eq_false_iff_not]
  omega

end Agentless.Text
