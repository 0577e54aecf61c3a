import Agentless.Text.CodePointString

/-!
# The order of code points, and escaped bytes

Generalized UTF-8 keeps the order of code points: of two code points the bytes of the smaller one
come first, and the bytes of no code point start those of another. Bytes that are not UTF-8 become
lone surrogates, from which they are read back.
-/

namespace Agentless.CodePointString

/-! ## The order -/

/-- The derived order, by the bytes. -/
def cmp (text other : CodePointString) : Ordering := List.compareLex compare text.bytes other.bytes

/-- The sequences part at a place where the first has the smaller byte. -/
inductive Precedes : Bytes → Bytes → Prop
  | part {x y : UInt8} (xs ys : Bytes) (h : x < y) : Precedes (x :: xs) (y :: ys)
  | cons {xs ys : Bytes} (x : UInt8) (h : Precedes xs ys) : Precedes (x :: xs) (x :: ys)

theorem compareLex_of_precedes {xs ys : Bytes} (h : Precedes xs ys) (more more' : Bytes) :
    List.compareLex compare (xs ++ more) (ys ++ more') = .lt ∧
      List.compareLex compare (ys ++ more') (xs ++ more) = .gt := by
  induction h with
  | part xs ys h =>
    simp only [List.cons_append, List.compareLex_cons_cons]
    rw [Std.compare_eq_lt.mpr h, Std.compare_eq_gt.mpr h]
    simp
  | cons x h ih =>
    simp only [List.cons_append, List.compareLex_cons_cons, Std.ReflOrd.compare_self,
      Ordering.eq_then, ih]
    trivial

theorem precedes_ofNat {a b : Nat} {xs ys : Bytes} (ha : a < 256) (hb : b < 256)
    (h : a < b ∨ a = b ∧ Precedes xs ys) :
    Precedes (UInt8.ofNat a :: xs) (UInt8.ofNat b :: ys) := by
  rcases h with hlt | ⟨rfl, hrest⟩
  · refine .part xs ys ?_
    rw [UInt8.lt_iff_toNat_lt, UInt8.toNat_ofNat', UInt8.toNat_ofNat']
    omega
  · exact .cons _ hrest

/-- The bytes of a code point, by its size. -/
def pattern (code : Nat) : Bytes :=
  if code ≤ 0x7f then [UInt8.ofNat code]
  else if code ≤ 0x7ff then [UInt8.ofNat (code / 64 % 32 + 0xc0), UInt8.ofNat (code % 64 + 0x80)]
  else if code ≤ 0xffff then threeBytes code
  else
    [UInt8.ofNat (code / 262144 % 8 + 0xf0), UInt8.ofNat (code / 4096 % 64 + 0x80),
      UInt8.ofNat (code / 64 % 64 + 0x80), UInt8.ofNat (code % 64 + 0x80)]

theorem encoded_eq_pattern {code : Nat} (hcode : code ≤ 0x10ffff) : encoded code = pattern code := by
  by_cases hvalid : code.isValidChar
  · have hval : (Char.ofNat code).val.toNat = code := (Char.toNat_ofNat code).trans (if_pos hvalid)
    rw [encoded, if_pos hvalid, String.utf8EncodeChar, hval]
    rfl
  · have hsurrogate : 0xd800 ≤ code ∧ code < 0xe000 := by
      simp only [Nat.isValidChar, not_or, not_and] at hvalid
      omega
    have hencoded := encoded_surrogate ⟨code - 0xd800, by omega⟩
    simp only [Nat.add_sub_cancel' hsurrogate.1] at hencoded
    rw [hencoded, pattern, if_neg (by omega), if_neg (by omega), if_pos (by omega)]

/-- Continuation bytes keep the order of the digits that they hold. -/
theorem precedes_two {code code' : Nat} (h : code < code') (hlead : code / 64 = code' / 64)
    (xs ys : Bytes) :
    Precedes (UInt8.ofNat (code % 64 + 0x80) :: xs) (UInt8.ofNat (code' % 64 + 0x80) :: ys) :=
  precedes_ofNat (by omega) (by omega) (.inl (by omega))

theorem precedes_three {code code' : Nat} (h : code < code') (hlead : code / 4096 = code' / 4096)
    (xs ys : Bytes) :
    Precedes (UInt8.ofNat (code / 64 % 64 + 0x80) :: UInt8.ofNat (code % 64 + 0x80) :: xs)
      (UInt8.ofNat (code' / 64 % 64 + 0x80) :: UInt8.ofNat (code' % 64 + 0x80) :: ys) := by
  refine precedes_ofNat (by omega) (by omega) ?_
  by_cases hsame : code / 64 = code' / 64
  · exact .inr ⟨by omega, precedes_two h hsame xs ys⟩
  · exact .inl (by omega)

theorem encoded_precedes {code code' : Nat} (h : code < code') (hcode : code' ≤ 0x10ffff) :
    Precedes (encoded code) (encoded code') := by
  rw [encoded_eq_pattern (by omega), encoded_eq_pattern hcode]
  unfold pattern threeBytes
  -- a shorter pattern has the smaller lead byte, so only equal lengths are left
  split_ifs <;> first
    | omega
    | exact precedes_ofNat (by omega) (by omega) (.inl (by omega))
    | refine precedes_ofNat (by omega) (by omega) ?_
  · by_cases hlead : code / 64 = code' / 64
    · exact .inr ⟨by omega, precedes_two h hlead _ _⟩
    · exact .inl (by omega)
  · by_cases hlead : code / 4096 = code' / 4096
    · exact .inr ⟨by omega, precedes_three h hlead _ _⟩
    · exact .inl (by omega)
  · by_cases hlead : code / 262144 = code' / 262144
    · refine .inr ⟨by omega, precedes_ofNat (by omega) (by omega) ?_⟩
      by_cases hsame : code / 4096 = code' / 4096
      · exact .inr ⟨by omega, precedes_three h hsame _ _⟩
      · exact .inl (by omega)
    · exact .inl (by omega)

theorem encoded_ne_nil {code : Nat} (hcode : code ≤ 0x10ffff) : encoded code ≠ [] := by
  rw [encoded_eq_pattern hcode]
  unfold pattern threeBytes
  split_ifs <;> simp

theorem compareLex_append_left (xs ys zs : Bytes) :
    List.compareLex compare (xs ++ ys) (xs ++ zs) = List.compareLex compare ys zs := by
  induction xs with
  | nil => rfl
  | cons x xs ih =>
    rw [List.cons_append, List.cons_append, List.compareLex_cons_cons, Std.ReflOrd.compare_self,
      Ordering.eq_then, ih]

/-- The bytes of code points compare as the code points do. -/
theorem compareLex_encoded {codes codes' : List Nat} (hcodes : ∀ code ∈ codes, code ≤ 0x10ffff)
    (hcodes' : ∀ code ∈ codes', code ≤ 0x10ffff) :
    List.compareLex compare (codes.flatMap encoded) (codes'.flatMap encoded) =
      List.compareLex compare codes codes' := by
  induction codes generalizing codes' with
  | nil =>
    cases codes' with
    | nil => rfl
    | cons code' codes' =>
      obtain ⟨byte, bytes, hbytes⟩ :=
        List.exists_cons_of_ne_nil (encoded_ne_nil (hcodes' code' List.mem_cons_self))
      rw [List.flatMap_cons, hbytes]
      rfl
  | cons code codes ih =>
    have hcode := hcodes code List.mem_cons_self
    cases codes' with
    | nil =>
      obtain ⟨byte, bytes, hbytes⟩ := List.exists_cons_of_ne_nil (encoded_ne_nil hcode)
      rw [List.flatMap_cons, hbytes]
      rfl
    | cons code' codes' =>
      have hcode' := hcodes' code' List.mem_cons_self
      rw [List.flatMap_cons, List.flatMap_cons, List.compareLex_cons_cons]
      rcases lt_trichotomy code code' with hlt | rfl | hgt
      · rw [(compareLex_of_precedes (encoded_precedes hlt hcode') _ _).1, Std.compare_eq_lt.mpr hlt]
        rfl
      · rw [compareLex_append_left, Std.ReflOrd.compare_self, Ordering.eq_then]
        exact ih (fun other hother => hcodes other (List.mem_cons_of_mem _ hother))
          fun other hother => hcodes' other (List.mem_cons_of_mem _ hother)
      · rw [(compareLex_of_precedes (encoded_precedes hgt hcode) _ _).2, Std.compare_eq_gt.mpr hgt]
        rfl

/-! ## Escaped bytes -/

/-- The first character of the bytes and how many of them it takes, when they start with UTF-8. -/
def firstChar (bytes : Bytes) : Option (Char × Nat) :=
  [1, 2, 3, 4].findSome? fun count =>
    match (CodePointString.mk (bytes.take count)).asStr with
    | some [c] => some (c, count)
    | _ => none

/-- The code points of the bytes, where a byte that is not UTF-8 is a lone surrogate. -/
def escapedCodePoints : Nat → Bytes → List Nat
  | 0, _ => []
  | _, [] => []
  | rounds + 1, byte :: rest =>
    match firstChar (byte :: rest) with
    | some (c, count) => c.toNat :: escapedCodePoints rounds (rest.drop (count - 1))
    | none => (0xdc00 + byte.toNat) :: escapedCodePoints rounds rest

/-- Valid UTF-8 is kept, and a byte that is no part of it becomes U+DC00 plus that byte. -/
def fromUtf8Escaped (bytes : Bytes) : CodePointString :=
  ofCodePoints (escapedCodePoints bytes.length bytes)

/-- The bytes that a code point stands for. -/
def unescaped (code : Nat) : Bytes :=
  if 0xdc00 ≤ code ∧ code ≤ 0xdcff then [UInt8.ofNat (code - 0xdc00)] else encoded code

theorem firstChar_eq_some {bytes : Bytes} {c : Char} {count : Nat}
    (h : firstChar bytes = some (c, count)) :
    0 < count ∧ bytes.take count = String.utf8EncodeChar c := by
  obtain ⟨size, hsize, hfound⟩ := List.exists_of_findSome?_eq_some h
  split at hfound
  · rename_i text htext
    cases hfound
    refine ⟨by grind, ?_⟩
    have hbytes := asStr_eq_some_iff.mp htext
    rw [utf8_cons, utf8_nil, List.append_nil] at hbytes
    exact hbytes
  · cases hfound

theorem unescaped_toNat (c : Char) : unescaped c.toNat = String.utf8EncodeChar c := by
  have hvalid : c.toNat.isValidChar := c.valid
  have hrange : ¬(0xdc00 ≤ c.toNat ∧ c.toNat ≤ 0xdcff) := by
    simp only [Nat.isValidChar] at hvalid
    omega
  rw [unescaped, if_neg hrange, encoded_toNat]

theorem flatMap_unescaped {rounds : Nat} {bytes : Bytes} (h : bytes.length ≤ rounds) :
    (escapedCodePoints rounds bytes).flatMap unescaped = bytes := by
  induction rounds generalizing bytes with
  | zero =>
    rw [List.length_eq_zero_iff.mp (Nat.le_zero.mp h)]
    rfl
  | succ rounds ih =>
    cases bytes with
    | nil => rfl
    | cons byte rest =>
      rw [List.length_cons] at h
      rw [escapedCodePoints]
      split
      · rename_i c count hfirst
        obtain ⟨hcount, htake⟩ := firstChar_eq_some hfirst
        obtain ⟨count, rfl⟩ := Nat.exists_eq_succ_of_ne_zero hcount.ne'
        rw [List.flatMap_cons, unescaped_toNat, ← htake, Nat.succ_sub_one,
          ih (by rw [List.length_drop]; omega), List.take_succ_cons, List.cons_append,
          List.take_append_drop]
      · have hbyte : UInt8.toNat byte < 256 := byte.toNat_lt
        rw [List.flatMap_cons, unescaped, if_pos (by omega), Nat.add_sub_cancel_left,
          UInt8.ofNat_toNat, ih (by omega)]
        rfl

theorem escapedCodePoints_le {rounds : Nat} {bytes : Bytes} :
    ∀ code ∈ escapedCodePoints rounds bytes, code ≤ 0x10ffff := by
  induction rounds generalizing bytes with
  | zero => simp [escapedCodePoints]
  | succ rounds ih =>
    cases bytes with
    | nil => simp [escapedCodePoints]
    | cons byte rest =>
      have hbyte : UInt8.toNat byte < 256 := byte.toNat_lt
      rw [escapedCodePoints]
      split
      · rename_i c count _
        have hvalid : c.toNat.isValidChar := c.valid
        simp only [Nat.isValidChar] at hvalid
        exact List.forall_mem_cons.mpr ⟨by omega, ih⟩
      · exact List.forall_mem_cons.mpr ⟨by omega, ih⟩

theorem fromUtf8Escaped_injective : Function.Injective fromUtf8Escaped := by
  intro bytes bytes' h
  have hcodes := congrArg codePoints h
  rw [fromUtf8Escaped, fromUtf8Escaped, codePoints_ofCodePoints escapedCodePoints_le,
    codePoints_ofCodePoints escapedCodePoints_le] at hcodes
  have hbytes := congrArg (List.flatMap unescaped) hcodes
  rwa [flatMap_unescaped le_rfl, flatMap_unescaped le_rfl] at hbytes

end Agentless.CodePointString
