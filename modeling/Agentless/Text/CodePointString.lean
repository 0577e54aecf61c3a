import Agentless.Library.Text

/-!
# Text as a sequence of code points

A `CodePointString` is generalized UTF-8: a lone surrogate takes the three bytes that the UTF-8
pattern gives its code point. Pushing code points and reading them back gives the same sequence.
-/

namespace Agentless

structure CodePointString where
  bytes : Bytes := []
  deriving DecidableEq, Repr

namespace CodePointString

def pushStr (text : CodePointString) (bytes : Bytes) : CodePointString := ⟨text.bytes ++ bytes⟩

/-- The bytes that `push` appends. A value that is no character is taken for a lone surrogate,
and its two low bytes are spread over three. -/
def encoded (code : Nat) : Bytes :=
  if code.isValidChar then String.utf8EncodeChar (Char.ofNat code)
  else
    let low := UInt8.ofNat code
    let high := UInt8.ofNat (code >>> 8)
    [(0xe0 : UInt8) ||| high >>> 4, (0x80 : UInt8) ||| (high &&& 0x0f) <<< 2 ||| low >>> 6,
      (0x80 : UInt8) ||| low &&& 0x3f]

/-- Appends a code point up to U+10FFFF; the source panics past it. -/
def push (text : CodePointString) (code : Nat) : CodePointString := text.pushStr (encoded code)

/-- The bits that a lead byte gives its code point, and the number of bytes after it. -/
def lead (byte : UInt8) : Nat × Nat :=
  if byte ≤ 0x7f then (byte.toNat, 0)
  else if 0xc0 ≤ byte ∧ byte ≤ 0xdf then ((byte &&& 0x1f).toNat, 1)
  else if 0xe0 ≤ byte ∧ byte ≤ 0xef then ((byte &&& 0x0f).toNat, 2)
  else ((byte &&& 0x07).toNat, 3)

def decoded : Bytes → List Nat
  | [] => []
  | byte :: bytes =>
    let (code, tail) := lead byte
    (bytes.take tail).foldl (fun code byte => code <<< 6 ||| (byte &&& 0x3f).toNat) code ::
      decoded (bytes.drop tail)
termination_by bytes => bytes.length

def codePoints (text : CodePointString) : List Nat := decoded text.bytes

theorem lead_one : ∀ bits : Fin 0x80, lead (UInt8.ofNat bits) = (bits.val, 0) := by decide

theorem lead_two : ∀ bits : Fin 0x20, lead (UInt8.ofNat (bits + 0xc0)) = (bits.val, 1) := by
  decide

theorem lead_three : ∀ bits : Fin 0x10, lead (UInt8.ofNat (bits + 0xe0)) = (bits.val, 2) := by
  decide

theorem lead_four : ∀ bits : Fin 0x08, lead (UInt8.ofNat (bits + 0xf0)) = (bits.val, 3) := by
  decide

theorem toNat_continuation {bits : Nat} (hbits : bits < 64) :
    (UInt8.ofNat (bits + 0x80) &&& 0x3f).toNat = bits := by
  have hmask (byte : UInt8) : (byte &&& 0x3f).toNat = byte.toNat % 64 := by
    simp [Nat.and_two_pow_sub_one_eq_mod _ 6]
  rw [hmask, UInt8.toNat_ofNat']
  omega

/-- A continuation byte adds its six bits below those of the code point so far. -/
theorem foldl_continuation (code : Nat) {bits : Nat} (hbits : bits < 64) :
    code <<< 6 ||| (UInt8.ofNat (bits + 0x80) &&& 0x3f).toNat = code * 64 + bits := by
  rw [toNat_continuation hbits, ← Nat.shiftLeft_add_eq_or_of_lt (by omega), Nat.shiftLeft_eq]

/-- The three bytes that the UTF-8 pattern gives a code point. -/
def threeBytes (code : Nat) : Bytes :=
  [UInt8.ofNat (code / 4096 % 16 + 0xe0), UInt8.ofNat (code / 64 % 64 + 0x80),
    UInt8.ofNat (code % 64 + 0x80)]

theorem surrogate_first : ∀ high : Fin 8,
    (0xe0 : UInt8) ||| UInt8.ofNat (high + 0xd8) >>> 4 = UInt8.ofNat (0xd + 0xe0) := by decide

theorem surrogate_second : ∀ (high : Fin 8) (top : Fin 4),
    (0x80 : UInt8) ||| (UInt8.ofNat (high + 0xd8) &&& 0x0f) <<< 2 ||| UInt8.ofNat top =
      UInt8.ofNat ((high + 0xd8) * 4 % 64 + top + 0x80) := by decide

theorem low_top : ∀ low : Fin 0x100, UInt8.ofNat low >>> 6 = UInt8.ofNat (low / 64) := by
  decide +kernel

theorem low_rest : ∀ low : Fin 0x100,
    (0x80 : UInt8) ||| UInt8.ofNat low &&& 0x3f = UInt8.ofNat (low % 64 + 0x80) := by
  decide +kernel

theorem encoded_surrogate (offset : Fin 0x800) :
    encoded (0xd800 + offset) = threeBytes (0xd800 + offset) := by
  have hlt := offset.isLt
  have hinvalid : ¬ (0xd800 + offset.val).isValidChar := by
    simp only [Nat.isValidChar]
    omega
  have hhigh : (0xd800 + offset.val) >>> 8 = offset / 256 + 0xd8 := by
    rw [Nat.shiftRight_eq_div_pow]
    omega
  have hlow : UInt8.ofNat (0xd800 + offset.val) = UInt8.ofNat (offset.val % 256) := by
    apply UInt8.toNat_inj.mp
    rw [UInt8.toNat_ofNat', UInt8.toNat_ofNat']
    omega
  have hfirst := surrogate_first ⟨offset / 256, by omega⟩
  have hsecond := surrogate_second ⟨offset / 256, by omega⟩ ⟨offset % 256 / 64, by omega⟩
  have htop := low_top ⟨offset % 256, by omega⟩
  have hrest := low_rest ⟨offset % 256, by omega⟩
  have h1 : 0xd + 0xe0 = (0xd800 + offset.val) / 4096 % 16 + 0xe0 := by omega
  have h2 : (offset.val / 256 + 0xd8) * 4 % 64 + offset % 256 / 64 + 0x80 =
      (0xd800 + offset.val) / 64 % 64 + 0x80 := by omega
  have h3 : offset.val % 256 % 64 = (0xd800 + offset.val) % 64 := by omega
  dsimp only at hfirst hsecond htop hrest
  rw [encoded, if_neg hinvalid, hhigh, hlow]
  dsimp only
  rw [hfirst, htop, hsecond, hrest, threeBytes, h1, h2, h3]

theorem decoded_threeBytes {code : Nat} (hcode : code < 0x10000) (bytes : Bytes) :
    decoded (threeBytes code ++ bytes) = code :: decoded bytes := by
  have hlead := lead_three ⟨code / 4096 % 16, by omega⟩
  simp only at hlead
  rw [threeBytes, List.cons_append, decoded, hlead]
  simp (disch := omega) only [List.cons_append, List.nil_append, List.take_succ_cons,
    List.take_zero, List.foldl_cons, List.foldl_nil, List.drop_succ_cons, List.drop_zero,
    foldl_continuation]
  congr 1
  omega

theorem decoded_utf8EncodeChar (c : Char) (bytes : Bytes) :
    decoded (String.utf8EncodeChar c ++ bytes) = c.toNat :: decoded bytes := by
  have hrange : c.val.toNat < 0x110000 := by
    have hvalid : c.val.toNat.isValidChar := c.valid
    simp only [Nat.isValidChar] at hvalid
    omega
  unfold String.utf8EncodeChar
  generalize hval : c.val.toNat = code at hrange ⊢
  have hcode : c.toNat = code := hval
  rw [hcode]
  dsimp only
  split_ifs with h1 h2 h3
  · have hlead := lead_one ⟨code, by omega⟩
    simp only at hlead
    rw [List.cons_append, decoded, hlead]
    simp
  · have hlead := lead_two ⟨code / 64 % 32, by omega⟩
    simp only at hlead
    rw [List.cons_append, decoded, hlead]
    simp (disch := omega) only [List.cons_append, List.nil_append, List.take_succ_cons,
      List.take_zero, List.foldl_cons, List.foldl_nil, List.drop_succ_cons, List.drop_zero,
      foldl_continuation]
    congr 1
    omega
  · exact decoded_threeBytes (by omega) bytes
  · have hlead := lead_four ⟨code / 262144 % 8, by omega⟩
    simp only at hlead
    rw [List.cons_append, decoded, hlead]
    simp (disch := omega) only [List.cons_append, List.nil_append, List.take_succ_cons,
      List.take_zero, List.foldl_cons, List.foldl_nil, List.drop_succ_cons, List.drop_zero,
      foldl_continuation]
    congr 1
    omega

theorem decoded_encoded {code : Nat} (hcode : code ≤ 0x10ffff) (bytes : Bytes) :
    decoded (encoded code ++ bytes) = code :: decoded bytes := by
  by_cases hvalid : code.isValidChar
  · rw [encoded, if_pos hvalid, decoded_utf8EncodeChar, Char.toNat_ofNat, if_pos hvalid]
  · have hsurrogate : 0xd800 ≤ code ∧ code < 0xe000 := by
      simp only [Nat.isValidChar, not_or, not_and] at hvalid
      omega
    have hencoded := encoded_surrogate ⟨code - 0xd800, by omega⟩
    simp only [Nat.add_sub_cancel' hsurrogate.1] at hencoded
    rw [hencoded]
    exact decoded_threeBytes (by omega) bytes

/-- The string of a sequence of code points. -/
def ofCodePoints (codes : List Nat) : CodePointString := ⟨codes.flatMap encoded⟩

/-- Pushing code points and reading them back gives the same sequence. -/
theorem codePoints_ofCodePoints {codes : List Nat} (hcodes : ∀ code ∈ codes, code ≤ 0x10ffff) :
    (ofCodePoints codes).codePoints = codes := by
  unfold codePoints ofCodePoints
  induction codes with
  | nil => simp [decoded]
  | cons code codes ih =>
    rw [List.flatMap_cons, decoded_encoded (hcodes code List.mem_cons_self)]
    rw [ih fun other hother => hcodes other (List.mem_cons_of_mem _ hother)]

@[simp] theorem push_ofCodePoints (codes : List Nat) (code : Nat) :
    (ofCodePoints codes).push code = ofCodePoints (codes ++ [code]) := by
  simp [push, pushStr, ofCodePoints]

theorem encoded_toNat (c : Char) : encoded c.toNat = String.utf8EncodeChar c := by
  have hvalid : c.toNat.isValidChar := c.valid
  rw [encoded, if_pos hvalid, Char.ofNat_toNat]

@[simp] theorem pushStr_ofCodePoints (codes : List Nat) (chars : Text) :
    (ofCodePoints codes).pushStr (utf8 chars) = ofCodePoints (codes ++ chars.map Char.toNat) := by
  simp [pushStr, ofCodePoints, utf8, List.flatMap_map, encoded_toNat]

theorem codePoints_utf8 (text : Text) :
    (CodePointString.mk (utf8 text)).codePoints = text.map Char.toNat := by
  unfold codePoints
  induction text with
  | nil => simp [decoded]
  | cons c text ih => rw [utf8_cons, decoded_utf8EncodeChar, ih, List.map_cons]

/-- The text, or nothing when the bytes are not UTF-8. -/
def asStr (string : CodePointString) : Option Text :=
  let text := string.codePoints.map Char.ofNat
  if utf8 text = string.bytes then some text else none

theorem asStr_eq_some_iff {string : CodePointString} {text : Text} :
    string.asStr = some text ↔ string.bytes = utf8 text := by
  unfold asStr
  constructor
  · intro h
    dsimp only at h
    split_ifs at h with hbytes
    rw [← hbytes, Option.some.inj h]
  · intro h
    have hstring : string = ⟨utf8 text⟩ := by
      cases string
      exact congrArg CodePointString.mk h
    have htext : string.codePoints.map Char.ofNat = text := by
      rw [hstring, codePoints_utf8, List.map_map]
      exact List.map_id'' (fun c => Char.ofNat_toNat c) text
    simp [htext, h]

@[simp] theorem asStr_utf8 (text : Text) : (CodePointString.mk (utf8 text)).asStr = some text :=
  asStr_eq_some_iff.mpr rfl

end CodePointString

end Agentless
