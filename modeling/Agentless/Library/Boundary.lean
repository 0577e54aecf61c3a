import Agentless.Library.Text

/-!
# Slices of a list

The elements from one index to another, and how slices that touch join up.
-/

namespace Agentless

variable {α : Type}

/-- The elements from `start` to before `stop`. -/
def slice (items : List α) (start stop : Nat) : List α := (items.drop start).take (stop - start)

@[simp] theorem slice_self (items : List α) (i : Nat) : slice items i i = [] := by simp [slice]

@[simp] theorem slice_length (items : List α) (i : Nat) :
    slice items i items.length = items.drop i := by
  simp [slice, List.take_of_length_le]

theorem length_slice {items : List α} {i j : Nat} (hj : j ≤ items.length) :
    (slice items i j).length = j - i := by
  simp [slice]
  omega

theorem getElem?_slice (items : List α) (i j k : Nat) :
    (slice items i j)[k]? = if k < j - i then items[i + k]? else none := by
  simp [slice, List.getElem?_take, List.getElem?_drop]

theorem slice_append {items : List α} {i j k : Nat} (hij : i ≤ j) (hjk : j ≤ k) :
    slice items i j ++ slice items j k = slice items i k := by
  unfold slice
  have hdrop : items.drop j = (items.drop i).drop (j - i) := by
    rw [List.drop_drop]
    congr 1
    omega
  rw [hdrop, ← List.take_add]
  congr 1
  omega

theorem slice_append_drop {items : List α} {i j : Nat} (hij : i ≤ j) :
    slice items i j ++ items.drop j = items.drop i := by
  unfold slice
  have hdrop : items.drop j = (items.drop i).drop (j - i) := by
    rw [List.drop_drop]
    congr 1
    omega
  rw [hdrop, List.take_append_drop]

theorem mem_of_mem_slice {items : List α} {i j : Nat} {x : α} (h : x ∈ slice items i j) :
    x ∈ items :=
  List.mem_of_mem_drop (List.mem_of_mem_take h)

/-- Runs of equal elements are equal slices. -/
theorem slice_eq_slice {xs ys : List α} {i j size : Nat}
    (h : ∀ k < size, xs[i + k]? = ys[j + k]?) :
    slice xs i (i + size) = slice ys j (j + size) := by
  apply List.ext_getElem?
  intro k
  rw [getElem?_slice, getElem?_slice, Nat.add_sub_cancel_left, Nat.add_sub_cancel_left]
  split
  · exact h k ‹_›
  · rfl

end Agentless

/-!
## Character boundaries

An offset into the bytes of a text is a boundary when it lies between two of its characters. The
offset of an ASCII byte is one, and so is the one after it, so a scanner that only stops at ASCII
bytes stays on boundaries. `strSlice` is the slice of a string by offsets, which refuses to cut a
character.
-/

namespace Agentless

/-- The offset `i` comes between two characters of the text. -/
def Boundary (text : Text) (i : Nat) : Prop :=
  ∃ before after, text = before ++ after ∧ i = (utf8 before).length

/-- A byte that starts a character. -/
def startsChar (byte : UInt8) : Bool := byte &&& 0xc0 != 0x80

def isCharBoundary (bytes : Bytes) (i : Nat) : Bool :=
  match bytes[i]? with
  | none => i == bytes.length
  | some byte => i == 0 || startsChar byte

/-- The slice of a string from `i` to `j`, or none where there is no such slice. -/
def strSlice (bytes : Bytes) (i j : Nat) : Option Bytes :=
  if i ≤ j && isCharBoundary bytes i && isCharBoundary bytes j then some (slice bytes i j) else none

theorem startsChar_iff (byte : UInt8) :
    startsChar byte ↔ byte.toNat < 0x80 ∨ 0xc0 ≤ byte.toNat := by
  have hall : ∀ n : Fin 256,
      startsChar (UInt8.ofNat n) ↔ (n : Nat) < 0x80 ∨ 0xc0 ≤ (n : Nat) := by
    decide +kernel
  simpa using hall ⟨byte.toNat, byte.toNat_lt⟩

/-- A character is encoded by one byte that starts it and bytes that continue it. -/
theorem utf8EncodeChar_starts (c : Char) :
    ∃ first more, String.utf8EncodeChar c = first :: more ∧ startsChar first ∧
      ∀ byte ∈ more, ¬ startsChar byte := by
  have hlt : c.val.toNat < 0x110000 := by
    have hvalid := c.valid
    simp only [UInt32.isValidChar, Nat.isValidChar] at hvalid
    omega
  unfold String.utf8EncodeChar
  dsimp only
  split_ifs with h1 h2 h3
  all_goals
    refine ⟨_, _, rfl, ?_, ?_⟩
    · simp only [startsChar_iff, UInt8.toNat_ofNat']
      omega
    · simp only [startsChar_iff, List.mem_cons, List.not_mem_nil, or_false, forall_eq_or_imp,
        forall_eq, UInt8.toNat_ofNat', false_imp_iff, implies_true]
      try omega

theorem utf8_startsChar (text : Text) : (utf8 text).head?.all startsChar := by
  cases text with
  | nil => rfl
  | cons c text =>
    obtain ⟨first, more, hencode, hfirst, -⟩ := utf8EncodeChar_starts c
    simpa [utf8_cons, hencode] using hfirst

/-- An ASCII byte of a text is a character of its own. -/
theorem utf8_eq_append {text : Text} {part rest : Bytes} (h : utf8 text = part ++ rest)
    (hpart : ∀ byte ∈ part, byte < 0x80) :
    ∃ before after, text = before ++ after ∧ utf8 before = part ∧ utf8 after = rest := by
  induction part generalizing text with
  | nil => exact ⟨[], text, rfl, rfl, h⟩
  | cons byte part ih =>
    obtain ⟨hbyte, hmore⟩ := List.forall_mem_cons.mp hpart
    cases text with
    | nil => cases h
    | cons c text =>
      rw [utf8_cons] at h
      rcases utf8EncodeChar_cases c with ⟨-, hencode⟩ | hhigh
      · rw [hencode] at h
        obtain ⟨rfl, hrest⟩ := List.cons.inj h
        obtain ⟨before, after, rfl, hbefore, hafter⟩ := ih hrest hmore
        exact ⟨c :: before, after, rfl, by rw [utf8_cons, hencode, hbefore]; rfl, hafter⟩
      · obtain ⟨first, more, hencode, -, -⟩ := utf8EncodeChar_starts c
        rw [hencode] at h hhigh
        obtain ⟨rfl, -⟩ := List.cons.inj h
        exact absurd hbyte (UInt8.not_lt.mpr (hhigh first List.mem_cons_self))

/-- An ASCII character occurs in a text as often as its byte does. -/
theorem count_utf8 {a : Char} (ha : a.toNat < 0x80) (text : Text) :
    (utf8 text).count (UInt8.ofNat a.toNat) = text.count a := by
  induction text with
  | nil => rfl
  | cons c text ih =>
    rw [utf8_cons, List.count_append, List.count_cons, ih, Nat.add_comm]
    congr 1
    rcases utf8EncodeChar_cases c with ⟨hc, hencode⟩ | hhigh
    · rw [hencode, List.count_singleton]
      refine if_congr ?_ rfl rfl
      rw [beq_iff_eq, beq_iff_eq, ← UInt8.toNat_inj, ← Char.toNat_inj]
      simp only [UInt8.toNat_ofNat']
      omega
    · have hne : c ≠ a := by
        rintro rfl
        rw [utf8EncodeChar_ascii ha] at hhigh
        have := UInt8.le_iff_toNat_le.mp (hhigh _ List.mem_cons_self)
        simp only [UInt8.toNat_ofNat', UInt8.reduceToNat] at this
        omega
      rw [if_neg (by simpa using hne), List.count_eq_zero]
      intro hmem
      have := UInt8.le_iff_toNat_le.mp (hhigh _ hmem)
      simp only [UInt8.toNat_ofNat', UInt8.reduceToNat] at this
      omega

namespace Boundary

variable {text : Text} {i : Nat}

theorem zero (text : Text) : Boundary text 0 := ⟨[], text, rfl, rfl⟩

theorem last (text : Text) : Boundary text (utf8 text).length := ⟨text, [], by simp, rfl⟩

theorem le (h : Boundary text i) : i ≤ (utf8 text).length := by
  obtain ⟨before, after, rfl, rfl⟩ := h
  simp

/-- What follows a part of ASCII bytes. -/
theorem add (h : Boundary text i) {part : Bytes} (hpart : part <+: (utf8 text).drop i)
    (hascii : ∀ byte ∈ part, byte < 0x80) : Boundary text (i + part.length) := by
  obtain ⟨before, after, rfl, rfl⟩ := h
  obtain ⟨rest, hrest⟩ := hpart
  rw [utf8_append, List.drop_left] at hrest
  obtain ⟨ascii, after, rfl, rfl, -⟩ := utf8_eq_append hrest.symm hascii
  exact ⟨before ++ ascii, after, by simp, by simp⟩

theorem takeWhile (h : Boundary text i) {p : UInt8 → Bool} (hp : ∀ byte, p byte → byte < 0x80) :
    Boundary text (i + (((utf8 text).drop i).takeWhile p).length) :=
  h.add (List.takeWhile_prefix p) fun byte hbyte => hp byte (List.mem_takeWhile_imp hbyte)

theorem of_ascii {byte : UInt8} (h : (utf8 text)[i]? = some byte) (hbyte : byte < 0x80) :
    Boundary text i := by
  induction text generalizing i with
  | nil => cases h
  | cons c text ih =>
    rw [utf8_cons] at h
    by_cases hi : i < (String.utf8EncodeChar c).length
    · rw [List.getElem?_append_left hi] at h
      rcases utf8EncodeChar_cases c with ⟨-, hencode⟩ | hhigh
      · rw [hencode, List.length_singleton, Nat.lt_one_iff] at hi
        exact hi ▸ zero _
      · exact absurd hbyte (UInt8.not_lt.mpr (hhigh byte (List.mem_of_getElem? h)))
    · rw [List.getElem?_append_right (Nat.le_of_not_lt hi)] at h
      obtain ⟨before, after, rfl, hbefore⟩ := ih h
      refine ⟨c :: before, after, rfl, ?_⟩
      rw [utf8_cons, List.length_append]
      omega

theorem succ {byte : UInt8} (h : (utf8 text)[i]? = some byte) (hbyte : byte < 0x80) :
    Boundary text (i + 1) := by
  have hpart : [byte] <+: (utf8 text).drop i := by
    obtain ⟨hi, rfl⟩ := List.getElem?_eq_some_iff.mp h
    rw [List.drop_eq_getElem_cons hi]
    exact List.prefix_append [_] _
  exact (of_ascii h hbyte).add hpart (by simpa using hbyte)

theorem isCharBoundary (h : Boundary text i) : isCharBoundary (utf8 text) i := by
  obtain ⟨before, after, rfl, rfl⟩ := h
  have hstarts := utf8_startsChar after
  rw [Agentless.isCharBoundary, utf8_append, List.getElem?_append_right (Nat.le_refl _),
    Nat.sub_self, ← List.head?_eq_getElem?]
  cases hhead : (utf8 after).head? with
  | none => simp_all
  | some byte => simp_all

theorem strSlice {j : Nat} (hi : Boundary text i) (hj : Boundary text j) (hij : i ≤ j) :
    strSlice (utf8 text) i j = some (slice (utf8 text) i j) := by
  rw [Agentless.strSlice, hi.isCharBoundary, hj.isCharBoundary, if_pos (by simpa using hij)]

end Boundary

end Agentless
