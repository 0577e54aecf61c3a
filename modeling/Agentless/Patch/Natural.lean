import Mathlib.Data.Nat.Digits.Lemmas
import Agentless.Patch.Hunks

/-!
# Whole numbers of any size

The line numbers and counts of a hunk header are decimal digits, and their arithmetic is that of the
school. Every step on bytes is checked here, and none overflows. The reader of a hunk subtracts what
it took of a side from the count that the header declares, which is never less.
-/

namespace Agentless.Patch

open Text Relation

/-! ## Bytes -/

/-- The sum of two bytes, unless it overflows. -/
def checkedAdd (x y : UInt8) : Option UInt8 :=
  if x.toNat + y.toNat < 2 ^ 8 then some (x + y) else none

/-- The difference of two bytes, unless it underflows. -/
def checkedSub (x y : UInt8) : Option UInt8 := if y ≤ x then some (x - y) else none

theorem exists_checkedAdd {x y : UInt8} (h : x.toNat + y.toNat < 2 ^ 8) :
    ∃ z, checkedAdd x y = some z ∧ z.toNat = x.toNat + y.toNat :=
  ⟨x + y, if_pos h, by rw [UInt8.toNat_add, Nat.mod_eq_of_lt h]⟩

theorem toNat_checkedAdd {x y z : UInt8} (h : checkedAdd x y = some z) :
    z.toNat = x.toNat + y.toNat := by
  unfold checkedAdd at h
  split_ifs at h with hfits
  rw [← Option.some.inj h, UInt8.toNat_add, Nat.mod_eq_of_lt hfits]

theorem exists_checkedSub {x y : UInt8} (h : y.toNat ≤ x.toNat) :
    ∃ z, checkedSub x y = some z ∧ z.toNat = x.toNat - y.toNat :=
  ⟨x - y, if_pos h, UInt8.toNat_sub_of_le x y h⟩

/-- Digit values, each a byte less than ten. -/
def Digits (digits : List UInt8) : Prop := ∀ digit ∈ digits, digit < 10

theorem digits_cons {digit : UInt8} {digits : List UInt8} :
    Digits (digit :: digits) ↔ digit < 10 ∧ Digits digits := List.forall_mem_cons

theorem Digits.tail {digits : List UInt8} (h : Digits digits) : Digits digits.tail :=
  fun digit hdigit => h digit (List.mem_of_mem_tail hdigit)

theorem Digits.headD {digits : List UInt8} (h : Digits digits) : (digits.headD 0).toNat < 10 := by
  cases digits with
  | nil => decide
  | cons digit digits => exact UInt8.lt_iff_toNat_lt.mp (h digit List.mem_cons_self)

theorem Digits.reverse {digits : List UInt8} (h : Digits digits) : Digits digits.reverse :=
  fun digit hdigit => h digit (List.mem_reverse.mp hdigit)

/-- The digits of a sum, the least significant first. -/
def plusFrom (left right : List UInt8) (carry : UInt8) : Option (List UInt8) :=
  if left = [] ∧ right = [] ∧ carry = 0 then some []
  else
    match _hboth : checkedAdd (left.headD 0) (right.headD 0) with
    | none => none
    | some both =>
      match htotal : checkedAdd both carry with
      | none => none
      | some total => (plusFrom left.tail right.tail (total / 10)).map (total % 10 :: ·)
termination_by (left.length + right.length, carry.toNat)
decreasing_by
  have hboth := toNat_checkedAdd _hboth
  have htotal := toNat_checkedAdd htotal
  rcases left with _ | ⟨digit, left⟩
  · rcases right with _ | ⟨digit, right⟩
    -- where both sides are over, a tenth of the carry is left
    · have hcarry : carry.toNat ≠ 0 := fun hzero => by simp_all [← UInt8.toNat_inj]
      refine Prod.Lex.right _ ?_
      simp only [List.headD_nil, UInt8.reduceToNat, UInt8.toNat_div] at hboth htotal ⊢
      omega
    · exact Prod.Lex.left _ _ (by simp)
  · exact Prod.Lex.left _ _ (by simp; omega)

/-- The digits of a difference, the least significant first. What is borrowed at the end is lost. -/
def minusFrom : List UInt8 → List UInt8 → UInt8 → Option (List UInt8)
  | [], _, _ => some []
  | digit :: left, right, borrow => do
    let taken ← checkedAdd (right.headD 0) borrow
    let raised ← checkedSub (← checkedAdd digit 10) taken
    let rest ← minusFrom left right.tail (if raised < 10 then 1 else 0)
    return raised % 10 :: rest

/-- The digit values of the decimal text of a number. -/
def digitBytes (value : Nat) : Option (List UInt8) :=
  (Nat.toDigits 10 value).mapM fun c => checkedSub (UInt8.ofNat c.toNat) 0x30

/-! ## Numbers -/

/-- The decimal digit values, the most significant first, without leading zeros; zero has none. -/
structure Natural where
  digits : List UInt8
  small : Digits digits
  stripped : digits.head? ≠ some 0

/-- The value of digits, the least significant first. -/
def little (digits : List UInt8) : Nat := Nat.ofDigits 10 (digits.map UInt8.toNat)

theorem little_cons (digit : UInt8) (digits : List UInt8) :
    little (digit :: digits) = digit.toNat + 10 * little digits := rfl

theorem little_eq (digits : List UInt8) :
    little digits = (digits.headD 0).toNat + 10 * little digits.tail := by
  cases digits <;> rfl

theorem toNat_mod_ten (byte : UInt8) : (byte % 10).toNat = byte.toNat % 10 := by
  rw [UInt8.toNat_mod]
  rfl

theorem toNat_div_ten (byte : UInt8) : (byte / 10).toNat = byte.toNat / 10 := by
  rw [UInt8.toNat_div]
  rfl

theorem mod_ten_lt (byte : UInt8) : byte % 10 < 10 := by
  rw [UInt8.lt_iff_toNat_lt, toNat_mod_ten]
  exact Nat.mod_lt _ (by decide)

/-! ## The steps of the sum and of the difference -/

theorem digits_plusFrom (left right : List UInt8) (carry : UInt8) :
    ∀ sum ∈ plusFrom left right carry, Digits sum := by
  fun_induction plusFrom left right carry with
  | case1 =>
    rintro sum ⟨⟩
    exact List.forall_mem_nil _
  | case2 => nofun
  | case3 => nofun
  | case4 left right carry hmore both hboth total htotal ih =>
    intro sum hsum
    obtain ⟨rest, hrest, rfl⟩ := Option.map_eq_some_iff.mp hsum
    exact digits_cons.mpr ⟨mod_ten_lt total, ih rest hrest⟩

theorem digits_minusFrom (left right : List UInt8) (borrow : UInt8) :
    ∀ difference ∈ minusFrom left right borrow, Digits difference := by
  induction left generalizing right borrow with
  | nil =>
    rintro difference ⟨⟩
    exact List.forall_mem_nil _
  | cons digit left ih =>
    intro difference hdifference
    simp only [minusFrom, Option.mem_def, Option.bind_eq_bind, Option.bind_eq_some_iff,
      Option.pure_def, Option.some.injEq] at hdifference
    obtain ⟨taken, -, more, -, raised, -, rest, hrest, rfl⟩ := hdifference
    exact digits_cons.mpr ⟨mod_ten_lt raised, ih _ _ rest hrest⟩

/-- No byte overflows in a sum of digits, and its value is that of the sides and of the carry. -/
theorem plusFrom_eq {left right : List UInt8} {carry : UInt8} (hleft : Digits left)
    (hright : Digits right) (hcarry : carry.toNat ≤ 1) :
    ∃ sum, plusFrom left right carry = some sum ∧
      little sum = little left + little right + carry.toNat := by
  have hl := hleft.headD
  have hr := hright.headD
  fun_induction plusFrom left right carry with
  | case1 left right carry hover =>
    obtain ⟨rfl, rfl, rfl⟩ := hover
    exact ⟨[], rfl, rfl⟩
  | case2 left right carry hmore hnone =>
    obtain ⟨both, hboth, -⟩ := @exists_checkedAdd (left.headD 0) (right.headD 0) (by omega)
    rw [hnone] at hboth
    cases hboth
  | case3 left right carry hmore both hboth hnone =>
    have hvalue := toNat_checkedAdd hboth
    obtain ⟨total, htotal, -⟩ := @exists_checkedAdd both carry (by omega)
    rw [hnone] at htotal
    cases htotal
  | case4 left right carry hmore both hboth total htotal ih =>
    have hbothValue := toNat_checkedAdd hboth
    have htotalValue := toNat_checkedAdd htotal
    have hcarry' : (total / 10).toNat ≤ 1 := by
      rw [toNat_div_ten]
      omega
    obtain ⟨sum, hsum, hvalue⟩ :=
      ih hleft.tail hright.tail hcarry' hleft.tail.headD hright.tail.headD
    refine ⟨total % 10 :: sum, by rw [hsum]; rfl, ?_⟩
    rw [little_cons, hvalue, toNat_mod_ten, toNat_div_ten, little_eq left, little_eq right]
    omega

/-- No byte underflows in a difference of digits, and its value is the exact one when what is taken
is not more. -/
theorem minusFrom_eq {left right : List UInt8} {borrow : UInt8} (hleft : Digits left)
    (hright : Digits right) (hborrow : borrow.toNat ≤ 1) :
    ∃ difference, minusFrom left right borrow = some difference ∧
      (little right + borrow.toNat ≤ little left →
        little difference = little left - (little right + borrow.toNat)) := by
  induction left generalizing right borrow with
  | nil => exact ⟨[], rfl, fun hle => (Nat.zero_sub _).symm⟩
  | cons digit left ih =>
    obtain ⟨hdigit, hrest⟩ := digits_cons.mp hleft
    have hdigit := UInt8.lt_iff_toNat_lt.mp hdigit
    have hr := hright.headD
    simp only [UInt8.reduceToNat] at hdigit
    obtain ⟨taken, htaken, htakenValue⟩ :=
      @exists_checkedAdd (right.headD 0) borrow (by omega)
    obtain ⟨more, hmore, hmoreValue⟩ :=
      @exists_checkedAdd digit 10 (by simp only [UInt8.reduceToNat]; omega)
    simp only [UInt8.reduceToNat] at hmoreValue
    obtain ⟨raised, hraised, hraisedValue⟩ := @exists_checkedSub more taken (by omega)
    let borrow' : UInt8 := if raised < 10 then 1 else 0
    have hborrow' : borrow'.toNat = if raised.toNat < 10 then 1 else 0 := by
      have hlt : raised < 10 ↔ raised.toNat < 10 := UInt8.lt_iff_toNat_lt
      simp only [borrow', hlt]
      split_ifs <;> rfl
    obtain ⟨rest, hsome, hvalue⟩ :=
      @ih right.tail borrow' hrest hright.tail (by split_ifs at hborrow' <;> omega)
    refine ⟨raised % 10 :: rest, ?_, fun hle => ?_⟩
    · simp only [minusFrom, htaken, hmore, hraised, Option.bind_eq_bind, Option.bind_some]
      exact congrArg (Option.bind · fun rest => some (raised % 10 :: rest)) hsome
    · rw [little_cons, toNat_mod_ten]
      rw [little_cons, little_eq right] at hle ⊢
      split_ifs at hborrow' <;> omega

/-! ## Digits from the most significant one -/

/-- The value of digits after those of `start`. -/
def horner (start : Nat) (digits : List UInt8) : Nat :=
  digits.foldl (fun value digit => 10 * value + digit.toNat) start

theorem horner_cons (start : Nat) (digit : UInt8) (digits : List UInt8) :
    horner start (digit :: digits) = horner (10 * start + digit.toNat) digits := rfl

theorem little_reverse (digits : List UInt8) : little digits.reverse = horner 0 digits := by
  induction digits using List.reverseRecOn with
  | nil => rfl
  | append_singleton digits digit ih =>
    rw [List.reverse_append, List.reverse_singleton, List.singleton_append, little_cons, ih, horner,
      horner, List.foldl_concat, Nat.add_comm]

theorem horner_eq (start : Nat) (digits : List UInt8) :
    horner start digits = start * 10 ^ digits.length + horner 0 digits := by
  induction digits generalizing start with
  | nil => simp [horner]
  | cons digit digits ih =>
    rw [horner_cons, horner_cons, ih, ih (10 * 0 + digit.toNat), List.length_cons, Nat.pow_succ]
    ring

theorem horner_lt {digits : List UInt8} (h : Digits digits) :
    horner 0 digits < 10 ^ digits.length := by
  induction digits with
  | nil => exact Nat.one_pos
  | cons digit digits ih =>
    obtain ⟨hdigit, hdigits⟩ := digits_cons.mp h
    have hdigit : digit.toNat < 10 := UInt8.lt_iff_toNat_lt.mp hdigit
    have hrest := ih hdigits
    have hmul := Nat.mul_le_mul_right (10 ^ digits.length) (Nat.le_of_lt_succ hdigit)
    rw [horner_cons, horner_eq, List.length_cons, Nat.pow_succ, Nat.mul_zero, Nat.zero_add]
    omega

theorem le_horner {digit : UInt8} (hdigit : digit ≠ 0) (digits : List UInt8) :
    10 ^ digits.length ≤ horner 0 (digit :: digits) := by
  have hpos : 0 < digit.toNat := Nat.pos_of_ne_zero fun hzero => hdigit (UInt8.toNat_inj.mp hzero)
  have hmul := Nat.mul_le_mul_right (10 ^ digits.length) hpos
  rw [horner_cons, horner_eq, Nat.mul_zero, Nat.zero_add]
  omega

theorem horner_dropWhile (digits : List UInt8) :
    horner 0 (digits.dropWhile (· = 0)) = horner 0 digits := by
  induction digits with
  | nil => rfl
  | cons digit digits ih =>
    by_cases hzero : digit = 0
    · subst hzero
      rw [List.dropWhile_cons_of_pos (by simp), ih]
      rfl
    · rw [List.dropWhile_cons_of_neg (by simpa using hzero)]

theorem le_horner_start (start : Nat) (digits : List UInt8) : start ≤ horner start digits := by
  rw [horner_eq]
  exact (Nat.le_mul_of_pos_right start (by positivity)).trans (Nat.le_add_right _ _)

theorem compare_toNat (x y : UInt8) : compare x y = compare x.toNat y.toNat := by
  simp only [compare, compareOfLessAndEq, UInt8.lt_iff_toNat_lt, UInt8.toNat_inj]

theorem compare_add {bound low low' : Nat} (hlow : low < bound) (hlow' : low' < bound)
    (high high' : Nat) :
    compare (high * bound + low) (high' * bound + low') =
      (compare high high').then (compare low low') := by
  obtain hlt | rfl | hgt := lt_trichotomy high high'
  · have hle : (high + 1) * bound ≤ high' * bound := Nat.mul_le_mul_right bound hlt
    rw [Nat.compare_eq_lt.mpr hlt, Nat.compare_eq_lt.mpr (by rw [Nat.add_mul] at hle; omega)]
    rfl
  · rw [Nat.compare_eq_eq.mpr rfl]
    simp [Nat.compare_eq_ite_lt]
  · have hle : (high' + 1) * bound ≤ high * bound := Nat.mul_le_mul_right bound hgt
    rw [Nat.compare_eq_gt.mpr hgt, Nat.compare_eq_gt.mpr (by rw [Nat.add_mul] at hle; omega)]
    rfl

theorem compare_horner {digits digits' : List UInt8} (h : Digits digits) (h' : Digits digits')
    (hlength : digits.length = digits'.length) :
    compare digits digits' = compare (horner 0 digits) (horner 0 digits') := by
  induction digits generalizing digits' with
  | nil =>
    obtain rfl := List.length_eq_zero_iff.mp hlength.symm
    rfl
  | cons digit digits ih =>
    cases digits' with
    | nil => exact absurd hlength (by simp)
    | cons digit' digits' =>
      obtain ⟨-, hdigits⟩ := digits_cons.mp h
      obtain ⟨-, hdigits'⟩ := digits_cons.mp h'
      have hsame : digits.length = digits'.length := Nat.succ.inj hlength
      have hbound := horner_lt hdigits'
      rw [← hsame] at hbound
      have hcompare := compare_add (horner_lt hdigits) hbound digit.toNat digit'.toNat
      rw [List.compare_cons_cons, compare_toNat, ih hdigits hdigits' hsame, horner_cons,
        horner_cons, horner_eq (10 * 0 + digit.toNat), horner_eq (10 * 0 + digit'.toNat), ← hsame,
        Nat.mul_zero, Nat.zero_add, Nat.zero_add, hcompare]

/-! ## Decimal text -/

/-- The character of a digit. -/
def digitChar (digit : UInt8) : Char := Char.ofNat (0x30 + digit.toNat)

theorem digitChar_eq : ∀ digit : Fin 10,
    digitChar (UInt8.ofNat digit) = Nat.digitChar digit := by decide

theorem digitChar_of_lt {digit : UInt8} (h : digit < 10) :
    digitChar digit = Nat.digitChar digit.toNat := by
  have heq := digitChar_eq ⟨digit.toNat, UInt8.lt_iff_toNat_lt.mp h⟩
  rwa [UInt8.ofNat_toNat] at heq

/-- The text of digits that do not start with zero is that of their value. -/
theorem toDigits_horner {digits : List UInt8} (h : Digits digits) (hne : digits ≠ [])
    (hhead : digits.head? ≠ some 0) : Nat.toDigits 10 (horner 0 digits) = digits.map digitChar := by
  induction digits using List.reverseRecOn with
  | nil => exact absurd rfl hne
  | append_singleton digits digit ih =>
    have hdigit : digit < 10 := h digit (by simp)
    have hvalue : digit.toNat < 10 := UInt8.lt_iff_toNat_lt.mp hdigit
    have hlast : Nat.toDigits 10 digit.toNat = [digitChar digit] := by
      rw [Nat.toDigits_of_lt_base hvalue, digitChar_of_lt hdigit]
    have hsum : horner 0 (digits ++ [digit]) = 10 * horner 0 digits + digit.toNat := by
      rw [horner, List.foldl_concat]
      rfl
    rw [hsum, List.map_append, List.map_singleton]
    cases digits with
    | nil => simpa [horner] using hlast
    | cons first digits =>
      have hfirst : first ≠ 0 := fun hzero => hhead (congrArg some hzero)
      have hpos : 0 < horner 0 (first :: digits) :=
        (Nat.pow_pos (by decide)).trans_le (le_horner hfirst digits)
      rw [← Nat.toDigits_append_toDigits (by decide) hpos hvalue, hlast,
        ih (fun other hother => h other (List.mem_append_left _ hother)) (by simp)
          (by simpa using hfirst)]

theorem digitBytes_of_isDigit {chars : List Char} (h : ∀ c ∈ chars, c.isDigit) :
    ∃ values, (chars.mapM fun c => checkedSub (UInt8.ofNat c.toNat) 0x30) = some values ∧
      Digits values ∧ ∀ start, horner start values = Nat.ofDigitChars 10 chars start := by
  induction chars with
  | nil => exact ⟨[], rfl, List.forall_mem_nil _, fun _ => Nat.ofDigitChars_nil.symm⟩
  | cons c chars ih =>
    obtain ⟨hc, hchars⟩ := List.forall_mem_cons.mp h
    obtain ⟨values, hsome, hdigits, hvalue⟩ := ih hchars
    have hcode : 48 ≤ c.toNat ∧ c.toNat ≤ 57 := Char.isDigit_iff_toNat.mp hc
    have hbyte : (UInt8.ofNat c.toNat).toNat = c.toNat := by
      rw [UInt8.toNat_ofNat', Nat.mod_eq_of_lt (by omega)]
    obtain ⟨digit, hdigit, hdigitValue⟩ := @exists_checkedSub (UInt8.ofNat c.toNat) 0x30
      (by rw [hbyte]; exact hcode.1)
    rw [hbyte] at hdigitValue
    refine ⟨digit :: values, by rw [List.mapM_cons, hdigit, hsome]; rfl, ?_, fun start => ?_⟩
    · refine digits_cons.mpr ⟨UInt8.lt_iff_toNat_lt.mpr ?_, hdigits⟩
      simp only [UInt8.reduceToNat] at hdigitValue ⊢
      omega
    · rw [horner_cons, hvalue, hdigitValue, Nat.ofDigitChars_cons]
      rfl

/-- The decimal text of a number is made of digits, and none underflows. -/
theorem digitBytes_eq (value : Nat) :
    ∃ values, digitBytes value = some values ∧ Digits values ∧ horner 0 values = value := by
  have hchars : ∀ c ∈ Nat.toDigits 10 value, c.isDigit := fun c hc =>
    Nat.isDigit_of_mem_toDigits (by decide) (by decide) hc
  obtain ⟨values, hsome, hdigits, hvalue⟩ := digitBytes_of_isDigit hchars
  exact ⟨values, hsome, hdigits, (hvalue 0).trans Nat.ofDigitChars_ten_toDigits⟩

theorem digits_digitBytes (value : Nat) : ∀ values ∈ digitBytes value, Digits values := by
  obtain ⟨values, hsome, hdigits, -⟩ := digitBytes_eq value
  rw [hsome]
  rintro _ ⟨⟩
  exact hdigits

/-! ## Exact arithmetic -/

namespace Natural

/-- The number of digit values, the most significant first. -/
def fromDigits (values : List UInt8) (h : Digits values) : Natural where
  digits := values.dropWhile (· = 0)
  small := fun digit hdigit => h digit ((List.dropWhile_sublist _).subset hdigit)
  stripped := by
    have hhead := List.head?_dropWhile_not (· = (0 : UInt8)) values
    intro hzero
    rw [hzero] at hhead
    exact absurd hhead (by decide)

def one : Natural := ⟨[1], List.forall_mem_singleton.mpr (by decide), by simp⟩

def isZero (number : Natural) : Bool := number.digits.isEmpty

/-- The value as a machine word, or `none` when it is larger than any. -/
def toUsize (number : Natural) : Option Nat :=
  number.digits.foldlM (fun value digit =>
    if 10 * value + digit.toNat < 2 ^ 64 then some (10 * value + digit.toNat) else none) 0

def plus (number other : Natural) : Option Natural :=
  (plusFrom number.digits.reverse other.digits.reverse 0).pmap
    (fun sum h => fromDigits sum.reverse h.reverse) (digits_plusFrom _ _ _)

def fromUsize (value : Nat) : Option Natural :=
  (digitBytes value).pmap fromDigits (digits_digitBytes value)

/-- The difference, for a value that is at most this number. -/
def minus (number : Natural) (value : Nat) : Option Natural := do
  let other ← fromUsize value
  (minusFrom number.digits.reverse other.digits.reverse 0).pmap
    (fun difference h => fromDigits difference.reverse h.reverse) (digits_minusFrom _ _ _)

def cmp (number other : Natural) : Ordering :=
  (compare number.digits.length other.digits.length).then (compare number.digits other.digits)

def shown (number : Natural) : Text :=
  if number.digits = [] then ['0'] else number.digits.map digitChar

def value (number : Natural) : Nat := horner 0 number.digits

variable {number other : Natural}

theorem value_fromDigits {values : List UInt8} (h : Digits values) :
    (fromDigits values h).value = horner 0 values := horner_dropWhile values

theorem toUsize_eq (number : Natural) :
    number.toUsize = if number.value < 2 ^ 64 then some number.value else none := by
  have hfold (start : Nat) (hstart : start < 2 ^ 64) (digits : List UInt8) :
      digits.foldlM (fun value digit =>
        if 10 * value + digit.toNat < 2 ^ 64 then some (10 * value + digit.toNat) else none) start =
        if horner start digits < 2 ^ 64 then some (horner start digits) else none := by
    induction digits generalizing start with
    | nil => exact (if_pos hstart).symm
    | cons digit digits ih =>
      rw [List.foldlM_cons, horner_cons]
      split_ifs with hfits hvalue hvalue
      · exact (ih _ hfits).trans (if_pos hvalue)
      · exact (ih _ hfits).trans (if_neg hvalue)
      · exact absurd ((le_horner_start _ digits).trans_lt hvalue) hfits
      · rfl
  exact hfold 0 (by decide) number.digits

theorem plus_eq (number other : Natural) :
    ∃ sum, number.plus other = some sum ∧ sum.value = number.value + other.value := by
  obtain ⟨sum, hsum, hvalue⟩ :=
    @plusFrom_eq number.digits.reverse other.digits.reverse 0 number.small.reverse
      other.small.reverse (by decide)
  have hdigits := digits_plusFrom _ _ _ sum hsum
  refine ⟨fromDigits sum.reverse hdigits.reverse, ?_, ?_⟩
  · simp only [plus, hsum, Option.pmap_some]
  · rw [value_fromDigits, ← little_reverse, List.reverse_reverse, hvalue, little_reverse,
      little_reverse]
    rfl

theorem fromUsize_eq (value : Nat) :
    ∃ number, fromUsize value = some number ∧ number.value = value := by
  obtain ⟨values, hsome, hdigits, hvalue⟩ := digitBytes_eq value
  refine ⟨fromDigits values hdigits, ?_, ?_⟩
  · simp only [fromUsize, hsome, Option.pmap_some]
  · rw [value_fromDigits, hvalue]

theorem minus_eq (number : Natural) (value : Nat) :
    ∃ difference, number.minus value = some difference ∧
      (value ≤ number.value → difference.value = number.value - value) := by
  obtain ⟨taken, htaken, hvalue⟩ := fromUsize_eq value
  obtain ⟨difference, hsome, hdifference⟩ :=
    @minusFrom_eq number.digits.reverse taken.digits.reverse 0 number.small.reverse
      taken.small.reverse (by decide)
  have hdigits := digits_minusFrom _ _ _ difference hsome
  refine ⟨fromDigits difference.reverse hdigits.reverse, ?_, fun hle => ?_⟩
  · simp only [minus, htaken, hsome, Option.pmap_some, Option.bind_eq_bind, Option.bind_some]
  · rw [little_reverse, little_reverse] at hdifference
    have hexact := hdifference (by rw [← hvalue] at hle; exact hle)
    rw [value_fromDigits, ← little_reverse, List.reverse_reverse, hexact, ← hvalue]
    rfl

theorem cmp_eq (number other : Natural) : number.cmp other = compare number.value other.value := by
  have hshort {number other : Natural} (h : number.digits.length < other.digits.length) :
      number.value < other.value := by
    obtain ⟨digits, small, stripped⟩ := other
    cases digits with
    | nil => exact absurd h (Nat.not_lt_zero _)
    | cons digit digits =>
      have hdigit : digit ≠ 0 := fun hzero => stripped (congrArg some hzero)
      have hpow : 10 ^ number.digits.length ≤ 10 ^ digits.length :=
        Nat.pow_le_pow_right (by decide) (Nat.le_of_lt_succ h)
      exact (horner_lt number.small).trans_le (hpow.trans (le_horner hdigit digits))
  obtain hlt | heq | hgt := lt_trichotomy number.digits.length other.digits.length
  · rw [cmp, Nat.compare_eq_lt.mpr hlt, Nat.compare_eq_lt.mpr (hshort hlt)]
    rfl
  · rw [cmp, Nat.compare_eq_eq.mpr heq]
    exact compare_horner number.small other.small heq
  · rw [cmp, Nat.compare_eq_gt.mpr hgt, Nat.compare_eq_gt.mpr (hshort hgt)]
    rfl

theorem shown_eq (number : Natural) : number.shown = shownNumber number.value := by
  unfold shown
  split_ifs with hempty
  · rw [value, hempty]
    rfl
  · exact (toDigits_horner number.small hempty number.stripped).symm

theorem lt_of_decimalValue {c : Char} {value : Nat} (h : decimalValue c = some value) :
    value < 10 := by
  unfold decimalValue at h
  split_ifs at h
  rw [← Option.some.inj h]
  exact Nat.mod_lt _ (by decide)

/-- The digit values of decimal digits of any script. -/
def decimals (text : Text) : List UInt8 := (text.filterMap decimalValue).map UInt8.ofNat

theorem toNat_ofNat_of_lt {value : Nat} (h : value < 10) : (UInt8.ofNat value).toNat = value := by
  rw [UInt8.toNat_ofNat', Nat.mod_eq_of_lt (by omega)]

theorem digits_decimals (text : Text) : Digits (decimals text) := by
  intro digit hdigit
  obtain ⟨value, hvalue, rfl⟩ := List.mem_map.mp hdigit
  obtain ⟨c, -, hc⟩ := List.mem_filterMap.mp hvalue
  rw [UInt8.lt_iff_toNat_lt, toNat_ofNat_of_lt (lt_of_decimalValue hc)]
  exact lt_of_decimalValue hc

/-- The number that the decimal digits at the start of the text spell, and the text after them. -/
def leading (text : Text) : Option (Natural × Text) :=
  if text.takeWhile isDecimal = [] then none
  else some (fromDigits (decimals (text.takeWhile isDecimal)) (digits_decimals _),
    text.dropWhile isDecimal)

theorem horner_decimals (text : Text) (start : Nat) :
    horner start (decimals text) =
      (text.filterMap decimalValue).foldl (fun value digit => 10 * value + digit) start := by
  unfold horner decimals
  rw [List.foldl_map]
  refine List.foldl_ext _ _ _ fun value digit hdigit => ?_
  obtain ⟨c, -, hc⟩ := List.mem_filterMap.mp hdigit
  rw [toNat_ofNat_of_lt (lt_of_decimalValue hc)]

theorem leading_eq (text : Text) :
    Patch.leading text = (leading text).map fun read => (read.1.value, read.2) := by
  unfold Patch.leading leading
  dsimp only
  split_ifs with hnone
  · rfl
  · rw [Option.map_some, value_fromDigits, horner_decimals]

end Natural

/-! ## The reader of a hunk -/

/-- One line of a body that the reader goes past. -/
inductive BodyStep : List Text × Tally → List Text × Tally → Prop where
  | skip {line : Text} {rest : List Text} {tally : Tally} (hopen : tally.opened)
      (hmarker : noNewline.isPrefixOf line) : BodyStep (line :: rest, tally) (rest, tally)
  | take {line : Text} {rest : List Text} {tally : Tally} (hopen : tally.opened)
      (hmarker : ¬noNewline.isPrefixOf line) (hfits : tally.fits (marked line).1 = some true) :
      BodyStep (line :: rest, tally) (rest, tally.take (marked line).1 (marked line).2)

/-- The lines of a body end before the counts are met. This is where the reader subtracts. -/
structure RunsOut (lines : List Text) (at_ : Nat) (old new : Natural) (tally : Tally) : Prop where
  run : ReflTransGen BodyStep (lines.drop at_, ⟨old.value, new.value, [], []⟩) ([], tally)
  opened : tally.opened

/-- The refusal with the counts as the reader keeps them. -/
def Tally.refused (tally : Tally) (old new : Natural) (path header : Text) : Option Text := do
  let oldLeft ← old.minus tally.old.length
  let newLeft ← new.minus tally.new.length
  return path ++ ": hunk ".toList ++ strip header ++ " ends after part of its body, with ".toList ++
    oldLeft.shown ++ " pre-image and ".toList ++ newLeft.shown ++
    " post-image line(s) still to come (truncated diff?)".toList

section Reader

variable {quoted : Text → Text} {lines : List Text} {at_ : Nat} {old new : Natural} {tally : Tally}

theorem BodyStep.bodyFrom_eq {path header : Text} {rest rest' : List Text} {tally tally' : Tally}
    (h : BodyStep (rest, tally) (rest', tally')) (next : Nat) :
    bodyFrom quoted path header rest next tally =
      bodyFrom quoted path header rest' (next + 1) tally' := by
  cases h with
  | skip hopen hmarker => rw [bodyFrom, if_pos hopen, if_pos hmarker]
  | take hopen hmarker hfits => rw [bodyFrom, if_pos hopen, if_neg hmarker, hfits]

theorem RunsOut.bodyFrom_eq (h : RunsOut lines at_ old new tally) (path header : Text)
    (next : Nat) :
    bodyFrom quoted path header (lines.drop at_) next ⟨old.value, new.value, [], []⟩ =
      .error (tally.truncated path header) := by
  have hrun (state : List Text × Tally) (next : Nat) (h : ReflTransGen BodyStep state ([], tally)) :
      bodyFrom quoted path header state.1 next state.2 = .error (tally.truncated path header) := by
    induction h using ReflTransGen.head_induction_on generalizing next with
    | refl =>
      have hopen := h.opened
      rw [bodyFrom, if_pos hopen]
    | head hstep _ ih =>
      rw [hstep.bodyFrom_eq next]
      exact ih (next + 1)
  exact hrun _ next h.run

/-- One side has taken no more than its count, if a machine word holds the count, and no more than
the lines that were read. -/
structure TakenSide (lines count taken rest : Nat) : Prop where
  count : count < 2 ^ 64 → taken ≤ count
  lines : taken + rest ≤ lines

theorem TakenSide.skip {lines count taken rest : Nat} (h : TakenSide lines count taken (rest + 1)) :
    TakenSide lines count taken rest := ⟨h.count, by have := h.lines; omega⟩

theorem TakenSide.take {lines count taken rest : Nat} (h : TakenSide lines count taken (rest + 1))
    (hleft : Tally.leftOf count taken) : TakenSide lines count (taken + 1) rest :=
  ⟨fun hcount => lt_of_leftOf hleft hcount, by have := h.lines; omega⟩

theorem TakenSide.le {lines count taken rest : Nat} (h : TakenSide lines count taken rest)
    (hlines : lines < 2 ^ 64) : taken ≤ count := by
  have hread := h.lines
  by_cases hcount : count < 2 ^ 64
  · exact h.count hcount
  · omega

/-- Both sides of a tally, against the counts of the header. -/
structure Counted (lines : Nat) (old new : Natural) (state : List Text × Tally) : Prop where
  oldCount : state.2.oldCount = old.value
  newCount : state.2.newCount = new.value
  old : TakenSide lines old.value state.2.old.length state.1.length
  new : TakenSide lines new.value state.2.new.length state.1.length

/-- A line goes to a side only while the count of the side leaves room. -/
theorem BodyStep.counted {count : Nat} {state state' : List Text × Tally}
    (h : BodyStep state state') (hcounted : Counted count old new state) :
    Counted count old new state' := by
  obtain ⟨holdCount, hnewCount, hold, hnew⟩ := hcounted
  cases h with
  | skip => exact ⟨holdCount, hnewCount, hold.skip, hnew.skip⟩
  | @take line rest tally hopen hmarker hfits =>
    dsimp only at holdCount hnewCount hold hnew
    have hleftOld : tally.leftOld → Tally.leftOf old.value tally.old.length := by
      rw [Tally.leftOld, holdCount]
      exact id
    have hleftNew : tally.leftNew → Tally.leftOf new.value tally.new.length := by
      rw [Tally.leftNew, hnewCount]
      exact id
    unfold Tally.fits at hfits
    unfold Tally.take
    split_ifs at hfits ⊢ with hspace hminus
    · have hboth := Option.some.inj hfits
      rw [Bool.and_eq_true] at hboth
      refine ⟨holdCount, hnewCount, ?_, ?_⟩
      · simpa using hold.take (hleftOld hboth.1)
      · simpa using hnew.take (hleftNew hboth.2)
    · refine ⟨holdCount, hnewCount, ?_, hnew.skip⟩
      simpa using hold.take (hleftOld (Option.some.inj hfits))
    · refine ⟨holdCount, hnewCount, hold.skip, ?_⟩
      simpa using hnew.take (hleftNew (Option.some.inj hfits))

theorem RunsOut.counted (h : RunsOut lines at_ old new tally) :
    Counted lines.length old new ([], tally) := by
  have hstart (count : Nat) : TakenSide lines.length count 0 (lines.drop at_).length :=
    ⟨fun _ => Nat.zero_le _, by simp⟩
  have hcounted {state : List Text × Tally}
      (hrun : ReflTransGen BodyStep (lines.drop at_, ⟨old.value, new.value, [], []⟩) state) :
      Counted lines.length old new state := by
    induction hrun with
    | refl => exact ⟨rfl, rfl, hstart _, hstart _⟩
    | tail _ hstep ih => exact hstep.counted ih
  exact hcounted h.run

/-- Where the reader subtracts, neither side has taken more than its count. -/
theorem RunsOut.le (h : RunsOut lines at_ old new tally) (hlines : lines.length < 2 ^ 64) :
    tally.old.length ≤ old.value ∧ tally.new.length ≤ new.value :=
  ⟨h.counted.old.le hlines, h.counted.new.le hlines⟩

theorem RunsOut.refused_eq (h : RunsOut lines at_ old new tally) (hlines : lines.length < 2 ^ 64)
    (path header : Text) :
    tally.refused old new path header = some (tally.truncated path header) := by
  obtain ⟨hold, hnew⟩ := h.le hlines
  obtain ⟨holdCount, hnewCount, -, -⟩ := h.counted
  obtain ⟨oldLeft, holdLeft, holdValue⟩ := old.minus_eq tally.old.length
  obtain ⟨newLeft, hnewLeft, hnewValue⟩ := new.minus_eq tally.new.length
  rw [Tally.refused, holdLeft, hnewLeft, Tally.truncated, holdCount, hnewCount, ← holdValue hold,
    ← hnewValue hnew, ← Natural.shown_eq, ← Natural.shown_eq]
  rfl

end Reader

/-- The arithmetic of the digits is that of the numbers. No byte overflows or underflows in it, and
the reader of a hunk subtracts only what is not more. -/
theorem natural_exact (quoted : Text → Text) :
    (∀ number other : Natural, ∃ sum, number.plus other = some sum ∧
      sum.value = number.value + other.value) ∧
    (∀ (number : Natural) (value : Nat), ∃ difference, number.minus value = some difference ∧
      (value ≤ number.value → difference.value = number.value - value)) ∧
    (∀ number other : Natural, number.cmp other = compare number.value other.value) ∧
    (∀ number : Natural, number.toUsize =
      if number.value < 2 ^ 64 then some number.value else none) ∧
    (∀ text : Text, leading text =
      (Natural.leading text).map fun read => (read.1.value, read.2)) ∧
    ∀ (lines : List Text) (at_ : Nat) (old new : Natural) (tally : Tally),
      RunsOut lines at_ old new tally → lines.length < 2 ^ 64 →
      tally.old.length ≤ old.value ∧ tally.new.length ≤ new.value ∧
      ∀ path header next,
        bodyFrom quoted path header (lines.drop at_) next ⟨old.value, new.value, [], []⟩ =
          .error (tally.truncated path header) ∧
        tally.refused old new path header = some (tally.truncated path header) := by
  refine ⟨Natural.plus_eq, Natural.minus_eq, Natural.cmp_eq, Natural.toUsize_eq,
    Natural.leading_eq, fun lines at_ old new tally h hlines => ?_⟩
  obtain ⟨hold, hnew⟩ := h.le hlines
  exact ⟨hold, hnew, fun path header next =>
    ⟨h.bodyFrom_eq path header next, h.refused_eq hlines path header⟩⟩

end Agentless.Patch
