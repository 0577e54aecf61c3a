import Agentless.Hook.Seeds
import Agentless.Library.Regex

/-!
# The path tokens are the matches of their expression

A run of path bytes is scanned once for the last dot that can end a match. It stands for a greedy
repetition that gives back one character after the other, and a run without a match has none at any
later start.
-/

namespace Agentless.Hook.Seeds

open Regex Text

/-! ## The expression -/

def inRange (low high c : Char) : Bool := low ≤ c && c ≤ high

/-- `[A-Za-z0-9]` -/
def alphanumeric (c : Char) : Bool := inRange 'A' 'Z' c || inRange 'a' 'z' c || inRange '0' '9' c

/-- The class `path` of letters, digits, the underscore, the dot, the dash and the slash. -/
def pathClass (c : Char) : Bool :=
  alphanumeric c || c == '_' || c == '.' || c == '-' || c == '/'

/-- `path+\.[A-Za-z0-9]{1,6}` -/
def pathRegex : Regex Char :=
  .seq (.loop 1 none (.cls pathClass))
    (.seq (.cls (· == '.')) (.loop 1 (some 6) (.cls alphanumeric)))

/-! ## Classes -/

theorem inRange_iff {low high c : Char} :
    inRange low high c = true ↔ low.toNat ≤ c.toNat ∧ c.toNat ≤ high.toNat := by
  rw [inRange, Bool.and_eq_true, decide_eq_true_eq, decide_eq_true_eq]
  rfl

theorem inRange_high {low high c : Char} (hhigh : high.toNat < 0x80) (hc : 0x80 ≤ c.toNat) :
    inRange low high c = false := by
  have hnot : ¬ c ≤ high := fun hle => by
    have hle' : c.toNat ≤ high.toNat := hle
    omega
  simp [inRange, hnot]

theorem beq_high {d c : Char} (hd : d.toNat < 0x80) (hc : 0x80 ≤ c.toNat) : (c == d) = false := by
  rw [beq_eq_false_iff_ne]
  rintro rfl
  omega

theorem asciiClass_eq {accepts : UInt8 → Bool} {cls : Char → Bool}
    (hlow : ∀ code : Fin 0x80, asciiClass accepts (Char.ofNat code) = cls (Char.ofNat code))
    (hhigh : ∀ c : Char, 0x80 ≤ c.toNat → cls c = false) : asciiClass accepts = cls := by
  funext c
  by_cases hc : c.toNat < 0x80
  · simpa using hlow ⟨c.toNat, hc⟩
  · rw [hhigh c (Nat.le_of_not_lt hc), asciiClass, decide_eq_false hc, Bool.false_and]

theorem asciiClass_alphanumeric : asciiClass isAsciiAlphanumeric = alphanumeric :=
  asciiClass_eq (by decide) fun c hc => by
    simp [alphanumeric, inRange_high _ hc]

theorem asciiClass_path : asciiClass isPathByte = pathClass :=
  asciiClass_eq (by decide) fun c hc => by
    simp [pathClass, alphanumeric, inRange_high _ hc, beq_high _ hc]

theorem ascii_of_high {accepts : UInt8 → Bool}
    (h : ∀ code : Fin 0x80, accepts (UInt8.ofNat (0x80 + code)) = false) (byte : UInt8)
    (haccepts : accepts byte = true) : byte < 0x80 := by
  by_contra hge
  have hbyte : 0x80 ≤ byte.toNat := UInt8.le_iff_toNat_le.mp (UInt8.not_lt.mp hge)
  have hlt := byte.toNat_lt
  have hfalse := h ⟨byte.toNat - 0x80, by omega⟩
  simp only [Nat.add_sub_cancel' hbyte, UInt8.ofNat_toNat, haccepts] at hfalse
  cases hfalse

theorem ascii_path : ∀ byte, isPathByte byte = true → byte < 0x80 :=
  ascii_of_high (by decide)

theorem ascii_alphanumeric : ∀ byte, isAsciiAlphanumeric byte = true → byte < 0x80 :=
  ascii_of_high (by decide)

/-! ## Runs -/

theorem takeWhile_append_stop {α : Type} {p : α → Bool} {run rest : List α}
    (hrun : ∀ c ∈ run, p c = true) (hrest : ∀ c ∈ rest.head?, p c = false) :
    (run ++ rest).takeWhile p = run := by
  rw [List.takeWhile_append_of_pos hrun]
  cases rest with
  | nil => exact List.append_nil run
  | cons c rest =>
    rw [List.takeWhile_cons, hrest c rfl]
    exact List.append_nil run

theorem head?_dropWhile_false {α : Type} (p : α → Bool) (items : List α) :
    ∀ c ∈ (items.dropWhile p).head?, p c = false := by
  intro c hc
  have hnot := List.head?_dropWhile_not p items
  rw [Option.mem_def.mp hc] at hnot
  exact hnot

/-- A run does not go on behind an element outside its class. -/
theorem takeWhile_append_left {α : Type} {p : α → Bool} {items rest : List α}
    (hrest : ∀ c ∈ rest.head?, p c = false) :
    (items ++ rest).takeWhile p = items.takeWhile p := by
  induction items with
  | nil => exact takeWhile_append_stop (List.forall_mem_nil _) hrest
  | cons c items ih =>
    rw [List.cons_append, List.takeWhile_cons, List.takeWhile_cons, ih]

/-- What stands from a position on, as the run of a class and what follows. -/
theorem exists_run {α : Type} (p : α → Bool) (items : List α) :
    ∃ run rest, items = run ++ rest ∧ items.takeWhile p = run ∧ (∀ c ∈ run, p c = true) ∧
      ∀ c ∈ rest.head?, p c = false :=
  ⟨items.takeWhile p, items.dropWhile p, List.takeWhile_append_dropWhile.symm, rfl,
    fun _ hc => List.mem_takeWhile_imp hc, head?_dropWhile_false p items⟩

theorem findSome?_eq_map_find? {α β : Type} {items : List α} {f : α → Option β} {good : α → Bool}
    {value : α → β} (h : ∀ x ∈ items, f x = if good x then some (value x) else none) :
    items.findSome? f = (items.find? good).map value := by
  induction items with
  | nil => rfl
  | cons x items ih =>
    obtain ⟨hx, hitems⟩ := List.forall_mem_cons.mp h
    rw [List.findSome?_cons, hx, List.find?_cons]
    cases good x with
    | true => rfl
    | false => exact ih hitems

/-! ## Paths -/

section Paths

variable {word : Char → Bool} {text : Text}

/-- A dot and up to six alphanumeric characters behind it. -/
theorem head?_suffix (mark : Mark) :
    (outcomes word text (.seq (.cls (· == '.')) (.loop 1 (some 6) (.cls alphanumeric))) mark).head? =
      if text[mark.pos]?.any (· == '.') && text[mark.pos + 1]?.any alphanumeric then
        some (mark.advance (1 + min 6 (runLength alphanumeric text (mark.pos + 1))))
      else none := by
  rw [head?_outcomes_seq, outcomes]
  cases text[mark.pos]?.any (· == '.') with
  | false => rfl
  | true =>
    rw [if_pos rfl, List.findSome?_singleton, outcomes_loop_cls, Nat.add_sub_cancel, Bool.true_and]
    change (List.map _ (List.range' 1 (min 6 (runLength alphanumeric text (mark.pos + 1)))).reverse).head? = _
    by_cases hany : text[mark.pos + 1]?.any alphanumeric = true
    · rw [if_pos hany, runLength_of_any hany]
      obtain ⟨count, hcount⟩ : ∃ count,
          min 6 (runLength alphanumeric text (mark.pos + 1 + 1) + 1) = count + 1 :=
        Nat.exists_eq_succ_of_ne_zero (by omega)
      rw [hcount, List.range'_concat, List.reverse_append, List.reverse_singleton,
        List.singleton_append, List.map_cons, List.head?_cons, advance_advance]
      simp [Nat.add_comm]
    · rw [if_neg hany, runLength_of_not_any hany]
      rfl

theorem length_takeWhile_take {α : Type} (p : α → Bool) (items : List α) (count : Nat) :
    ((items.take count).takeWhile p).length = min count (items.takeWhile p).length := by
  induction items generalizing count with
  | nil => simp
  | cons x items ih =>
    cases count with
    | zero => simp
    | succ count =>
      rw [List.take_succ_cons, List.takeWhile_cons, List.takeWhile_cons]
      cases p x with
      | false => simp
      | true => simp [ih, Nat.succ_min_succ]

/-- In a run of path characters a byte is that of its character. -/
theorem getElem?_utf8_run {run : Text} (hrun : ∀ c ∈ run, pathClass c = true) (pos : Nat)
    {accepts : UInt8 → Bool} :
    (utf8 run)[pos]?.any accepts = run[pos]?.any (asciiClass accepts) := by
  have hpath : ∀ c ∈ run, asciiClass isPathByte c = true := by rwa [asciiClass_path]
  rw [utf8_of_class hpath, List.getElem?_map, Option.any_map]
  cases hat : run[pos]? with
  | none => rfl
  | some c =>
    have hc := (asciiClass_iff.mp (hpath c (List.mem_of_getElem? hat))).1
    simp [asciiClass, hc]

theorem pathClass_of_alphanumeric {c : Char} (h : alphanumeric c = true) : pathClass c = true := by
  simp [pathClass, h]

theorem asciiClass_dot : asciiClass (· == dot) = (· == '.') :=
  asciiClass_eq (by decide) fun c hc => beq_high (by decide) hc

variable {run rest : Text} {pos : Nat} (htext : text.drop pos = run ++ rest)
  (hrun : ∀ c ∈ run, pathClass c = true) (hrest : ∀ c ∈ rest.head?, pathClass c = false)

include htext in
theorem getElem?_run {k : Nat} (hk : k < run.length) : text[pos + k]? = run[k]? := by
  rw [← List.getElem?_drop, htext, List.getElem?_append_left hk]

include htext hrest in
theorem not_path_behind {p : Char → Bool} (hp : ∀ c, p c = true → pathClass c = true) :
    text[pos + run.length]?.any p = false := by
  rw [← List.getElem?_drop, htext, List.getElem?_append_right (Nat.le_refl _), Nat.sub_self,
    ← List.head?_eq_getElem?]
  cases hhead : rest.head? with
  | none => rfl
  | some c =>
    refine Bool.eq_false_iff.mpr fun hc => ?_
    exact absurd (hp c hc) (Bool.eq_false_iff.mp (hrest c hhead))

include htext hrest in
theorem runLength_inside {p : Char → Bool} (hp : ∀ c, p c = true → pathClass c = true) {k : Nat}
    (hk : k ≤ run.length) : runLength p text (pos + k) = ((run.drop k).takeWhile p).length := by
  have hstop : ∀ c ∈ rest.head?, p c = false := fun c hc =>
    Bool.eq_false_iff.mpr fun hpc => Bool.eq_false_iff.mp (hrest c hc) (hp c hpc)
  rw [runLength, ← List.drop_drop, htext, List.drop_append_of_le_length hk,
    takeWhile_append_left hstop]

include hrun in
theorem length_utf8_run : (utf8 run).length = run.length := by
  have hpath : ∀ c ∈ run, asciiClass isPathByte c = true := by rwa [asciiClass_path]
  rw [utf8_of_class hpath, List.length_map]

include hrun in
theorem utf8_drop_run (k : Nat) : (utf8 run).drop k = utf8 (run.drop k) := by
  have hpath : ∀ c ∈ run, asciiClass isPathByte c = true := by rwa [asciiClass_path]
  rw [utf8_of_class hpath, utf8_of_class fun c hc => hpath c (List.mem_of_mem_drop hc),
    List.map_drop]

/-- The suffix that is taken behind a dot. -/
theorem length_suffix (hrun : ∀ c ∈ run, pathClass c = true) (k : Nat) :
    (((((utf8 run).drop k).take maxSuffix).takeWhile isAsciiAlphanumeric).length =
      min 6 ((run.drop k).takeWhile alphanumeric).length) := by
  have hsuffix : ∀ c ∈ (run.drop k).takeWhile alphanumeric, pathClass c = true := fun c hc =>
    pathClass_of_alphanumeric (List.mem_takeWhile_imp hc)
  rw [length_takeWhile_take, utf8_drop_run hrun, takeWhile_utf8 ascii_alphanumeric,
    asciiClass_alphanumeric, length_utf8_run hsuffix]
  rfl

theorem isSuffixDot_utf8 (hrun : ∀ c ∈ run, pathClass c = true) (k : Nat) :
    isSuffixDot (utf8 run) k = (run[k]?.any (· == '.') && run[k + 1]?.any alphanumeric) := by
  have hdot : ((utf8 run)[k]? == some dot) = (utf8 run)[k]?.any (· == dot) := by
    cases (utf8 run)[k]? <;> rfl
  rw [isSuffixDot, hdot, getElem?_utf8_run hrun, getElem?_utf8_run hrun, asciiClass_dot,
    asciiClass_alphanumeric]

include htext hrun hrest in
theorem firstMatch_path : firstMatch word text pathRegex pos =
    (pathEnd (utf8 run)).map fun stop => ⟨pos + stop, none⟩ := by
  have hlength : runLength pathClass text pos = run.length := by
    rw [runLength, htext, takeWhile_append_stop hrun hrest]
  have hdot (c : Char) (hc : (c == '.') = true) : pathClass c = true := by simp [pathClass, hc]
  -- A dot that can be taken, and where the match ends that takes it.
  let good (k : Nat) : Bool :=
    text[pos + k]?.any (· == '.') && text[pos + k + 1]?.any alphanumeric
  let stop (k : Nat) : Nat := k + 1 + min 6 (runLength alphanumeric text (pos + k + 1))
  have hsearch : firstMatch word text pathRegex pos =
      ((List.range' 1 run.length).reverse.find? good).map fun k => ⟨pos + stop k, none⟩ := by
    rw [firstMatch, pathRegex, head?_outcomes_seq, outcomes_loop_cls, hlength, List.findSome?_map]
    refine findSome?_eq_map_find? fun k _ => ?_
    rw [Function.comp_apply, head?_suffix]
    refine if_congr Iff.rfl ?_ rfl
    rw [advance_advance]
    simp [Mark.advance, stop, Nat.add_assoc]
  rw [hsearch, pathEnd, length_utf8_run hrun]
  cases hcount : run.length with
  | zero => rfl
  | succ last =>
    have hbehind := not_path_behind htext hrest hdot
    rw [hcount, Nat.add_comm last 1] at hbehind
    have hnone : good (1 + last) = false := by
      simp only [good, hbehind, Bool.false_and]
    rw [List.range'_concat, List.reverse_append, List.reverse_singleton, List.singleton_append,
      Nat.one_mul, List.find?_cons, hnone, Nat.add_sub_cancel]
    -- A dot inside the run has what follows it in the run, or nothing that can follow it.
    have hinside (k : Nat) (hk : k ∈ (List.range' 1 last).reverse) :
        k < run.length ∧ text[pos + k + 1]?.any alphanumeric = run[k + 1]?.any alphanumeric := by
      have hmem := List.mem_range'_1.mp (List.mem_reverse.mp hk)
      refine ⟨by omega, ?_⟩
      obtain hless | hend := Nat.lt_or_eq_of_le (show k + 1 ≤ run.length by omega)
      · rw [Nat.add_assoc, getElem?_run htext hless]
      · have halphanumeric := not_path_behind htext hrest @pathClass_of_alphanumeric
        rw [Nat.add_assoc, hend, halphanumeric, List.getElem?_eq_none (Nat.le_refl _)]
        rfl
    have hgood (k : Nat) (hk : k ∈ (List.range' 1 last).reverse) :
        good k = isSuffixDot (utf8 run) k := by
      obtain ⟨hless, hnext⟩ := hinside k hk
      rw [isSuffixDot_utf8 hrun, ← hnext, ← getElem?_run htext hless]
    dsimp only
    rw [List.find?_congr hgood]
    cases hfind : (List.range' 1 last).reverse.find? (isSuffixDot (utf8 run)) with
    | none => rfl
    | some k =>
      obtain ⟨hless, -⟩ := hinside k (List.mem_of_find?_eq_some hfind)
      simp only [Option.map_some, stop, length_suffix hrun, Nat.add_assoc]
      rw [runLength_inside htext hrest @pathClass_of_alphanumeric hless]

include htext hrun hrest in
theorem firstMatch_path_inside (hnone : pathEnd (utf8 run) = none) {k : Nat} (hk : k < run.length) :
    firstMatch word text pathRegex (pos + k) = none := by
  have hdrop : text.drop (pos + k) = run.drop k ++ rest := by
    rw [← List.drop_drop, htext, List.drop_append_of_le_length hk.le]
  have hrun' : ∀ c ∈ run.drop k, pathClass c = true := fun c hc => hrun c (List.mem_of_mem_drop hc)
  rw [firstMatch_path hdrop hrun' hrest, Option.map_eq_none_iff]
  rw [pathEnd, Option.map_eq_none_iff, List.find?_eq_none, length_utf8_run hrun] at hnone
  rw [pathEnd, Option.map_eq_none_iff, List.find?_eq_none, length_utf8_run hrun', List.length_drop]
  intro dot hdot
  have hmem := List.mem_range'_1.mp (List.mem_reverse.mp hdot)
  have hnot := hnone (k + dot) (List.mem_reverse.mpr (List.mem_range'_1.mpr (by omega)))
  rw [isSuffixDot_utf8 hrun] at hnot
  rwa [isSuffixDot_utf8 hrun', List.getElem?_drop, List.getElem?_drop, ← Nat.add_assoc]

theorem pathEnd_le {bytes : Bytes} {stop : Nat} (h : pathEnd bytes = some stop) :
    0 < stop ∧ stop ≤ bytes.length := by
  obtain ⟨k, hk, rfl⟩ := Option.map_eq_some_iff.mp h
  have hmem := List.mem_range'_1.mp (List.mem_reverse.mp (List.mem_of_find?_eq_some hk))
  have hsuffix := (List.takeWhile_sublist isAsciiAlphanumeric
    (l := (bytes.drop (k + 1)).take maxSuffix)).length_le
  rw [List.length_take, List.length_drop] at hsuffix
  omega

end Paths

/-- Bytes outside the class are passed over one by one. -/
theorem pathTokensFrom_skip {prompt : Text} {part behind : Bytes} {pos : Nat} (fuel : Nat)
    (hpart : (utf8 prompt).drop pos = part ++ behind)
    (hclass : ∀ byte ∈ part, isPathByte byte = false) :
    pathTokensFrom prompt (fuel + part.length) pos =
      pathTokensFrom prompt fuel (pos + part.length) := by
  induction part generalizing pos with
  | nil => rfl
  | cons byte part ih =>
    obtain ⟨hbyte, hmore⟩ := List.forall_mem_cons.mp hclass
    have hpos : pos < (utf8 prompt).length := by
      have hlength := congrArg List.length hpart
      rw [List.length_drop, List.cons_append, List.length_cons] at hlength
      omega
    have hrun : ((utf8 prompt).drop pos).takeWhile isPathByte = [] := by
      rw [hpart, List.cons_append, List.takeWhile_cons, hbyte]
      rfl
    have hnext : (utf8 prompt).drop (pos + 1) = part ++ behind := by
      rw [← List.drop_drop, hpart]
      rfl
    rw [List.length_cons, ← Nat.add_assoc, pathTokensFrom, if_pos hpos, hrun]
    refine (ih hnext hmore).trans ?_
    rw [Nat.add_assoc, Nat.add_comm 1]

section Scanner

variable {before behind : Text}

/-- From a place between two characters on, the scanner finds what the search finds. -/
def Agrees (prompt before : Text) (fuel : Nat) : Prop :=
  pathTokensFrom prompt fuel (utf8 before).length =
    some (findFrom isWord prompt pathRegex before.length)

theorem agrees_end (before : Text) (fuel : Nat) : Agrees before before (fuel + 1) := by
  rw [Agrees, pathTokensFrom, if_neg (Nat.lt_irrefl _), findFrom_end _ (Nat.le_refl _)]

/-- A character outside the class is passed over. -/
theorem agrees_off {c : Char} {tail : Text} {fuel : Nat} (hc : pathClass c = false)
    (hnext : Agrees (before ++ c :: tail) (before ++ [c]) fuel) :
    Agrees (before ++ c :: tail) before (fuel + (String.utf8EncodeChar c).length) := by
  have hbytes : (utf8 (before ++ c :: tail)).drop (utf8 before).length =
      String.utf8EncodeChar c ++ utf8 tail := by
    rw [utf8_append, List.drop_left, utf8_cons]
  have hdrop : (before ++ c :: tail).drop before.length = [] ++ c :: tail := List.drop_left
  have hstop : ∀ d ∈ (c :: tail).head?, pathClass d = false := by
    rintro _ ⟨rfl⟩
    exact hc
  have hmatch := @firstMatch_path isWord _ [] _ _ hdrop (List.forall_mem_nil _) hstop
  have hoff : asciiClass isPathByte c = false := by rwa [asciiClass_path]
  unfold Agrees at hnext ⊢
  rw [pathTokensFrom_skip fuel hbytes (not_accepts_of_mem ascii_path hoff), findFrom_succ hmatch]
  rw [utf8_append, List.length_append, List.length_append] at hnext
  simpa [utf8_cons] using hnext

variable {run : Text} (hrun : ∀ c ∈ run, pathClass c = true)
  (hbehind : ∀ c ∈ behind.head?, pathClass c = false) (hne : run ≠ [])

include hrun hbehind in
theorem takeWhile_run :
    ((utf8 (before ++ (run ++ behind))).drop (utf8 before).length).takeWhile isPathByte = utf8 run := by
  rw [utf8_append, List.drop_left, takeWhile_utf8 ascii_path, asciiClass_path,
    takeWhile_append_stop hrun hbehind]

include hrun hne in
theorem length_utf8_run_pos : 0 < (utf8 run).length := by
  rw [length_utf8_run hrun]
  exact List.length_pos_of_ne_nil hne

include hrun hne in
theorem lt_length_of_run : (utf8 before).length < (utf8 (before ++ (run ++ behind))).length := by
  have hpos := length_utf8_run_pos hrun hne
  rw [utf8_append, utf8_append, List.length_append, List.length_append]
  omega

include hrun hbehind hne in
/-- A run without a match is passed over. -/
theorem agrees_none {fuel : Nat} (hend : pathEnd (utf8 run) = none)
    (hnext : Agrees (before ++ (run ++ behind)) (before ++ run) fuel) :
    Agrees (before ++ (run ++ behind)) before (fuel + 1) := by
  have hpassed := findFrom_skip fun k hk =>
    @firstMatch_path_inside isWord _ run behind before.length List.drop_left hrun hbehind hend k hk
  rw [Agrees, utf8_append, List.length_append, List.length_append] at hnext
  rw [Agrees, pathTokensFrom, if_pos (lt_length_of_run hrun hne), takeWhile_run hrun hbehind,
    if_neg (Nat.ne_of_gt (length_utf8_run_pos hrun hne)), hend, hpassed]
  exact hnext

include hrun hbehind hne in
/-- A match is taken, and the search goes on behind it. -/
theorem agrees_some {fuel stop : Nat} (hend : pathEnd (utf8 run) = some stop)
    (hnext : Agrees (before ++ (run ++ behind)) (before ++ run.take stop) fuel) :
    Agrees (before ++ (run ++ behind)) before (fuel + 1) := by
  obtain ⟨hstop, hle⟩ := pathEnd_le hend
  rw [length_utf8_run hrun] at hle
  have hpiece : (run.take stop).length = stop := List.length_take_of_le hle
  have hpieceBytes : (utf8 (run.take stop)).length = stop :=
    (length_utf8_run fun c hmem => hrun c (List.mem_of_mem_take hmem)).trans hpiece
  have hpieces : run ++ behind = run.take stop ++ (run.drop stop ++ behind) := by
    rw [← List.append_assoc, List.take_append_drop]
  have hslice := strBetween_append before (run.take stop) (run.drop stop ++ behind)
  rw [hpieceBytes, ← hpieces] at hslice
  have hdrop : (before ++ (run ++ behind)).drop before.length = run ++ behind := List.drop_left
  have hmatch := @firstMatch_path isWord _ run behind _ hdrop hrun hbehind
  rw [hend] at hmatch
  have hlong := List.length_pos_of_ne_nil hne
  have hinside : before.length < (before ++ (run ++ behind)).length := by
    rw [List.length_append, List.length_append]
    omega
  have hfound : Regex.found (before ++ (run ++ behind)) before.length ⟨before.length + stop, none⟩ =
      run.take stop := by
    rw [Regex.found, slice, Nat.add_sub_cancel_left, hdrop, List.take_append_of_le_length hle]
  rw [Agrees, utf8_append, List.length_append, List.length_append, hpiece, hpieceBytes] at hnext
  rw [Agrees, pathTokensFrom, if_pos (lt_length_of_run hrun hne), takeWhile_run hrun hbehind,
    if_neg (Nat.ne_of_gt (length_utf8_run_pos hrun hne)), hend,
    findFrom_match hinside hmatch (Nat.lt_add_of_pos_right hstop), hfound]
  dsimp only
  rw [hslice, hnext]
  rfl

theorem agrees (before rest : Text) (fuel : Nat) (hfuel : (utf8 rest).length < fuel) :
    Agrees (before ++ rest) before fuel := by
  induction hsize : rest.length using Nat.strong_induction_on generalizing before rest fuel with
  | _ size ih =>
    cases rest with
    | nil =>
      obtain ⟨fuel, rfl⟩ := Nat.exists_eq_succ_of_ne_zero (Nat.ne_zero_of_lt hfuel)
      rw [List.append_nil]
      exact agrees_end before fuel
    | cons c tail =>
      by_cases hc : pathClass c = true
      · obtain ⟨run, behind, hsplit, htake, hrun, hbehind⟩ := exists_run pathClass (c :: tail)
        have hne : run ≠ [] := by
          rw [← htake, List.takeWhile_cons, if_pos hc]
          exact List.cons_ne_nil _ _
        have hlong := List.length_pos_of_ne_nil hne
        rw [hsplit, utf8_append, List.length_append, length_utf8_run hrun] at hfuel
        rw [hsplit, List.length_append] at hsize
        rw [hsplit]
        obtain ⟨fuel, rfl⟩ := Nat.exists_eq_succ_of_ne_zero (Nat.ne_zero_of_lt hfuel)
        cases hend : pathEnd (utf8 run) with
        | none =>
          refine agrees_none hrun hbehind hne hend ?_
          rw [← List.append_assoc]
          exact ih behind.length (by omega) _ _ _ (by omega) rfl
        | some stop =>
          obtain ⟨hstop, hle⟩ := pathEnd_le hend
          rw [length_utf8_run hrun] at hle
          have hdropped : ∀ c ∈ run.drop stop, pathClass c = true := fun c hmem =>
            hrun c (List.mem_of_mem_drop hmem)
          refine agrees_some hrun hbehind hne hend ?_
          have hnext := ih (run.drop stop ++ behind).length
            (by rw [List.length_append, List.length_drop]; omega) (before ++ run.take stop)
            (run.drop stop ++ behind) fuel
            (by
              rw [utf8_append, List.length_append, length_utf8_run hdropped, List.length_drop]
              omega) rfl
          rwa [List.append_assoc, ← List.append_assoc (run.take stop), List.take_append_drop] at hnext
      · rw [utf8_cons, List.length_append] at hfuel
        obtain ⟨more, rfl⟩ : ∃ more, fuel = more + (String.utf8EncodeChar c).length :=
          ⟨fuel - (String.utf8EncodeChar c).length, by omega⟩
        refine agrees_off (Bool.eq_false_of_not_eq_true hc) ?_
        have hnext := ih tail.length (by rw [← hsize]; exact Nat.lt_succ_self _) (before ++ [c]) tail
          more (by omega) rfl
        rwa [List.append_assoc] at hnext

end Scanner

theorem pathTokens_eq_findall (prompt : Text) :
    pathTokens prompt = some (findall isWord prompt pathRegex) :=
  agrees [] prompt _ (Nat.lt_succ_self _)

end Agentless.Hook.Seeds
