import Agentless.Hook.SeedPaths

/-!
# The names are the matches of their expressions

A match between two boundaries is a whole run of its class, so a scanner tests a run once. Camel case
and snake case spell one form of word: a run cut before every character of a class.
-/

namespace Agentless.Hook.Seeds

open Regex Text

/-! ## The expressions -/

/-- `[a-z0-9]` -/
def lowerOrDigit (c : Char) : Bool := inRange 'a' 'z' c || inRange '0' '9' c

/-- `[A-Z][a-z0-9]+(?:[A-Z][a-z0-9]*)+` -/
def camelCore : Regex Char :=
  .seq (.cls (inRange 'A' 'Z')) (.seq (.loop 1 none (.cls lowerOrDigit))
    (.loop 1 none (.seq (.cls (inRange 'A' 'Z')) (.loop 0 none (.cls lowerOrDigit)))))

/-- `[a-z][a-z0-9]*(?:_[a-z0-9]+)+` -/
def snakeCore : Regex Char :=
  .seq (.cls (inRange 'a' 'z')) (.seq (.loop 0 none (.cls lowerOrDigit))
    (.loop 1 none (.seq (.cls (· == '_')) (.loop 1 none (.cls lowerOrDigit)))))

theorem asciiClass_uppercase : asciiClass isAsciiUppercase = inRange 'A' 'Z' :=
  asciiClass_eq (by decide) fun c hc => inRange_high (by decide) hc

theorem asciiClass_lowercase : asciiClass isAsciiLowercase = inRange 'a' 'z' :=
  asciiClass_eq (by decide) fun c hc => inRange_high (by decide) hc

theorem ascii_snake : ∀ byte, snakeByte byte = true → byte < 0x80 :=
  ascii_of_high (by decide)

/-! ## Whole words -/

/-- The class and the shape of a scanner of whole words, and the expression they stand for. -/
structure Scans (accepts : UInt8 → Bool) (shape : Bytes → Bool) (core : Regex Char) : Prop where
  ascii : ∀ byte, accepts byte = true → byte < 0x80
  word : ∀ c, asciiClass accepts c = true → isWord c = true
  plain : Plain core
  spelled : ∀ piece ∈ language core, piece ≠ [] ∧ ∀ c ∈ piece, asciiClass accepts c = true
  shape : ∀ run, run ≠ [] → (∀ c ∈ run, asciiClass accepts c = true) →
    (shape (utf8 run) = true ↔ run ∈ language core)

theorem accepts_iff_asciiClass {accepts : UInt8 → Bool}
    (hascii : ∀ byte, accepts byte = true → byte < 0x80) (c : Char) :
    (c.toNat < 256 && accepts (UInt8.ofNat c.toNat)) = asciiClass accepts c := by
  rw [Bool.eq_iff_iff, asciiClass_iff, Bool.and_eq_true, decide_eq_true_eq]
  refine and_congr_left fun haccepts => ⟨fun hlt => ?_, fun hlt => hlt.trans (by decide)⟩
  have hbyte := UInt8.lt_iff_toNat_lt.mp (hascii _ haccepts)
  rw [UInt8.toNat_ofNat', Nat.mod_eq_of_lt hlt] at hbyte
  exact hbyte

theorem last_byte {accepts : UInt8 → Bool} {before run behind : Text} (hne : run ≠ [])
    (hrun : ∀ c ∈ run, asciiClass accepts c = true) :
    ∃ byte, (utf8 ((before ++ run) ++ behind))[(utf8 (before ++ run)).length - 1]? = some byte ∧
      (before ++ run).getLast? = some (Char.ofNat byte.toNat) := by
  obtain rfl | ⟨front, last, rfl⟩ := List.eq_nil_or_concat run
  · exact absurd rfl hne
  · rw [List.concat_eq_append] at hrun ⊢
    obtain ⟨hencode, haccepts⟩ := utf8EncodeChar_of_class (hrun last (by simp))
    have hlast : utf8 [last] = [UInt8.ofNat last.toNat] := by rw [utf8_cons, hencode]; rfl
    refine ⟨UInt8.ofNat last.toNat, ?_, ?_⟩
    · rw [← List.append_assoc before, utf8_append, utf8_append (before ++ front), hlast,
        List.length_append, List.length_singleton, Nat.add_sub_cancel, List.append_assoc,
        List.getElem?_append_right (Nat.le_refl _), Nat.sub_self]
      rfl
    · have hascii := (asciiClass_iff.mp (hrun last (by simp))).1
      rw [← List.append_assoc, List.getLast?_concat, UInt8.toNat_ofNat',
        Nat.mod_eq_of_lt (by omega), Char.ofNat_toNat]

section Names

variable {accepts : UInt8 → Bool} {shape : Bytes → Bool} {core : Regex Char}

/-- From a place between two characters on, the scanner finds what the search finds. -/
def Scanned (accepts : UInt8 → Bool) (shape : Bytes → Bool) (core : Regex Char)
    (prompt before : Text) (fuel : Nat) : Prop :=
  wholeWordsFrom accepts shape prompt fuel (utf8 before).length before.getLast? =
    some (findFrom isWord prompt (wholeWord core) before.length)

theorem scanned_end (before : Text) (fuel : Nat) :
    Scanned accepts shape core before before (fuel + 1) := by
  have hfrom := strFrom_append before []
  rw [List.append_nil] at hfrom
  rw [Scanned, wholeWordsFrom, hfrom, findFrom_end _ (Nat.le_refl _)]
  rfl

theorem opens_append (before rest : Text) :
    opens isWord (before ++ rest) before.length ↔ before.getLast?.any isWord = false := by
  rw [opens, List.take_left]

variable (h : Scans accepts shape core) {before : Text} {fuel : Nat}

include h in
/-- A character at which no word of the class can start is passed over. -/
theorem scanned_off {c : Char} {tail : Text}
    (hoff : ¬ (before.getLast?.any isWord = false ∧ asciiClass accepts c = true))
    (hnext : Scanned accepts shape core (before ++ c :: tail) (before ++ [c]) fuel) :
    Scanned accepts shape core (before ++ c :: tail) before (fuel + 1) := by
  have hmatch : firstMatch isWord (before ++ c :: tail) (wholeWord core) before.length = none := by
    refine firstMatch_wholeWord_none h.plain h.word h.spelled fun hopen hmem => ?_
    rw [List.drop_left, List.takeWhile_cons] at hmem
    have hc : asciiClass accepts c = true := by
      by_contra hc
      rw [if_neg hc] at hmem
      exact (h.spelled [] hmem).1 rfl
    exact absurd ⟨(opens_append before _).mp hopen, hc⟩ hoff
  have hpass : (!(!before.getLast?.any isWord && asciiClass accepts c)) = true := by
    rw [Bool.not_eq_true', Bool.and_eq_false_iff, Bool.not_eq_false']
    by_cases hc : asciiClass accepts c = true
    · exact .inl (Bool.eq_true_of_not_eq_false fun hopen => hoff ⟨hopen, hc⟩)
    · exact .inr (Bool.eq_false_of_not_eq_true hc)
  rw [Scanned, utf8_append, List.length_append, List.length_append, List.getLast?_concat] at hnext
  rw [Scanned, wholeWordsFrom, strFrom_append, findFrom_succ hmatch]
  simp only [Option.bind_eq_bind, Option.bind_some, accepts_iff_asciiClass h.ascii, hpass, if_true]
  simpa [utf8_cons] using hnext

section Run

variable {run behind : Text} (hrun : ∀ c ∈ run, asciiClass accepts c = true)
  (hbehind : ∀ c ∈ behind.head?, asciiClass accepts c = false) (hne : run ≠ [])

include hrun hbehind in
theorem takeWhile_class_run :
    ((before ++ (run ++ behind)).drop before.length).takeWhile (asciiClass accepts) = run := by
  rw [List.drop_left, takeWhile_append_stop hrun hbehind]

include hrun hbehind in
theorem getElem?_behind :
    (before ++ (run ++ behind))[before.length +
      runLength (asciiClass accepts) (before ++ (run ++ behind)) before.length]? = behind.head? := by
  rw [runLength, takeWhile_class_run hrun hbehind, ← List.append_assoc, ← List.length_append,
    List.getElem?_append_right (Nat.le_refl _), Nat.sub_self, ← List.head?_eq_getElem?]

include h hrun in
theorem firstMatch_inside_run {k : Nat} (hpos : 0 < k) (hk : k < run.length) :
    firstMatch isWord (before ++ (run ++ behind)) (wholeWord core) (before.length + k) = none := by
  refine firstMatch_wholeWord_none h.plain h.word h.spelled fun hopen _ => ?_
  have hne : run ≠ [] := List.ne_nil_of_length_pos (Nat.zero_lt_of_lt hk)
  have hpiece : run.take k ≠ [] := by
    rw [Ne, List.take_eq_nil_iff]
    exact fun hnil => hnil.elim (Nat.ne_of_gt hpos) hne
  have hword : (before ++ run.take k).getLast?.any isWord = true := any_getLast?_append hpiece
    fun c hmem => h.word c (hrun c (List.mem_of_mem_take hmem))
  rw [opens, List.take_length_add_append, List.take_append_of_le_length hk.le, hword] at hopen
  cases hopen

include h hrun hbehind hne in
/-- A run that no word precedes is one match or none. -/
theorem findFrom_run (hopen : before.getLast?.any isWord = false) :
    findFrom isWord (before ++ (run ++ behind)) (wholeWord core) before.length =
      (if !behind.head?.any isWord && shape (utf8 run) then [run] else []) ++
        findFrom isWord (before ++ (run ++ behind)) (wholeWord core) (before.length + run.length) := by
  have hlong := List.length_pos_of_ne_nil hne
  have hhere := @takeWhile_class_run accepts before run behind hrun hbehind
  have hat := @getElem?_behind accepts before run behind hrun hbehind
  have hshape := h.shape run hne hrun
  split_ifs with hfound
  · rw [Bool.and_eq_true, Bool.not_eq_true', hshape, ← hat] at hfound
    have hmatch := firstMatch_wholeWord h.plain h.word h.spelled ((opens_append _ _).mpr hopen)
      (hhere.symm ▸ hfound.2) hfound.1
    rw [runLength, hhere] at hmatch
    have hinside : before.length < (before ++ (run ++ behind)).length := by
      rw [List.length_append, List.length_append]
      omega
    have hpiece : Regex.found (before ++ (run ++ behind)) before.length
        ⟨before.length + run.length, none⟩ = run := by
      rw [Regex.found]
      dsimp only
      rw [slice, Nat.add_sub_cancel_left, List.drop_left, List.take_left]
    rw [findFrom_match hinside hmatch (Nat.lt_add_of_pos_right hlong), hpiece]
    rfl
  · refine findFrom_skip fun k hk => ?_
    rcases Nat.eq_zero_or_pos k with rfl | hpos
    · refine firstMatch_wholeWord_none h.plain h.word h.spelled fun _ hmem => ?_
      rw [Nat.add_zero, hhere] at hmem
      rw [Nat.add_zero, hat]
      by_contra hclose
      exact hfound (by simp [hshape.mpr hmem, Bool.eq_false_of_not_eq_true hclose])
    · exact firstMatch_inside_run h hrun hpos hk

include h hrun hbehind hne in
theorem scanned_run (hopen : before.getLast?.any isWord = false)
    (hnext : Scanned accepts shape core (before ++ (run ++ behind)) (before ++ run) fuel) :
    Scanned accepts shape core (before ++ (run ++ behind)) before (fuel + 1) := by
  obtain ⟨c, tail, rfl⟩ := List.exists_cons_of_ne_nil hne
  have hc := (List.forall_mem_cons.mp hrun).1
  have hfrom : strFrom (before ++ (c :: tail ++ behind)) (utf8 before).length =
      some (c :: (tail ++ behind)) := strFrom_append before _
  have hbytes : ((utf8 (before ++ (c :: tail ++ behind))).drop (utf8 before).length).takeWhile accepts =
      utf8 (c :: tail) := by
    rw [utf8_append, List.drop_left, takeWhile_utf8 h.ascii, takeWhile_append_stop hrun hbehind]
  have hstop : (utf8 before).length + (utf8 (c :: tail)).length =
      (utf8 (before ++ c :: tail)).length := by
    rw [utf8_append, List.length_append]
  have hafter : strFrom (before ++ (c :: tail ++ behind)) (utf8 (before ++ c :: tail)).length =
      some behind := by
    rw [← List.append_assoc, strFrom_append]
  have hslice : strBetween (before ++ (c :: tail ++ behind)) (utf8 before).length
      (utf8 (before ++ c :: tail)).length = some (c :: tail) := by
    rw [← hstop, strBetween_append]
  obtain ⟨byte, hlast, hbyte⟩ := @last_byte accepts before (c :: tail) behind hne hrun
  rw [List.append_assoc] at hlast
  rw [Scanned, hbyte, List.length_append] at hnext
  rw [Scanned, wholeWordsFrom, hfrom, findFrom_run h hrun hbehind hne hopen]
  simp only [Option.bind_eq_bind, Option.bind_some, accepts_iff_asciiClass h.ascii, hopen, hc,
    Bool.not_false, Bool.and_self, Bool.not_true, Bool.false_eq_true, if_false, hbytes, hstop, hafter,
    hlast, hnext]
  split_ifs
  · rw [hslice]
    rfl
  · rfl

end Run

include h in
theorem scanned (before rest : Text) (fuel : Nat) (hfuel : (utf8 rest).length < fuel) :
    Scanned accepts shape core (before ++ rest) before fuel := by
  induction hsize : rest.length using Nat.strong_induction_on generalizing before rest fuel with
  | _ size ih =>
    obtain ⟨fuel, rfl⟩ := Nat.exists_eq_succ_of_ne_zero (Nat.ne_zero_of_lt hfuel)
    cases rest with
    | nil =>
      rw [List.append_nil]
      exact scanned_end before fuel
    | cons c tail =>
      by_cases hstart : before.getLast?.any isWord = false ∧ asciiClass accepts c = true
      · obtain ⟨run, behind, hsplit, htake, hrun, hbehind⟩ := exists_run (asciiClass accepts) (c :: tail)
        have hne : run ≠ [] := by
          rw [← htake, List.takeWhile_cons, if_pos hstart.2]
          exact List.cons_ne_nil _ _
        have hlong := List.length_pos_of_ne_nil hne
        have hbytes : (utf8 run).length = run.length := by rw [utf8_of_class hrun, List.length_map]
        rw [hsplit, utf8_append, List.length_append, hbytes] at hfuel
        rw [hsplit, List.length_append] at hsize
        rw [hsplit]
        refine scanned_run h hrun hbehind hne hstart.1 ?_
        rw [← List.append_assoc]
        exact ih behind.length (by omega) _ _ _ (by omega) rfl
      · rw [utf8_cons, List.length_append] at hfuel
        have hpos := length_utf8EncodeChar_pos c
        refine scanned_off h hstart ?_
        have hnext := ih tail.length (by rw [← hsize]; exact Nat.lt_succ_self _) (before ++ [c]) tail
          fuel (by omega) rfl
        rwa [List.append_assoc] at hnext

include h in
theorem wholeWords_eq_findall (prompt : Text) :
    wholeWords accepts shape prompt = some (findall isWord prompt (wholeWord core)) :=
  scanned h [] prompt _ (Nat.lt_succ_self _)

end Names

/-! ## Names in camel case and in snake case -/

/-- A character of one class, a run, and one piece after the other, each with a character of another
class in front of a run. -/
def pieced (first mark : Char → Bool) (lead least : Nat) : Regex Char :=
  .seq (.cls first) (.seq (.loop lead none (.cls lowerOrDigit))
    (.loop 1 none (.seq (.cls mark) (.loop least none (.cls lowerOrDigit)))))

def IsPiece (mark : Char → Bool) (least : Nat) (piece : Text) : Prop :=
  ∃ c tail, piece = c :: tail ∧ mark c = true ∧ least ≤ tail.length ∧
    ∀ d ∈ tail, lowerOrDigit d = true

section Pieces

variable {first mark : Char → Bool} {lead least : Nat}

theorem mem_piece {piece : Text} :
    piece ∈ language (.seq (.cls mark) (.loop least none (.cls lowerOrDigit))) ↔
      IsPiece mark least piece := by
  rw [mem_language_cls_seq]
  simp only [mem_language_loop_cls, IsPiece]

theorem mem_pieced {run : Text} : run ∈ language (pieced first mark lead least) ↔
    ∃ (c : Char) (front : Text) (pieces : List Text), run = c :: (front ++ pieces.flatten) ∧ first c = true ∧
      (lead ≤ front.length ∧ ∀ d ∈ front, lowerOrDigit d = true) ∧
      1 ≤ pieces.length ∧ ∀ piece ∈ pieces, IsPiece mark least piece := by
  rw [pieced, mem_language_cls_seq]
  constructor
  · rintro ⟨c, rest, rfl, hc, hrest⟩
    obtain ⟨front, hfront, last, hlast, rfl⟩ := Language.mem_mul.mp hrest
    obtain ⟨pieces, rfl, hpieces, hall⟩ := mem_language_loop.mp hlast
    exact ⟨c, front, pieces, rfl, hc, mem_language_loop_cls.mp hfront, hpieces,
      fun piece hpiece => mem_piece.mp (hall piece hpiece)⟩
  · rintro ⟨c, front, pieces, rfl, hc, hfront, hpieces, hall⟩
    refine ⟨c, _, rfl, hc, Language.append_mem_mul (mem_language_loop_cls.mpr hfront) ?_⟩
    exact mem_language_loop.mpr ⟨pieces, rfl, hpieces, fun piece hpiece => mem_piece.mpr (hall piece hpiece)⟩

theorem plain_pieced : Plain (pieced first mark lead least) := by
  have hcls (accepts : Char → Bool) : [] ∉ language (.cls accepts) := fun ⟨_, _, hnil⟩ =>
    List.cons_ne_nil _ _ hnil.symm
  refine ⟨trivial, ⟨trivial, hcls _⟩, ⟨trivial, trivial, hcls _⟩, fun hnil => ?_⟩
  obtain ⟨c, tail, hcons, -⟩ := mem_piece.mp hnil
  cases hcons

theorem spelled_pieced {cls : Char → Bool} (hfirst : ∀ c, first c = true → cls c = true)
    (hmark : ∀ c, mark c = true → cls c = true) (hlower : ∀ c, lowerOrDigit c = true → cls c = true)
    {run : Text} (hrun : run ∈ language (pieced first mark lead least)) :
    run ≠ [] ∧ ∀ c ∈ run, cls c = true := by
  obtain ⟨c, front, pieces, rfl, hc, ⟨-, hfront⟩, -, hall⟩ := mem_pieced.mp hrun
  refine ⟨List.cons_ne_nil _ _, List.forall_mem_cons.mpr ⟨hfirst c hc, fun d hd => ?_⟩⟩
  obtain hd | hd := List.mem_append.mp hd
  · exact hlower d (hfront d hd)
  · obtain ⟨piece, hpiece, hd⟩ := List.mem_flatten.mp hd
    obtain ⟨e, tail, rfl, he, -, htail⟩ := hall piece hpiece
    obtain rfl | hd := List.mem_cons.mp hd
    · exact hmark d he
    · exact hlower d (htail d hd)

/-- A text is cut before every character of a class. -/
theorem exists_cuts (mark : Char → Bool) (items : Text) :
    ∃ (front : Text) (pieces : List Text), items = front ++ pieces.flatten ∧
      (∀ c ∈ front, mark c = false) ∧
      ∀ piece ∈ pieces, ∃ c tail, piece = c :: tail ∧ mark c = true ∧ ∀ d ∈ tail, mark d = false := by
  induction items with
  | nil => exact ⟨[], [], rfl, List.forall_mem_nil _, List.forall_mem_nil _⟩
  | cons c items ih =>
    obtain ⟨front, pieces, rfl, hfront, hpieces⟩ := ih
    cases hc : mark c with
    | true =>
      exact ⟨[], (c :: front) :: pieces, rfl, List.forall_mem_nil _,
        List.forall_mem_cons.mpr ⟨⟨c, front, rfl, hc, hfront⟩, hpieces⟩⟩
    | false => exact ⟨c :: front, pieces, rfl, List.forall_mem_cons.mpr ⟨hc, hfront⟩, hpieces⟩

end Pieces

theorem lowerOrDigit_iff {c : Char} : lowerOrDigit c = true ↔
    0x61 ≤ c.toNat ∧ c.toNat ≤ 0x7a ∨ 0x30 ≤ c.toNat ∧ c.toNat ≤ 0x39 := by
  simp only [lowerOrDigit, Bool.or_eq_true, inRange_iff]
  rfl

theorem upper_iff {c : Char} : inRange 'A' 'Z' c = true ↔ 0x41 ≤ c.toNat ∧ c.toNat ≤ 0x5a :=
  inRange_iff

/-- An alphanumeric character is an uppercase letter or in the class of the runs, and not both. -/
theorem lowerOrDigit_eq_not_upper {c : Char} (h : alphanumeric c = true) :
    lowerOrDigit c = !inRange 'A' 'Z' c := by
  have hcases : inRange 'A' 'Z' c = true ∨ lowerOrDigit c = true := by
    simpa [alphanumeric, lowerOrDigit, or_assoc] using h
  rw [Bool.eq_iff_iff, Bool.not_eq_true', Bool.eq_false_iff]
  rw [upper_iff, lowerOrDigit_iff] at hcases
  rw [ne_eq, upper_iff, lowerOrDigit_iff]
  omega

theorem accepts_ofNat {accepts : UInt8 → Bool} {cls : Char → Bool} (h : asciiClass accepts = cls)
    {c : Char} (hc : c.toNat < 0x80) : accepts (UInt8.ofNat c.toNat) = cls c := by
  rw [← h, asciiClass, decide_eq_true hc, Bool.true_and]

theorem ascii_of_class {accepts : UInt8 → Bool} {run : Text}
    (h : ∀ c ∈ run, asciiClass accepts c = true) : ∀ c ∈ run, c.toNat < 0x80 :=
  fun c hc => (asciiClass_iff.mp (h c hc)).1

theorem isWord_of_asciiClass {accepts : UInt8 → Bool}
    (h : ∀ code : Fin 0x80, asciiClass accepts (Char.ofNat code) = true → isWord (Char.ofNat code) = true)
    (c : Char) (hc : asciiClass accepts c = true) : isWord c = true := by
  have hlow := (asciiClass_iff.mp hc).1
  have hword := h ⟨c.toNat, hlow⟩
  rw [Char.ofNat_toNat] at hword
  exact hword hc

theorem isCamel_utf8 {a b : Char} {rest : Text} (h : ∀ c ∈ a :: b :: rest, c.toNat < 0x80) :
    isCamel (utf8 (a :: b :: rest)) =
      (inRange 'A' 'Z' a && !inRange 'A' 'Z' b && rest.any (inRange 'A' 'Z')) := by
  obtain ⟨ha, htail⟩ := List.forall_mem_cons.mp h
  obtain ⟨hb, hrest⟩ := List.forall_mem_cons.mp htail
  have hany : (rest.any fun c => isAsciiUppercase (UInt8.ofNat c.toNat)) =
      rest.any (inRange 'A' 'Z') := by
    rw [Bool.eq_iff_iff, List.any_eq_true, List.any_eq_true]
    exact exists_congr fun c => and_congr_right fun hc => by
      rw [accepts_ofNat asciiClass_uppercase (hrest c hc)]
  rw [utf8_ascii h, List.map_cons, List.map_cons, isCamel, List.any_map,
    accepts_ofNat asciiClass_uppercase ha, accepts_ofNat asciiClass_uppercase hb]
  exact congrArg _ hany

theorem mem_camelCore_iff {run : Text} (hrun : ∀ c ∈ run, alphanumeric c = true)
    (hascii : ∀ c ∈ run, c.toNat < 0x80) : isCamel (utf8 run) = true ↔ run ∈ language camelCore := by
  have hlower {c : Char} (hc : c ∈ run) (hnot : inRange 'A' 'Z' c = false) :
      lowerOrDigit c = true := by
    rw [lowerOrDigit_eq_not_upper (hrun c hc), hnot]
    rfl
  change _ ↔ run ∈ language (pieced (inRange 'A' 'Z') (inRange 'A' 'Z') 1 0)
  constructor
  · intro hcamel
    obtain ⟨a, b, rest, rfl⟩ : ∃ a b rest, run = a :: b :: rest := by
      rcases run with _ | ⟨a, _ | ⟨b, rest⟩⟩
      · cases hcamel
      · rw [utf8_ascii hascii] at hcamel
        cases hcamel
      · exact ⟨a, b, rest, rfl⟩
    rw [isCamel_utf8 hascii, Bool.and_eq_true, Bool.and_eq_true, Bool.not_eq_true', List.any_eq_true]
      at hcamel
    obtain ⟨⟨ha, hb⟩, upper, hupper, hisUpper⟩ := hcamel
    obtain ⟨front, pieces, hcut, hfront, hpieces⟩ := exists_cuts (inRange 'A' 'Z') (b :: rest)
    have hmem {c : Char} (hc : c ∈ front ++ pieces.flatten) : c ∈ a :: b :: rest := by
      rw [← hcut] at hc
      exact List.mem_cons_of_mem a hc
    refine mem_pieced.mpr ⟨a, front, pieces, by rw [hcut], ha, ⟨?_, ?_⟩, ?_, ?_⟩
    · -- The second character is in the run, for it starts no piece.
      by_contra hshort
      obtain rfl := List.eq_nil_of_length_eq_zero (Nat.lt_one_iff.mp (Nat.not_le.mp hshort))
      cases pieces with
      | nil => cases hcut
      | cons piece pieces =>
        obtain ⟨d, tail, rfl, hd, -⟩ := hpieces piece List.mem_cons_self
        obtain ⟨rfl, -⟩ := List.cons.inj hcut
        rw [hd] at hb
        cases hb
    · exact fun d hd => hlower (hmem (List.mem_append_left _ hd)) (hfront d hd)
    · -- The later uppercase letter is in a piece.
      by_contra hnone
      obtain rfl := List.eq_nil_of_length_eq_zero (Nat.lt_one_iff.mp (Nat.not_le.mp hnone))
      rw [List.flatten_nil, List.append_nil] at hcut
      rw [← hcut] at hfront
      rw [hfront upper (List.mem_cons_of_mem b hupper)] at hisUpper
      cases hisUpper
    · intro piece hpiece
      obtain ⟨d, tail, rfl, hd, htail⟩ := hpieces piece hpiece
      refine ⟨d, tail, rfl, hd, Nat.zero_le _, fun e he => hlower ?_ (htail e he)⟩
      exact hmem (List.mem_append_right _ (List.mem_flatten.mpr ⟨_, hpiece, List.mem_cons_of_mem d he⟩))
  · intro hmem
    obtain ⟨a, front, pieces, rfl, ha, ⟨hlong, hfront⟩, hsome, hpieces⟩ := mem_pieced.mp hmem
    obtain ⟨b, front, rfl⟩ := List.exists_cons_of_length_pos hlong
    obtain ⟨piece, pieces, rfl⟩ := List.exists_cons_of_length_pos hsome
    obtain ⟨d, tail, rfl, hd, -⟩ := hpieces piece List.mem_cons_self
    have hb : inRange 'A' 'Z' b = false := by
      have hnot := lowerOrDigit_eq_not_upper (hrun b (by simp))
      rw [hfront b List.mem_cons_self] at hnot
      exact (Bool.not_eq_true' _).mp hnot.symm
    have hany : (front ++ ((d :: tail) :: pieces).flatten).any (inRange 'A' 'Z') = true :=
      List.any_eq_true.mpr ⟨d, by simp, hd⟩
    have hcamel := @isCamel_utf8 a b (front ++ ((d :: tail) :: pieces).flatten) hascii
    rw [ha, hb, hany] at hcamel
    exact hcamel

theorem scans_camel : Scans isAsciiAlphanumeric isCamel camelCore where
  ascii := ascii_alphanumeric
  word := isWord_of_asciiClass (by decide)
  plain := plain_pieced
  spelled := by
    intro run hrun
    rw [asciiClass_alphanumeric]
    refine spelled_pieced (fun c hc => ?_) (fun c hc => ?_) (fun c hc => ?_) hrun
    · simp [alphanumeric, hc]
    · simp [alphanumeric, hc]
    · rw [lowerOrDigit, Bool.or_eq_true] at hc
      rcases hc with hc | hc <;> simp [alphanumeric, hc]
  shape := by
    intro run _ hrun
    have hascii := ascii_of_class hrun
    rw [asciiClass_alphanumeric] at hrun
    exact mem_camelCore_iff hrun hascii

/-! ## Snake case -/

theorem asciiClass_snake :
    asciiClass snakeByte = fun c => lowerOrDigit c || c == '_' :=
  asciiClass_eq (by decide) fun c hc => by
    simp [lowerOrDigit, inRange_high _ hc, beq_high _ hc]

theorem underscore_notMem_utf8 {text : Text} (h : ∀ c ∈ text, (c == '_') = false) :
    underscore ∉ utf8 text :=
  ascii_notMem_utf8 (c := '_') (by decide) fun hmem => absurd (h '_' hmem) (by decide)

/-- The parts of a text that was cut before its underscores. -/
theorem splitOn_cuts {front : Text} {tails : List Text} (hfront : ∀ c ∈ front, (c == '_') = false)
    (htails : ∀ tail ∈ tails, ∀ c ∈ tail, (c == '_') = false) :
    (utf8 (front ++ (tails.map ('_' :: ·)).flatten)).splitOn underscore =
      utf8 front :: tails.map utf8 := by
  induction tails generalizing front with
  | nil =>
    rw [List.map_nil, List.flatten_nil, List.append_nil]
    exact List.splitOn_eq_singleton (underscore_notMem_utf8 hfront)
  | cons tail tails ih =>
    obtain ⟨htail, hmore⟩ := List.forall_mem_cons.mp htails
    have hsplit : utf8 (front ++ ((tail :: tails).map ('_' :: ·)).flatten) =
        utf8 front ++ underscore :: utf8 (tail ++ (tails.map ('_' :: ·)).flatten) := by
      rw [List.map_cons, List.flatten_cons, utf8_append, List.cons_append, utf8_cons]
      rfl
    rw [hsplit, List.splitOn_append_cons_self, ih htail hmore,
      List.splitOn_eq_singleton (underscore_notMem_utf8 hfront)]
    rfl

theorem exists_tails {pieces : List Text} {good : Text → Prop}
    (h : ∀ piece ∈ pieces, ∃ c tail, piece = c :: tail ∧ (c == '_') = true ∧ good tail) :
    ∃ tails : List Text, pieces = tails.map ('_' :: ·) ∧ ∀ tail ∈ tails, good tail := by
  induction pieces with
  | nil => exact ⟨[], rfl, List.forall_mem_nil _⟩
  | cons piece pieces ih =>
    obtain ⟨hpiece, hpieces⟩ := List.forall_mem_cons.mp h
    obtain ⟨c, tail, rfl, hc, htail⟩ := hpiece
    obtain ⟨tails, rfl, htails⟩ := ih hpieces
    obtain rfl := beq_iff_eq.mp hc
    exact ⟨tail :: tails, rfl, List.forall_mem_cons.mpr ⟨htail, htails⟩⟩

theorem isEmpty_utf8 (text : Text) : (utf8 text).isEmpty = text.isEmpty := by
  cases text with
  | nil => rfl
  | cons c text =>
    obtain ⟨byte, more, hencode, -⟩ := utf8EncodeChar_starts c
    rw [utf8_cons, hencode]
    rfl

theorem mem_snakeCore_iff {run : Text} (hrun : ∀ c ∈ run, (lowerOrDigit c || c == '_') = true)
    (hascii : ∀ c ∈ run, c.toNat < 0x80) : isSnake (utf8 run) = true ↔ run ∈ language snakeCore := by
  have hlower {c : Char} (hc : c ∈ run) (hnot : (c == '_') = false) : lowerOrDigit c = true := by
    simpa [hnot] using hrun c hc
  have hhead : (utf8 run).head?.any isAsciiLowercase = run.head?.any (inRange 'a' 'z') := by
    rw [utf8_ascii hascii, List.head?_map, Option.any_map]
    cases run with
    | nil => rfl
    | cons c run => exact accepts_ofNat asciiClass_lowercase (hascii c List.mem_cons_self)
  change _ ↔ run ∈ language (pieced (inRange 'a' 'z') (· == '_') 0 1)
  rw [isSnake, hhead, Bool.and_eq_true, Bool.and_eq_true, List.contains_iff_mem]
  constructor
  · rintro ⟨⟨hfirst, hunderscore⟩, hparts⟩
    obtain ⟨front, pieces, hcut, hfront, hpieces⟩ := exists_cuts (· == '_') run
    obtain ⟨tails, rfl, htails⟩ := exists_tails hpieces
    have hmem {c : Char} {tail : Text} (htail : tail ∈ tails) (hc : c ∈ tail) : c ∈ run := by
      rw [hcut]
      exact List.mem_append_right _ (List.mem_flatten.mpr
        ⟨_, List.mem_map_of_mem htail, List.mem_cons_of_mem _ hc⟩)
    rw [hcut, splitOn_cuts hfront htails, List.all_cons, Bool.and_eq_true, List.all_map,
      List.all_eq_true, isEmpty_utf8] at hparts
    obtain ⟨hne, hall⟩ := hparts
    cases front with
    | nil => cases hne
    | cons c front =>
      rw [hcut] at hfirst
      refine mem_pieced.mpr ⟨c, front, _, hcut, hfirst, ⟨Nat.zero_le _, fun d hd => ?_⟩, ?_, ?_⟩
      · refine hlower ?_ (hfront d (List.mem_cons_of_mem c hd))
        rw [hcut]
        exact List.mem_append_left _ (List.mem_cons_of_mem c hd)
      · -- Without a piece there is no underscore.
        rw [List.length_map]
        refine List.length_pos_of_ne_nil fun hnone => ?_
        rw [hcut, hnone, List.map_nil, List.flatten_nil, List.append_nil] at hunderscore
        exact underscore_notMem_utf8 hfront hunderscore
      · intro piece hpiece
        obtain ⟨tail, htail, rfl⟩ := List.mem_map.mp hpiece
        have hsome := hall tail htail
        rw [Function.comp_apply, isEmpty_utf8, Bool.not_eq_true', List.isEmpty_eq_false_iff] at hsome
        exact ⟨'_', tail, rfl, rfl, List.length_pos_of_ne_nil hsome,
          fun d hd => hlower (hmem htail hd) (htails tail htail d hd)⟩
  · intro hmem
    obtain ⟨c, front, pieces, hcut, hc, ⟨-, hfront⟩, hsome, hpieces⟩ := mem_pieced.mp hmem
    obtain ⟨tails, rfl, htails⟩ := exists_tails hpieces
    have hnot {d : Char} (hd : lowerOrDigit d = true) : (d == '_') = false := by
      rw [beq_eq_false_iff_ne]
      rintro rfl
      cases hd
    have hfirst : ∀ d ∈ c :: front, (d == '_') = false := by
      refine List.forall_mem_cons.mpr ⟨hnot ?_, fun d hd => hnot (hfront d hd)⟩
      rw [lowerOrDigit, hc]
      rfl
    have hsplit := splitOn_cuts hfirst fun tail htail d hd => hnot ((htails tail htail).2 d hd)
    refine ⟨⟨?_, ?_⟩, ?_⟩
    · rw [hcut]
      exact hc
    · obtain ⟨tail, more, rfl⟩ := List.exists_cons_of_length_pos (by rwa [List.length_map] at hsome)
      rw [hcut]
      refine List.mem_flatMap.mpr ⟨'_', by simp, ?_⟩
      decide
    · rw [hcut, ← List.cons_append, hsplit, List.all_cons, List.all_map, Bool.and_eq_true,
        isEmpty_utf8, List.all_eq_true]
      refine ⟨rfl, fun tail htail => ?_⟩
      have hlong := (htails tail htail).1
      rw [Function.comp_apply, isEmpty_utf8, Bool.not_eq_true', List.isEmpty_eq_false_iff]
      exact List.ne_nil_of_length_pos hlong

theorem scans_snake : Scans snakeByte isSnake snakeCore where
  ascii := ascii_snake
  word := isWord_of_asciiClass (by decide)
  plain := plain_pieced
  spelled := by
    intro run hrun
    rw [asciiClass_snake]
    refine spelled_pieced (fun c hc => ?_) (fun c hc => ?_) (fun c hc => ?_) hrun
    · simp [lowerOrDigit, hc]
    · simp [hc]
    · simp [hc]
  shape := by
    intro run _ hrun
    have hascii := ascii_of_class hrun
    rw [asciiClass_snake] at hrun
    exact mem_snakeCore_iff hrun hascii

end Agentless.Hook.Seeds
