import Mathlib.Computability.Language
import Agentless.Library.Boundary

/-!
# Backtracking regular expressions

A regular expression as a backtracking matcher reads it: a match is the first outcome in the order in
which the alternatives are tried, so a repetition takes what it can and gives back one round at a
time. A search reports the leftmost matches that do not overlap.
-/

namespace Agentless

inductive Regex (χ : Type) where
  | cls (accepts : χ → Bool)
  | boundary
  | seq (first second : Regex χ)
  /-- As many rounds as possible, but at least `least` and at most `most`. -/
  | loop (least : Nat) (most : Option Nat) (body : Regex χ)
  | group (body : Regex χ)

namespace Regex

variable {χ : Type}

/-- How far a match has come, and the group it holds. -/
structure Mark where
  pos : Nat
  group : Option (Nat × Nat)
deriving DecidableEq, Repr

def Mark.advance (mark : Mark) (count : Nat) : Mark := { mark with pos := mark.pos + count }

/-- The outcomes of a repetition. Every round has to get on. -/
def rounds (size : Nat) (body : Mark → List Mark) (least : Nat) (most : Option Nat) (mark : Mark) :
    List Mark :=
  (if most = some 0 then []
    else (body mark).flatMap fun next =>
      if _h : mark.pos < next.pos ∧ mark.pos < size then
        rounds size body (least - 1) (most.map (· - 1)) next
      else []) ++
    if least = 0 then [mark] else []
termination_by size - mark.pos
decreasing_by omega

section Search

variable (word : χ → Bool) (text : List χ)

/-- A word character stands on exactly one side. -/
def atBoundary (pos : Nat) : Bool :=
  (text.take pos).getLast?.any word != text[pos]?.any word

/-- The ways to match from a position on, in the order in which they are tried. -/
def outcomes : Regex χ → Mark → List Mark
  | cls accepts, mark => if text[mark.pos]?.any accepts then [mark.advance 1] else []
  | boundary, mark => if atBoundary word text mark.pos then [mark] else []
  | seq first second, mark => (outcomes first mark).flatMap (outcomes second)
  | loop least most body, mark => rounds text.length (outcomes body) least most mark
  | group body, mark =>
    (outcomes body mark).map fun found => { found with group := some (mark.pos, found.pos) }

def firstMatch (regex : Regex χ) (pos : Nat) : Option Mark :=
  (outcomes word text regex ⟨pos, none⟩).head?

/-- The group of a match, or all of it when it has none. -/
def found (pos : Nat) (mark : Mark) : List χ :=
  match mark.group with
  | some (start, stop) => slice text start stop
  | none => slice text pos mark.pos

/-- The matches from a position on. An empty match is none. -/
def findFrom (regex : Regex χ) (pos : Nat) : List (List χ) :=
  if pos < text.length then
    match firstMatch word text regex pos with
    | some mark =>
      if pos < mark.pos then found text pos mark :: findFrom regex mark.pos
      else findFrom regex (pos + 1)
    | none => findFrom regex (pos + 1)
  else []
termination_by text.length - pos

def findall (regex : Regex χ) : List (List χ) := findFrom word text regex 0

end Search

variable {word : χ → Bool} {text : List χ}

/-! ## Searching -/

theorem findFrom_end (regex : Regex χ) {pos : Nat} (h : text.length ≤ pos) :
    findFrom word text regex pos = [] := by
  rw [findFrom, if_neg (Nat.not_lt.mpr h)]

theorem findFrom_match {regex : Regex χ} {pos : Nat} {mark : Mark} (hpos : pos < text.length)
    (hmatch : firstMatch word text regex pos = some mark) (hmark : pos < mark.pos) :
    findFrom word text regex pos = found text pos mark :: findFrom word text regex mark.pos := by
  rw [findFrom, if_pos hpos, hmatch]
  exact if_pos hmark

theorem findFrom_succ {regex : Regex χ} {pos : Nat}
    (hmatch : firstMatch word text regex pos = none) :
    findFrom word text regex pos = findFrom word text regex (pos + 1) := by
  by_cases hpos : pos < text.length
  · rw [findFrom, if_pos hpos, hmatch]
  · have hend := Nat.le_of_not_lt hpos
    rw [findFrom_end regex hend, findFrom_end regex (Nat.le_succ_of_le hend)]

/-- Positions at which nothing matches are passed over. -/
theorem findFrom_skip {regex : Regex χ} {pos count : Nat}
    (h : ∀ at' < count, firstMatch word text regex (pos + at') = none) :
    findFrom word text regex pos = findFrom word text regex (pos + count) := by
  induction count with
  | zero => rfl
  | succ count ih =>
    rw [ih fun at' hat => h at' (Nat.lt_succ_of_lt hat), findFrom_succ (h count (Nat.lt_succ_self _)),
      Nat.add_assoc]

/-! ## Outcomes -/

theorem outcomes_seq (first second : Regex χ) (mark : Mark) :
    outcomes word text (.seq first second) mark =
      (outcomes word text first mark).flatMap (outcomes word text second) := rfl

theorem mem_outcomes_seq {first second : Regex χ} {mark last : Mark} :
    last ∈ outcomes word text (.seq first second) mark ↔
      ∃ middle ∈ outcomes word text first mark, last ∈ outcomes word text second middle :=
  List.mem_flatMap

theorem head?_outcomes_seq (first second : Regex χ) (mark : Mark) :
    (outcomes word text (.seq first second) mark).head? =
      (outcomes word text first mark).findSome? fun middle =>
        (outcomes word text second middle).head? :=
  List.head?_flatMap

theorem mem_outcomes_boundary {mark last : Mark} :
    last ∈ outcomes word text .boundary mark ↔
      atBoundary word text mark.pos = true ∧ last = mark := by
  rw [outcomes]
  split_ifs with h <;> simp [h]

theorem mem_outcomes_cls {accepts : χ → Bool} {mark last : Mark} :
    last ∈ outcomes word text (.cls accepts) mark ↔
      text[mark.pos]?.any accepts = true ∧ last = mark.advance 1 := by
  rw [outcomes]
  split_ifs with h <;> simp [h]

theorem mem_outcomes_loop {least : Nat} {most : Option Nat} {body : Regex χ} {mark last : Mark} :
    last ∈ outcomes word text (.loop least most body) mark ↔
      (most ≠ some 0 ∧ ∃ next ∈ outcomes word text body mark,
        mark.pos < next.pos ∧ mark.pos < text.length ∧
          last ∈ outcomes word text (.loop (least - 1) (most.map (· - 1)) body) next) ∨
      least = 0 ∧ last = mark := by
  rw [outcomes, rounds, List.mem_append]
  refine or_congr ?_ ?_
  · split_ifs with hmost
    · simp [hmost]
    · simp only [List.mem_flatMap, hmost, ne_eq, not_false_eq_true, true_and]
      refine exists_congr fun next => and_congr_right fun _ => ?_
      split_ifs with hnext
      · simp [hnext, outcomes]
      · simp only [List.not_mem_nil, false_iff]
        exact fun h => hnext ⟨h.1, h.2.1⟩
  · split_ifs with hleast <;> simp [hleast]

/-! ## Repeated classes -/

/-- How many characters from a position on are accepted. -/
def runLength (accepts : χ → Bool) (text : List χ) (pos : Nat) : Nat :=
  ((text.drop pos).takeWhile accepts).length

def upTo (most : Option Nat) (count : Nat) : Nat := most.elim count (min · count)

theorem runLength_of_any {accepts : χ → Bool} {pos : Nat} (h : text[pos]?.any accepts = true) :
    runLength accepts text pos = runLength accepts text (pos + 1) + 1 := by
  obtain ⟨c, hc, haccepts⟩ := (Option.any_eq_true _ _).mp h
  obtain ⟨hpos, rfl⟩ := List.getElem?_eq_some_iff.mp hc
  rw [runLength, List.drop_eq_getElem_cons hpos, List.takeWhile_cons, if_pos haccepts]
  rfl

theorem runLength_of_not_any {accepts : χ → Bool} {pos : Nat}
    (h : ¬ text[pos]?.any accepts = true) : runLength accepts text pos = 0 := by
  rw [runLength]
  cases hrest : text.drop pos with
  | nil => rfl
  | cons c rest =>
    have hc : text[pos]? = some c := by
      rw [← List.head?_drop, hrest]
      rfl
    rw [hc, Option.any_some] at h
    rw [List.takeWhile_cons, if_neg h]
    rfl

theorem advance_advance (mark : Mark) (count more : Nat) :
    (mark.advance count).advance more = mark.advance (count + more) := by
  simp [Mark.advance, Nat.add_assoc]

theorem map_advance_range' (mark : Mark) (start count : Nat) :
    (List.range' start count).reverse.map (mark.advance 1).advance =
      (List.range' (1 + start) count).reverse.map mark.advance := by
  rw [← List.map_add_range', ← List.map_reverse, List.map_map]
  exact List.map_congr_left fun more _ => advance_advance mark 1 more

/-- A repetition without a round. -/
theorem outcomes_loop_stop {least : Nat} {most : Option Nat} {body : Regex χ} {mark : Mark}
    (h : most = some 0 ∨ outcomes word text body mark = []) :
    outcomes word text (.loop least most body) mark = if least = 0 then [mark] else [] := by
  rw [outcomes, rounds]
  split_ifs with hmost
  · rfl
  · rfl
  · rw [h.resolve_left hmost]
    rfl
  · rw [h.resolve_left hmost]
    rfl

/-- A repeated class takes the longest run first and gives back one character at a time. -/
theorem outcomes_loop_cls (least : Nat) (most : Option Nat) (accepts : χ → Bool) (mark : Mark) :
    outcomes word text (.loop least most (.cls accepts)) mark =
      (List.range' least (upTo most (runLength accepts text mark.pos) + 1 - least)).reverse.map
        mark.advance := by
  have hstop (least : Nat) (mark : Mark) : (if least = 0 then [mark] else []) =
      (List.range' least (0 + 1 - least)).reverse.map mark.advance := by
    cases least <;> simp [Mark.advance]
  generalize hcount : runLength accepts text mark.pos = count
  induction count generalizing least most mark with
  | zero =>
    have hnone : ¬ text[mark.pos]?.any accepts = true := fun h => by
      rw [runLength_of_any h] at hcount
      cases hcount
    have hbody : outcomes word text (.cls accepts) mark = [] := by rw [outcomes, if_neg hnone]
    have hupTo : upTo most 0 = 0 := by cases most <;> simp [upTo]
    rw [outcomes_loop_stop (.inr hbody), hupTo, hstop]
  | succ count ih =>
    by_cases hmost : most = some 0
    · rw [outcomes_loop_stop (.inl hmost), hmost, hstop]
      simp [upTo]
    · have hsome : text[mark.pos]?.any accepts = true := by
        by_contra h
        rw [runLength_of_not_any h] at hcount
        cases hcount
      rw [runLength_of_any hsome] at hcount
      obtain ⟨c, hc, -⟩ := (Option.any_eq_true _ _).mp hsome
      have hnext : mark.pos < (mark.advance 1).pos ∧ mark.pos < text.length :=
        ⟨Nat.lt_succ_self _, (List.getElem?_eq_some_iff.mp hc).1⟩
      have hupTo : upTo most (count + 1) = upTo (most.map (· - 1)) count + 1 := by
        cases most with
        | none => rfl
        | some most =>
          obtain ⟨most, rfl⟩ := Nat.exists_eq_succ_of_ne_zero fun h => hmost (congrArg some h)
          simp [upTo]
      have hrest := ih (least - 1) (most.map (· - 1)) (mark.advance 1) (Nat.succ_injective hcount)
      rw [outcomes] at hrest
      rw [outcomes, rounds, if_neg hmost, outcomes, if_pos hsome, List.flatMap_singleton,
        dif_pos hnext]
      change rounds _ (outcomes word text (.cls accepts)) _ _ _ ++ _ = _
      rw [hrest, map_advance_range', hupTo]
      cases least with
      | zero =>
        have hzero (count : Nat) : List.range' 0 (count + 1) = 0 :: List.range' (1 + 0) count := rfl
        rw [Nat.zero_sub, Nat.sub_zero, Nat.sub_zero, if_pos rfl, hzero (_ + 1), List.reverse_cons,
          List.map_append]
        rfl
      | succ least =>
        rw [if_neg (Nat.succ_ne_zero least), List.append_nil, Nat.add_sub_cancel, Nat.add_comm 1,
          Nat.succ_sub_succ]

/-! ## Plain expressions -/

/-- The texts that an expression spells, wherever they stand. -/
def language : Regex χ → Language χ
  | cls accepts => {piece | ∃ c, accepts c = true ∧ piece = [c]}
  | boundary => 1
  | seq first second => language first * language second
  | loop least most body =>
    {piece | ∃ count, least ≤ count ∧ (∀ bound ∈ most, count ≤ bound) ∧ piece ∈ language body ^ count}
  | group body => language body

/-- No boundary, no group, and no round that can be empty. -/
def Plain : Regex χ → Prop
  | cls _ => True
  | boundary => False
  | seq first second => Plain first ∧ Plain second
  | loop _ _ body => Plain body ∧ [] ∉ language body
  | group _ => False

theorem append_prefix_drop_iff {piece more : List χ} {pos : Nat} :
    piece ++ more <+: text.drop pos ↔
      piece <+: text.drop pos ∧ more <+: text.drop (pos + piece.length) := by
  constructor
  · rintro ⟨rest, hrest⟩
    rw [List.append_assoc] at hrest
    refine ⟨⟨more ++ rest, hrest⟩, ⟨rest, ?_⟩⟩
    rw [← List.drop_drop, ← hrest, List.drop_left]
  · rintro ⟨⟨rest, hrest⟩, ⟨last, hlast⟩⟩
    rw [← List.drop_drop, ← hrest, List.drop_left] at hlast
    exact ⟨last, by rw [List.append_assoc, hlast, hrest]⟩

/-- The outcomes are exactly the texts of the language that stand there. -/
def Exact (word : χ → Bool) (text : List χ) (regex : Regex χ) : Prop :=
  ∀ mark last, last ∈ outcomes word text regex mark ↔
    ∃ piece ∈ language regex, piece <+: text.drop mark.pos ∧ last = mark.advance piece.length

theorem exact_cls (accepts : χ → Bool) : Exact word text (.cls accepts) := by
  intro mark last
  rw [mem_outcomes_cls, Option.any_eq_true]
  constructor
  · rintro ⟨⟨c, hc, haccepts⟩, rfl⟩
    obtain ⟨hpos, rfl⟩ := List.getElem?_eq_some_iff.mp hc
    refine ⟨[text[mark.pos]], ⟨_, haccepts, rfl⟩, ?_, rfl⟩
    rw [List.drop_eq_getElem_cons hpos]
    exact List.prefix_append [_] _
  · rintro ⟨piece, ⟨c, haccepts, rfl⟩, ⟨rest, hrest⟩, rfl⟩
    refine ⟨⟨c, ?_, haccepts⟩, rfl⟩
    rw [← List.head?_drop, ← hrest]
    rfl

theorem Exact.seq {first second : Regex χ} (hfirst : Exact word text first)
    (hsecond : Exact word text second) : Exact word text (.seq first second) := by
  intro mark last
  rw [mem_outcomes_seq]
  constructor
  · rintro ⟨middle, hmiddle, hlast⟩
    obtain ⟨piece, hpiece, hstands, rfl⟩ := (hfirst _ _).mp hmiddle
    obtain ⟨more, hmore, hbehind, rfl⟩ := (hsecond _ _).mp hlast
    refine ⟨piece ++ more, Language.append_mem_mul hpiece hmore,
      append_prefix_drop_iff.mpr ⟨hstands, hbehind⟩, ?_⟩
    rw [advance_advance, List.length_append]
  · rintro ⟨whole, hwhole, hstands, rfl⟩
    obtain ⟨piece, hpiece, more, hmore, rfl⟩ := Language.mem_mul.mp hwhole
    obtain ⟨hstands, hbehind⟩ := append_prefix_drop_iff.mp hstands
    refine ⟨mark.advance piece.length, (hfirst _ _).mpr ⟨piece, hpiece, hstands, rfl⟩, ?_⟩
    refine (hsecond _ _).mpr ⟨more, hmore, hbehind, ?_⟩
    rw [advance_advance, List.length_append]

theorem Exact.loop {body : Regex χ} (hbody : Exact word text body) (hempty : [] ∉ language body)
    (least : Nat) (most : Option Nat) : Exact word text (.loop least most body) := by
  intro mark last
  constructor
  · intro hlast
    -- By induction on what is left of the text: every round takes some of it.
    induction hleft : text.length - mark.pos using Nat.strong_induction_on
      generalizing least most mark with
    | _ left ih =>
      obtain ⟨hmost, next, hnext, hpos, hend, hrest⟩ | ⟨hleast, rfl⟩ := mem_outcomes_loop.mp hlast
      · obtain ⟨piece, hpiece, hstands, rfl⟩ := (hbody _ _).mp hnext
        obtain ⟨more, ⟨count, hcount, hbound, hmore⟩, hbehind, rfl⟩ :=
          ih _ (by omega) (least - 1) (most.map (· - 1)) _ hrest rfl
        refine ⟨piece ++ more, ⟨count + 1, by omega, fun bound hmem => ?_, ?_⟩,
          append_prefix_drop_iff.mpr ⟨hstands, hbehind⟩, ?_⟩
        · obtain rfl : most = some bound := hmem
          have hless := hbound (bound - 1) rfl
          have hpositive : bound ≠ 0 := fun hzero => hmost (congrArg some hzero)
          omega
        · rw [pow_succ']
          exact Language.append_mem_mul hpiece hmore
        · rw [advance_advance, List.length_append]
      · exact ⟨[], ⟨0, Nat.le_of_eq hleast, fun _ _ => Nat.zero_le _, Language.nil_mem_one⟩,
          List.nil_prefix, rfl⟩
  · rintro ⟨whole, ⟨count, hcount, hbound, hwhole⟩, hstands, rfl⟩
    induction count generalizing least most mark whole with
    | zero =>
      obtain rfl : whole = [] := hwhole
      exact mem_outcomes_loop.mpr (.inr ⟨Nat.le_zero.mp hcount, rfl⟩)
    | succ count ih =>
      rw [pow_succ'] at hwhole
      obtain ⟨piece, hpiece, more, hmore, rfl⟩ := Language.mem_mul.mp hwhole
      obtain ⟨hstands, hbehind⟩ := append_prefix_drop_iff.mp hstands
      have hne : piece ≠ [] := fun hnil => hempty (hnil ▸ hpiece)
      have hlength := List.length_pos_of_ne_nil hne
      have hroom := hstands.length_le
      rw [List.length_drop] at hroom
      have hmost : most ≠ some 0 := fun hzero => Nat.not_succ_le_zero _ (hbound 0 hzero)
      refine mem_outcomes_loop.mpr (.inl ⟨hmost, mark.advance piece.length,
        (hbody _ _).mpr ⟨piece, hpiece, hstands, rfl⟩, ?_, by omega, ?_⟩)
      · exact Nat.lt_add_of_pos_right hlength
      · rw [List.length_append, ← advance_advance]
        refine ih (least - 1) (most.map (· - 1)) (mark.advance piece.length) more (by omega) ?_ hmore
          hbehind
        intro bound hmem
        obtain ⟨bound, hmost, rfl⟩ := Option.map_eq_some_iff.mp hmem
        exact Nat.le_sub_one_of_lt (hbound bound hmost)

theorem Plain.exact {regex : Regex χ} (h : Plain regex) : Exact word text regex := by
  induction regex with
  | cls accepts => exact exact_cls accepts
  | boundary => exact h.elim
  | seq first second ihfirst ihsecond => exact (ihfirst h.1).seq (ihsecond h.2)
  | loop least most body ih => exact (ih h.1).loop h.2 least most
  | group body => exact h.elim

theorem mem_language_cls_pow {accepts : χ → Bool} {count : Nat} {piece : List χ} :
    piece ∈ language (.cls accepts) ^ count ↔ piece.length = count ∧ ∀ c ∈ piece, accepts c = true := by
  induction count generalizing piece with
  | zero => simp only [pow_zero, Language.mem_one, List.length_eq_zero_iff]; grind
  | succ count ih =>
    rw [pow_succ', Language.mem_mul]
    constructor
    · rintro ⟨_, ⟨c, hc, rfl⟩, rest, hrest, rfl⟩
      obtain ⟨hlength, hall⟩ := ih.mp hrest
      exact ⟨congrArg (· + 1) hlength, List.forall_mem_cons.mpr ⟨hc, hall⟩⟩
    · rintro ⟨hlength, hall⟩
      obtain ⟨c, rest, rfl⟩ := List.exists_cons_of_length_eq_add_one hlength
      obtain ⟨hc, hrest⟩ := List.forall_mem_cons.mp hall
      exact ⟨[c], ⟨c, hc, rfl⟩, rest, ih.mpr ⟨Nat.succ_injective hlength, hrest⟩, rfl⟩

/-- A repeated class spells the texts of the class that are long enough. -/
theorem mem_language_loop_cls {least : Nat} {accepts : χ → Bool} {piece : List χ} :
    piece ∈ language (.loop least none (.cls accepts)) ↔
      least ≤ piece.length ∧ ∀ c ∈ piece, accepts c = true := by
  constructor
  · rintro ⟨count, hcount, -, hpiece⟩
    obtain ⟨rfl, hall⟩ := mem_language_cls_pow.mp hpiece
    exact ⟨hcount, hall⟩
  · rintro ⟨hlength, hall⟩
    exact ⟨piece.length, hlength, fun _ h => absurd h (Option.not_mem_none _),
      mem_language_cls_pow.mpr ⟨rfl, hall⟩⟩

theorem mem_language_loop {least : Nat} {body : Regex χ} {whole : List χ} :
    whole ∈ language (.loop least none body) ↔
      ∃ pieces : List (List χ), whole = pieces.flatten ∧ least ≤ pieces.length ∧
        ∀ piece ∈ pieces, piece ∈ language body := by
  constructor
  · rintro ⟨count, hcount, -, hwhole⟩
    obtain ⟨pieces, hflatten, rfl, hall⟩ := Language.mem_pow.mp hwhole
    exact ⟨pieces, hflatten, hcount, hall⟩
  · rintro ⟨pieces, hflatten, hlength, hall⟩
    exact ⟨pieces.length, hlength, fun _ h => absurd h (Option.not_mem_none _),
      Language.mem_pow.mpr ⟨pieces, hflatten, rfl, hall⟩⟩

/-- A class in front of an expression. -/
theorem mem_language_cls_seq {accepts : χ → Bool} {second : Regex χ} {whole : List χ} :
    whole ∈ language (.seq (.cls accepts) second) ↔
      ∃ c rest, whole = c :: rest ∧ accepts c = true ∧ rest ∈ language second := by
  rw [language, Language.mem_mul]
  constructor
  · rintro ⟨_, ⟨c, hc, rfl⟩, rest, hrest, rfl⟩
    exact ⟨c, rest, rfl, hc, hrest⟩
  · rintro ⟨c, rest, rfl, hc, hrest⟩
    exact ⟨[c], ⟨c, hc, rfl⟩, rest, hrest, rfl⟩

/-! ## Whole words -/

/-- The expression between two boundaries. -/
def wholeWord (core : Regex χ) : Regex χ := .seq .boundary (.seq core .boundary)

/-- The word character before a position. -/
def opens (word : χ → Bool) (text : List χ) (pos : Nat) : Prop :=
  (text.take pos).getLast?.any word = false

theorem any_getLast?_append {before piece : List χ} (hne : piece ≠ [])
    (hword : ∀ c ∈ piece, word c = true) : (before ++ piece).getLast?.any word = true := by
  rw [List.getLast?_append_of_ne_nil _ hne, List.getLast?_eq_getLast_of_ne_nil hne]
  exact hword _ (List.getLast_mem hne)

theorem take_add_of_prefix {piece : List χ} {pos : Nat} (h : piece <+: text.drop pos) :
    text.take (pos + piece.length) = text.take pos ++ piece := by
  rw [List.take_add, ← List.prefix_iff_eq_take.mp h]

section WholeWords

variable {core : Regex χ} {accepts : χ → Bool} (hcore : Plain core)
  (hword : ∀ c, accepts c = true → word c = true)
  (hspelled : ∀ piece ∈ language core, piece ≠ [] ∧ ∀ c ∈ piece, accepts c = true)

include hword in
/-- Between two accepted characters is no boundary. -/
theorem atBoundary_inside {piece : List χ} {c : χ} {pos : Nat} (hne : piece ≠ [])
    (haccepts : ∀ c ∈ piece, accepts c = true) (hstands : piece <+: text.drop pos)
    (hc : text[pos + piece.length]? = some c) (hnext : accepts c = true) :
    atBoundary word text (pos + piece.length) = false := by
  rw [atBoundary, take_add_of_prefix hstands,
    any_getLast?_append hne fun c hmem => hword c (haccepts c hmem), hc, Option.any_some,
    hword c hnext]
  rfl

include hcore hword hspelled in
/-- A word of the class matches when it is the whole run and no word character stands beside it. -/
theorem mem_outcomes_wholeWord {pos : Nat} {last : Mark} :
    last ∈ outcomes word text (wholeWord core) ⟨pos, none⟩ ↔
      (opens word text pos ∧
        (text.drop pos).takeWhile accepts ∈ language core ∧
        text[pos + runLength accepts text pos]?.any word = false) ∧
      last = ⟨pos + runLength accepts text pos, none⟩ := by
  have hstart {piece : List χ} (hne : piece ≠ []) (haccepts : ∀ c ∈ piece, accepts c = true)
      (hstands : piece <+: text.drop pos) : text[pos]?.any word = true := by
    obtain ⟨c, rest, rfl⟩ := List.exists_cons_of_ne_nil hne
    obtain ⟨behind, hbehind⟩ := hstands
    rw [← List.head?_drop, ← hbehind]
    exact hword c (haccepts c List.mem_cons_self)
  have hend {piece : List χ} (hne : piece ≠ []) (haccepts : ∀ c ∈ piece, accepts c = true)
      (hstands : piece <+: text.drop pos) :
      atBoundary word text (pos + piece.length) = !text[pos + piece.length]?.any word := by
    rw [atBoundary, take_add_of_prefix hstands,
      any_getLast?_append hne fun c hmem => hword c (haccepts c hmem), Bool.true_bne]
  constructor
  · intro hlast
    obtain ⟨start, hfirst, hlast⟩ := mem_outcomes_seq.mp hlast
    obtain ⟨hopens, rfl⟩ := mem_outcomes_boundary.mp hfirst
    obtain ⟨middle, hmiddle, hlast⟩ := mem_outcomes_seq.mp hlast
    obtain ⟨piece, hpiece, hstands, rfl⟩ := (hcore.exact _ _).mp hmiddle
    obtain ⟨hcloses, rfl⟩ := mem_outcomes_boundary.mp hlast
    obtain ⟨hne, haccepts⟩ := hspelled piece hpiece
    have hrun : (text.drop pos).takeWhile accepts = piece := by
      obtain ⟨rest, hrest⟩ := hstands
      rw [← hrest, List.takeWhile_append_of_pos haccepts]
      cases rest with
      | nil => exact List.append_nil piece
      | cons c rest =>
        by_cases hc : accepts c = true
        · have hat : text[pos + piece.length]? = some c := by
            rw [← List.getElem?_drop, ← hrest, List.getElem?_append_right (Nat.le_refl _),
              Nat.sub_self]
            rfl
          have hinside := atBoundary_inside hword hne haccepts ⟨_, hrest⟩ hat hc
          exact absurd hcloses (Bool.eq_false_iff.mp hinside)
        · rw [List.takeWhile_cons, if_neg hc, List.append_nil]
    change atBoundary word text (pos + piece.length) = true at hcloses
    rw [hend hne haccepts hstands, Bool.not_eq_true'] at hcloses
    rw [runLength, hrun]
    refine ⟨⟨?_, hpiece, hcloses⟩, rfl⟩
    change ((text.take pos).getLast?.any word != text[pos]?.any word) = true at hopens
    rw [hstart hne haccepts hstands, Bool.bne_true] at hopens
    exact (Bool.not_eq_true' _).mp hopens
  · rintro ⟨⟨hopens, hrun, hcloses⟩, rfl⟩
    obtain ⟨hne, haccepts⟩ := hspelled _ hrun
    have hstands : (text.drop pos).takeWhile accepts <+: text.drop pos := List.takeWhile_prefix _
    refine mem_outcomes_seq.mpr ⟨⟨pos, none⟩, mem_outcomes_boundary.mpr ⟨?_, rfl⟩, ?_⟩
    · rw [atBoundary, hstart hne haccepts hstands, hopens]
      rfl
    · refine mem_outcomes_seq.mpr ⟨_, (hcore.exact _ _).mpr ⟨_, hrun, hstands, rfl⟩, ?_⟩
      refine mem_outcomes_boundary.mpr ⟨?_, rfl⟩
      exact (hend hne haccepts hstands).trans ((Bool.not_eq_true' _).mpr hcloses)

include hcore hword hspelled in
theorem firstMatch_wholeWord {pos : Nat} (hopens : opens word text pos)
    (hrun : (text.drop pos).takeWhile accepts ∈ language core)
    (hcloses : text[pos + runLength accepts text pos]?.any word = false) :
    firstMatch word text (wholeWord core) pos =
      some ⟨pos + runLength accepts text pos, none⟩ := by
  have hmem (last : Mark) : last ∈ outcomes word text (wholeWord core) ⟨pos, none⟩ ↔
      last = ⟨pos + runLength accepts text pos, none⟩ :=
    (mem_outcomes_wholeWord hcore hword hspelled).trans
      (and_iff_right ⟨hopens, hrun, hcloses⟩)
  rw [firstMatch]
  cases hhead : (outcomes word text (wholeWord core) ⟨pos, none⟩).head? with
  | none =>
    have hsome := (hmem _).mpr rfl
    rw [List.head?_eq_none_iff.mp hhead] at hsome
    cases hsome
  | some last => exact congrArg some ((hmem last).mp (List.mem_of_mem_head? hhead))

include hcore hword hspelled in
theorem firstMatch_wholeWord_none {pos : Nat}
    (h : opens word text pos → (text.drop pos).takeWhile accepts ∈ language core →
      text[pos + runLength accepts text pos]?.any word = true) :
    firstMatch word text (wholeWord core) pos = none := by
  rw [firstMatch, List.head?_eq_none_iff, List.eq_nil_iff_forall_not_mem]
  intro last hlast
  obtain ⟨⟨hopens, hrun, hcloses⟩, -⟩ := (mem_outcomes_wholeWord hcore hword hspelled).mp hlast
  rw [h hopens hrun] at hcloses
  cases hcloses

end WholeWords

end Regex

end Agentless
