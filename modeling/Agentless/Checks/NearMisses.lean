import Agentless.Library.EditDistance
import Agentless.Library.Text

/-!
# The names nearest to an unknown one

The distance is computed row by row and given up once a whole row is past the ceiling. Every later
row is past it too, since the edits of a name lead each of its prefixes to a prefix of the other name.
-/

namespace Agentless.Checks

/-! ## The distance with a ceiling -/

/-- The costs of a row after `last`, from the row before and the characters of its columns. -/
def costs (leftChar : Char) : Nat → List Nat → Text → List Nat
  | last, diagonal :: above :: previous, rightChar :: right =>
    let substitution := diagonal + if leftChar = rightChar then 0 else 1
    let cost := min (min (above + 1) (last + 1)) substitution
    cost :: costs leftChar cost (above :: previous) right
  | _, _, _ => []

/-- The rows that are left, from the row before. The row gives its own first cost. -/
def lastRow (right : Text) (ceiling : Nat) : Nat → List Nat → Text → Option (List Nat)
  | _, previous, [] => some previous
  | row, previous, leftChar :: left =>
    let current := (row + 1) :: costs leftChar (row + 1) previous right
    if current.min?.any (ceiling < ·) then none else lastRow right ceiling (row + 1) current left

/-- The Levenshtein distance over code points, or `ceiling + 1` once no row can come back under
it. -/
def editDistance (left right : Text) (ceiling : Nat) : Nat :=
  if ceiling < left.length - right.length ∨ ceiling < right.length - left.length then ceiling + 1
  else
    match lastRow right ceiling 0 (List.range (right.length + 1)) left with
    | some row => row[right.length]?.getD 0
    | none => ceiling + 1

/-- The distances of a name to the prefixes of another one, from one prefix on. -/
def distances (name before : Text) : Text → List Nat
  | [] => [levenshtein name before]
  | c :: rest => levenshtein name before :: distances name (before ++ [c]) rest

theorem head?_distances (name before rest : Text) :
    (distances name before rest).head? = some (levenshtein name before) := by
  cases rest <;> rfl

theorem distances_nil (before rest : Text) :
    distances [] before rest = List.range' before.length (rest.length + 1) := by
  induction rest generalizing before with
  | nil => rw [distances, levenshtein_nil_left]; rfl
  | cons c rest ih =>
    rw [distances, ih, levenshtein_nil_left, List.length_append, List.length_cons, List.range'_succ]
    rfl

theorem mem_distances {name before rest : Text} {distance : Nat} :
    distance ∈ distances name before rest ↔
      ∃ first last, rest = first ++ last ∧ distance = levenshtein name (before ++ first) := by
  induction rest generalizing before with
  | nil => simp [distances]
  | cons c rest ih =>
    rw [distances, List.mem_cons, ih]
    constructor
    · rintro (rfl | ⟨first, last, rfl, rfl⟩)
      · exact ⟨[], c :: rest, rfl, by rw [List.append_nil]⟩
      · exact ⟨c :: first, last, rfl, by rw [List.append_assoc]; rfl⟩
    · rintro ⟨first, last, hrest, rfl⟩
      cases first with
      | nil => exact .inl (by rw [List.append_nil])
      | cons d first =>
        obtain ⟨rfl, rfl⟩ := List.cons.inj hrest
        exact .inr ⟨first, last, rfl, by rw [List.append_assoc]; rfl⟩

theorem getElem?_distances (name before rest : Text) :
    (distances name before rest)[rest.length]? = some (levenshtein name (before ++ rest)) := by
  induction rest generalizing before with
  | nil => rw [List.append_nil]; rfl
  | cons c rest ih =>
    have hrest := ih (before ++ [c])
    rw [List.append_assoc] at hrest
    rw [distances, List.length_cons, List.getElem?_cons_succ, hrest]
    rfl

/-- A row leads to the next one. -/
theorem costs_distances (name before rest : Text) (leftChar : Char) :
    levenshtein (name ++ [leftChar]) before ::
        costs leftChar (levenshtein (name ++ [leftChar]) before) (distances name before rest) rest =
      distances (name ++ [leftChar]) before rest := by
  induction rest generalizing before with
  | nil => rfl
  | cons c rest ih =>
    have habove : ∃ more, distances name (before ++ [c]) rest =
        levenshtein name (before ++ [c]) :: more :=
      ⟨_, (List.cons_head?_tail (head?_distances name (before ++ [c]) rest)).symm⟩
    obtain ⟨more, hmore⟩ := habove
    have hnext := ih (before ++ [c])
    rw [hmore, levenshtein_concat] at hnext
    rw [distances, distances, hmore, costs]
    rw [← levenshtein_concat] at hnext ⊢
    exact congrArg _ hnext

theorem next_distances (name right : Text) (leftChar : Char) :
    (name.length + 1) :: costs leftChar (name.length + 1) (distances name [] right) right =
      distances (name ++ [leftChar]) [] right := by
  have hrow := costs_distances name [] right leftChar
  rwa [levenshtein_nil_right, List.length_append] at hrow

/-- A row that is past the ceiling leaves no way back. -/
theorem lt_levenshtein_of_row {name left right : Text} {ceiling : Nat}
    (h : ∀ distance ∈ distances name [] right, ceiling < distance) :
    ceiling < levenshtein (name ++ left) right := by
  obtain ⟨first, last, hright, hle⟩ := exists_levenshtein_take_le name left right
  exact (h _ (mem_distances.mpr ⟨first, last, hright, rfl⟩)).trans_le hle

/-- The rows end in the last row of the table, or are given up above the ceiling. -/
theorem lastRow_distances (name left right : Text) (ceiling : Nat) :
    lastRow right ceiling name.length (distances name [] right) left =
        some (distances (name ++ left) [] right) ∨
      lastRow right ceiling name.length (distances name [] right) left = none ∧
        ceiling < levenshtein (name ++ left) right := by
  induction left generalizing name with
  | nil =>
    rw [lastRow, List.append_nil]
    exact .inl rfl
  | cons leftChar left ih =>
    have hnext := ih (name ++ [leftChar])
    rw [List.append_assoc, List.length_append] at hnext
    rw [lastRow, next_distances]
    split_ifs with hpast
    · obtain ⟨least, hleast, hless⟩ := (Option.any_eq_true _ _).mp hpast
      have hrow := @lt_levenshtein_of_row (name ++ [leftChar]) left right ceiling fun distance hmem =>
        (of_decide_eq_true hless).trans_le ((List.min?_eq_some_iff.mp hleast).2 distance hmem)
      rw [List.append_assoc] at hrow
      exact .inr ⟨rfl, hrow⟩
    · exact hnext

/-- The distance with a ceiling is exact up to the ceiling. -/
theorem editDistance_spec (left right : Text) (ceiling : Nat) :
    (editDistance left right ceiling ≤ ceiling ↔ levenshtein left right ≤ ceiling) ∧
      (levenshtein left right ≤ ceiling →
        editDistance left right ceiling = levenshtein left right) := by
  obtain ⟨hleft, hright⟩ := (edits_levenshtein left right).length_le
  rw [editDistance]
  by_cases hlengths : ceiling < left.length - right.length ∨ ceiling < right.length - left.length
  · rw [if_pos hlengths]
    omega
  · have hrows := lastRow_distances [] left right ceiling
    rw [distances_nil, List.nil_append, List.length_nil, ← List.range_eq_range'] at hrows
    rw [if_neg hlengths]
    obtain hrow | ⟨hrow, hpast⟩ := hrows
    · rw [hrow]
      dsimp only
      rw [getElem?_distances, Option.getD_some, List.nil_append]
      exact ⟨Iff.rfl, fun _ => rfl⟩
    · rw [hrow]
      dsimp only
      omega

/-! ## Near misses -/

/-- Two edits cover a transposition, a doubled letter and a dropped one. -/
def maxEditDistance : Nat := 2

def maxNearMisses : Nat := 3

section NearMisses

variable (lower : Text → Text) (name : Text)

def fold (name : Text) : Text := lower (name.filter (· ≠ '_'))

/-- The distance of a candidate that is near enough. -/
def scored (candidate : Text) : Option (Nat ×ₗ Text) :=
  if fold lower candidate = fold lower name then some (toLex (0, candidate))
  else
    let distance := editDistance name candidate maxEditDistance
    if distance ≤ maxEditDistance then some (toLex (distance, candidate)) else none

/-- The existing names closest to `name`, nearest first, ties by name. A name that differs only in
case or underscores is at distance 0. -/
def nearMisses (known : List Text) : List Text :=
  let scores := (known.filter (· ≠ name)).filterMap (scored lower name)
  ((scores.insertionSort (· ≤ ·)).take maxNearMisses).map fun score => (ofLex score).2

/-- A known name with its distance from `name`, when it is another one that differs only in case or
underscores or lies within the ceiling. -/
def Near (known : List Text) (score : Nat ×ₗ Text) : Prop :=
  (ofLex score).2 ∈ known ∧ (ofLex score).2 ≠ name ∧
    if fold lower (ofLex score).2 = fold lower name then (ofLex score).1 = 0
    else (ofLex score).1 = levenshtein name (ofLex score).2 ∧ (ofLex score).1 ≤ maxEditDistance

variable {lower name}

theorem scored_eq_some_iff {candidate : Text} {score : Nat ×ₗ Text} :
    scored lower name candidate = some score ↔ (ofLex score).2 = candidate ∧
      if fold lower candidate = fold lower name then (ofLex score).1 = 0
      else (ofLex score).1 = levenshtein name candidate ∧ (ofLex score).1 ≤ maxEditDistance := by
  obtain ⟨hle, heq⟩ := editDistance_spec name candidate maxEditDistance
  have hscore (distance : Nat) : toLex (distance, candidate) = score ↔
      (ofLex score).2 = candidate ∧ (ofLex score).1 = distance := by
    rw [← ofLex_inj, Prod.ext_iff, and_comm, ofLex_toLex, eq_comm, @eq_comm _ distance]
  rw [scored]
  dsimp only
  split_ifs with hfold hnear
  · rw [Option.some.injEq, hscore]
  · rw [Option.some.injEq, hscore, heq (hle.mp hnear)]
    refine and_congr_right fun _ => ⟨fun h => ⟨h, ?_⟩, And.left⟩
    rw [h]
    exact hle.mp hnear
  · refine iff_of_false not_false ?_
    rintro ⟨-, hdistance, hmax⟩
    exact hnear (hle.mpr (hdistance ▸ hmax))

theorem mem_scores_iff {known : List Text} {score : Nat ×ₗ Text} :
    score ∈ (known.filter (· ≠ name)).filterMap (scored lower name) ↔ Near lower name known score := by
  rw [List.mem_filterMap, Near]
  constructor
  · rintro ⟨candidate, hcandidate, hscore⟩
    obtain ⟨rfl, hdistance⟩ := scored_eq_some_iff.mp hscore
    obtain ⟨hknown, hne⟩ := List.mem_filter.mp hcandidate
    exact ⟨hknown, of_decide_eq_true hne, hdistance⟩
  · rintro ⟨hknown, hne, hdistance⟩
    exact ⟨_, List.mem_filter.mpr ⟨hknown, decide_eq_true hne⟩,
      scored_eq_some_iff.mpr ⟨rfl, hdistance⟩⟩

theorem nodup_scores {known : List Text} (hknown : known.Nodup) :
    ((known.filter (· ≠ name)).filterMap (scored lower name)).Nodup := by
  refine (hknown.filter _).filterMap fun first second score hfirst hsecond => ?_
  rw [← (scored_eq_some_iff.mp hfirst).1, ← (scored_eq_some_iff.mp hsecond).1]

/-- The near names in their order, each once, and the first few of them. -/
theorem nearMisses_spec (known : List Text) (hknown : known.Nodup) :
    ∃ ranked : List (Nat ×ₗ Text), ranked.Pairwise (· < ·) ∧
      (∀ score, score ∈ ranked ↔ Near lower name known score) ∧
      nearMisses lower name known = (ranked.take maxNearMisses).map fun score => (ofLex score).2 := by
  refine ⟨((known.filter (· ≠ name)).filterMap (scored lower name)).insertionSort (· ≤ ·), ?_, ?_, rfl⟩
  · have hsorted := List.pairwise_insertionSort (· ≤ ·)
      ((known.filter (· ≠ name)).filterMap (scored lower name))
    have hnodup := (List.perm_insertionSort (· ≤ ·) _).nodup_iff.mpr (@nodup_scores lower name _ hknown)
    exact (hsorted.and hnodup).imp fun h => lt_of_le_of_ne h.1 h.2
  · intro score
    rw [List.mem_insertionSort, mem_scores_iff]

end NearMisses

/-- The distance with a ceiling is the Levenshtein distance up to the ceiling, and so the near misses
are the first few of the other known names that are near, by distance and then by name. -/
theorem nearMisses_exact (lower : Text → Text) (name : Text) (known : List Text)
    (hknown : known.Nodup) :
    (∀ (left right : Text) (ceiling : Nat),
      (editDistance left right ceiling ≤ ceiling ↔ levenshtein left right ≤ ceiling) ∧
        (levenshtein left right ≤ ceiling →
          editDistance left right ceiling = levenshtein left right)) ∧
      ∃ ranked : List (Nat ×ₗ Text), ranked.Pairwise (· < ·) ∧
        (∀ score, score ∈ ranked ↔ Near lower name known score) ∧
        nearMisses lower name known =
          (ranked.take maxNearMisses).map fun score => (ofLex score).2 :=
  ⟨editDistance_spec, nearMisses_spec known hknown⟩

def Colour.known : List Text := ["color", "Colour", "colours", "collar"].map String.toList

theorem Colour.nearMisses_colour : ∃ ranked : List (Nat ×ₗ Text), ranked.Pairwise (· < ·) ∧
    (∀ score, score ∈ ranked ↔
      Near (List.map Char.toLower) "colour".toList Colour.known score) ∧
    nearMisses (List.map Char.toLower) "colour".toList Colour.known =
      (ranked.take maxNearMisses).map fun score => (ofLex score).2 :=
  (Checks.nearMisses_exact (List.map Char.toLower) "colour".toList Colour.known (by decide)).2

example : nearMisses (List.map Char.toLower) "colour".toList Colour.known =
    ["Colour", "color", "colours"].map String.toList := by decide

end Agentless.Checks
