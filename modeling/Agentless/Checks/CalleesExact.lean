import Agentless.Checks.Callees

/-!
# Callee overlap reports each pair once

The index finds as many shared callees as two functions have, so the candidates of a unit are the
functions it meets the rule against, and the kept families are those of the rule. Of two rows that
meet both ways one comes first, since two functions that start on one line spell each other.
-/

namespace Agentless.Checks.Callees

open Groups

/-! ## Shared callees -/

section Shared

variable {κ : Type} [BEq κ] [LawfulBEq κ]

/-- How often an item of the one list is one of the other. -/
def crossCount (xs ys : List κ) : Nat := (xs.map ys.count).sum

theorem countP_mem_cons {x : κ} {xs : List κ} (hx : x ∉ xs) (ys : List κ) :
    ys.countP (fun y => y ∈ x :: xs) = ys.count x + ys.countP (fun y => y ∈ xs) := by
  induction ys with
  | nil => rfl
  | cons y ys ih =>
    rw [List.countP_cons, List.count_cons, List.countP_cons, ih]
    by_cases hy : y = x
    · subst hy
      simp [hx]
      omega
    · simp [hy]
      omega

theorem crossCount_of_nodup_left {xs : List κ} (h : xs.Nodup) (ys : List κ) :
    crossCount xs ys = ys.countP fun y => y ∈ xs := by
  unfold crossCount
  induction xs with
  | nil => simp
  | cons x xs ih =>
    obtain ⟨hx, hrest⟩ := List.nodup_cons.mp h
    rw [List.map_cons, List.sum_cons, ih hrest, countP_mem_cons hx]

theorem crossCount_of_nodup_right (xs : List κ) {ys : List κ} (h : ys.Nodup) :
    crossCount xs ys = xs.countP fun x => x ∈ ys := by
  unfold crossCount
  induction xs with
  | nil => rfl
  | cons x xs ih =>
    rw [List.map_cons, List.sum_cons, ih, List.countP_cons, h.count]
    simp only [decide_eq_true_eq]
    omega

end Shared

section Index

variable {functions : List TreeFunction}

theorem callers_eq (id : Text) : callers functions id =
    (List.finRange functions.length).flatMap fun f =>
      ((At.get f).callees.zipIdx.filter fun callee => callee.1.id = id).map fun callee =>
        (f, callee.2) := by
  unfold callers
  dsimp only
  rw [lookup_grouped, List.filter_flatMap, List.map_flatMap]
  refine List.flatMap_congr fun f _ => ?_
  rw [List.filter_map, List.map_map]
  rfl

/-- The index holds each caller as often as it calls. -/
theorem countP_callers (id : Text) (g : At functions) :
    (callers functions id).countP (fun caller => caller.1 = g) = (At.get g).calleeIds.count id := by
  rw [callers_eq, List.countP_flatMap]
  have hzero : ∀ f, f ≠ g → f ∈ List.finRange functions.length →
      (List.countP (fun caller => decide (caller.1 = g)) ∘ fun f =>
        ((At.get f).callees.zipIdx.filter fun callee => callee.1.id = id).map fun callee =>
          (f, callee.2)) f = 0 := by
    intro f hne _
    simp [Function.comp_def, List.countP_map, hne]
  rw [List.sum_map_eq_nsmul_single g _ hzero]
  have hone : (List.finRange functions.length).count g = 1 :=
    List.count_eq_one_of_mem (List.nodup_finRange _) (List.mem_finRange g)
  rw [hone, one_smul, Function.comp_apply, List.countP_map, TreeFunction.calleeIds, List.count,
    List.countP_map]
  conv_rhs => rw [← List.zipIdx_map_fst 0 (At.get g).callees, List.countP_map]
  rw [List.countP_filter]
  refine List.countP_congr fun callee _ => ?_
  simp

theorem countP_sharers (f g : At functions) :
    (sharers f).countP (fun caller => caller.1 = g) =
      crossCount (At.get f).calleeIds (At.get g).calleeIds := by
  unfold sharers crossCount
  rw [List.countP_flatMap]
  conv_rhs =>
    unfold TreeFunction.calleeIds
    rw [← List.zipIdx_map_fst 0 (At.get f).callees, List.map_map, List.map_map]
  refine congrArg List.sum (List.map_congr_left fun callee _ => ?_)
  rw [Function.comp_apply, List.countP_map]
  exact countP_callers callee.1.id g

theorem mem_grouped_sharers {f : At functions}
    {group : At functions × List (At functions × Nat × Nat)}
    (h : group ∈ grouped Prod.fst (sharers f)) :
    group.2.length = crossCount (At.get f).calleeIds (At.get group.1).calleeIds := by
  rw [grouped_eq] at h
  obtain ⟨g, -, rfl⟩ := List.mem_map.mp h
  rw [← countP_sharers, List.countP_eq_length_filter]

theorem nodup_grouped_sharers (f : At functions) :
    ((grouped Prod.fst (sharers f)).map Prod.fst).Nodup := by
  have hkeys := nodup_keysOf Prod.fst (sharers f)
  rw [grouped_eq, List.map_map]
  simpa [Function.comp_def] using hkeys

theorem exists_group {f g : At functions}
    (h : 0 < crossCount (At.get f).calleeIds (At.get g).calleeIds) :
    ∃ group ∈ grouped Prod.fst (sharers f), group.1 = g := by
  rw [← countP_sharers] at h
  obtain ⟨caller, hcaller, heq⟩ := List.countP_pos_iff.mp h
  have hkey : g ∈ keysOf Prod.fst (sharers f) :=
    mem_keysOf.mpr ⟨caller, hcaller, of_decide_eq_true heq⟩
  rw [grouped_eq]
  exact ⟨_, List.mem_map.mpr ⟨g, hkey, rfl⟩, rfl⟩

/-! ## The rule -/

/-- How many callees of `g` the function `f` calls. -/
def called (f g : At functions) : Nat :=
  (At.get g).calleeIds.countP fun id => id ∈ (At.get f).calleeIds

/-- Another function `g` has enough callees, `f` calls most of them, and `f` does not spell `g`. -/
def Meets (f g : At functions) : Prop :=
  f ≠ g ∧ 3 ≤ (At.get g).callees.length ∧ 4 * (At.get g).callees.length ≤ 5 * called f g ∧
    (At.get g).name ∉ (At.get f).spelled

instance (f g : At functions) : Decidable (Meets f g) := inferInstanceAs (Decidable
  (f ≠ g ∧ 3 ≤ (At.get g).callees.length ∧ 4 * (At.get g).callees.length ≤ 5 * called f g ∧
    (At.get g).name ∉ (At.get f).spelled))

/-- How many functions other than `f` meet the rule for `g`. -/
def familySize (f g : At functions) : Nat :=
  (List.finRange functions.length).countP fun h => h ≠ f ∧ Meets h g

/-- Each function counts each callee once. -/
def CalleesOnce (functions : List TreeFunction) : Prop :=
  ∀ function ∈ functions, function.calleeIds.Nodup

theorem CalleesOnce.get (h : CalleesOnce functions) (f : At functions) :
    (At.get f).calleeIds.Nodup :=
  h _ (List.get_mem functions f)

theorem meets_iff (f g : At functions) (shared : Nat) (hshared : shared = called f g) :
    f ≠ g ∧ meets f g shared ↔ Meets f g := by
  subst hshared
  simp [meets, Meets, minCallees, shareParts, shareWhole, spells]

theorem crossCount_eq_called (hcallees : CalleesOnce functions) (f g : At functions) :
    crossCount (At.get f).calleeIds (At.get g).calleeIds = called f g :=
  crossCount_of_nodup_left (hcallees.get f) _

theorem crossCount_eq_called' (hcallees : CalleesOnce functions) (h g : At functions) :
    crossCount (At.get g).calleeIds (At.get h).calleeIds = called h g :=
  crossCount_of_nodup_right _ (hcallees.get h)

theorem members_perm (hcallees : CalleesOnce functions) (g : At functions) :
    (members g).Perm ((List.finRange functions.length).filter fun h => Meets h g) := by
  have hsorted : (members g).Perm _ := List.perm_insertionSort _ _
  refine hsorted.trans ?_
  have hnodup := (nodup_grouped_sharers g).sublist
    ((List.filter_sublist (l := grouped Prod.fst (sharers g)) (p := fun group =>
      group.1 ≠ g ∧ meets group.1 g group.2.length)).map Prod.fst)
  refine (List.perm_ext_iff_of_nodup hnodup ((List.nodup_finRange _).filter _)).mpr fun h => ?_
  rw [List.mem_filter, List.mem_map]
  simp only [List.mem_filter, decide_eq_true_eq, List.mem_finRange, true_and]
  constructor
  · rintro ⟨group, ⟨hgroup, hmeets⟩, rfl⟩
    have hlength := mem_grouped_sharers hgroup
    rw [crossCount_eq_called' hcallees] at hlength
    exact (meets_iff _ _ _ hlength).mp hmeets
  · intro hmeets
    have hcalled : 0 < crossCount (At.get g).calleeIds (At.get h).calleeIds := by
      rw [crossCount_eq_called' hcallees]
      obtain ⟨-, henough, hmost, -⟩ := hmeets
      omega
    obtain ⟨group, hgroup, rfl⟩ := exists_group hcalled
    have hlength := mem_grouped_sharers hgroup
    rw [crossCount_eq_called' hcallees] at hlength
    exact ⟨group, ⟨hgroup, (meets_iff _ _ _ hlength).mpr hmeets⟩, rfl⟩

/-- No more is taken from a family than it has. -/
theorem contained_le (found : List (At functions)) (f : At functions) :
    (found.contains f).toNat ≤ found.length := by
  cases hfound : found.contains f with
  | false => exact Nat.zero_le _
  | true => exact List.length_pos_of_mem (List.contains_iff_mem.mp hfound)

theorem length_members (hcallees : CalleesOnce functions) (f g : At functions) :
    (members g).length - ((members g).contains f).toNat = familySize f g := by
  have hperm := members_perm hcallees g
  have hnodup := hperm.nodup_iff.mpr ((List.nodup_finRange _).filter _)
  have hothers : familySize f g = ((members g).erase f).length := by
    rw [hnodup.erase_eq_filter, ← List.countP_eq_length_filter, hperm.countP_eq, List.countP_filter]
    exact List.countP_congr fun h _ => by simp
  rw [hothers, List.length_erase]
  cases hcontains : (members g).contains f with
  | false =>
    have hnot : f ∉ members g := by simpa using hcontains
    simp [hnot]
  | true =>
    have hmem : f ∈ members g := by simpa using hcontains
    simp [hmem]

/-! ## The kept families -/

/-- What is kept for a function are its members. -/
def Families.Found (families : Families functions) : Prop :=
  ∀ g members', families.lookup g = some members' → members' = members g

theorem found_nil : Families.Found ([] : Families functions) := fun _ _ h => by cases h

theorem Families.Found.find {families : Families functions} (h : families.Found)
    (g : At functions) : (families.find g).1 = members g ∧ (families.find g).2.Found := by
  unfold Families.find
  cases hlookup : families.lookup g with
  | some found => exact ⟨h g found hlookup, h⟩
  | none =>
    refine ⟨rfl, fun other found hother => ?_⟩
    rw [Assoc.lookup_cons_eq] at hother
    split_ifs at hother with heq
    · exact (Option.some.inj hother).symm.trans (congrArg members heq.symm)
    · exact h other found hother

theorem Families.Found.of {families : Families functions} (h : families.Found)
    (hcallees : CalleesOnce functions) (g f : At functions) :
    (families.of g f).1 = familySize f g ∧ (families.of g f).2.Found := by
  obtain ⟨hmembers, hfound⟩ := h.find g
  refine ⟨?_, hfound⟩
  rw [← length_members hcallees, ← hmembers]
  rfl

/-! ## The rows -/

/-- The naive rule: the row's functions meet it, and few others meet it for the existing one. -/
def Row.Naive (row : Row functions) : Prop :=
  Meets row.unit.function row.other ∧ familySize row.unit.function row.other < familyLimit

theorem smallFamilies_spec (hcallees : CalleesOnce functions) (unit : Checked functions)
    (groups : List (At functions × List (At functions × Nat × Nat)))
    {families : Families functions} (hfound : families.Found) :
    (smallFamilies unit families groups).2.Found ∧
      ((smallFamilies unit families groups).1.map Row.other).Sublist (groups.map Prod.fst) ∧
      ∀ row ∈ (smallFamilies unit families groups).1,
        row.unit = unit ∧ familySize row.unit.function row.other < familyLimit := by
  induction groups generalizing families with
  | nil => exact ⟨hfound, .refl _, fun _ hrow => absurd hrow List.not_mem_nil⟩
  | cons group groups ih =>
    obtain ⟨hfamily, hnext⟩ := hfound.of hcallees group.1 unit.function
    obtain ⟨hlast, hsublist, hrows⟩ := ih hnext
    unfold smallFamilies
    dsimp only
    split_ifs with hsmall
    · refine ⟨hlast, hsublist.cons_cons group.1, List.forall_mem_cons.mpr ⟨⟨rfl, ?_⟩, hrows⟩⟩
      rwa [hfamily] at hsmall
    · exact ⟨hlast, hsublist.cons group.1, hrows⟩

theorem rows_spec (hcallees : CalleesOnce functions) (unit : Checked functions)
    {families : Families functions} (hfound : families.Found) :
    (rows families unit).2.Found ∧ ((rows families unit).1.map Row.other).Nodup ∧
      ∀ row ∈ (rows families unit).1, row.unit = unit ∧ row.Naive := by
  let groups := (grouped Prod.fst (sharers unit.function)).filter fun group =>
    (group.1 ≠ unit.function ∧ meets unit.function group.1 group.2.length) ∧
      ¬ unit.oldSpelled.any fun old => oldMet old group.1
  obtain ⟨hlast, hsublist, hrows⟩ := smallFamilies_spec hcallees unit groups hfound
  have hgroups : (groups.map Prod.fst).Nodup :=
    (nodup_grouped_sharers unit.function).sublist (List.filter_sublist.map _)
  have hsorted := List.perm_insertionSort ahead (smallFamilies unit families groups).1
  refine ⟨hlast, ?_, fun row hrow => ?_⟩
  · have hall := (hsorted.map Row.other).nodup_iff.mpr (hgroups.sublist hsublist)
    exact hall.sublist ((List.take_sublist _ _).map _)
  · have hrow := hsorted.mem_iff.mp (List.mem_of_mem_take hrow)
    obtain ⟨rfl, hfamily⟩ := hrows row hrow
    refine ⟨rfl, ?_, hfamily⟩
    obtain ⟨group, hgroup, hother⟩ :=
      List.mem_map.mp (hsublist.subset (List.mem_map_of_mem hrow))
    obtain ⟨hgroup, hrule⟩ := List.mem_filter.mp hgroup
    obtain ⟨⟨hne, hmeets⟩, -⟩ := of_decide_eq_true hrule
    have hlength := mem_grouped_sharers hgroup
    rw [crossCount_eq_called hcallees] at hlength
    rw [← hother]
    exact (meets_iff _ _ _ hlength).mp ⟨hne.symm, hmeets⟩

theorem allRows_spec (hcallees : CalleesOnce functions) (units : List (Checked functions))
    {families : Families functions} (hfound : families.Found) :
    (∀ row ∈ allRows families units, row.unit ∈ units ∧ row.Naive) ∧
      (units.Nodup → ((allRows families units).map fun row => (row.unit, row.other)).Nodup) := by
  induction units generalizing families with
  | nil => exact ⟨fun _ hrow => absurd hrow List.not_mem_nil, fun _ => List.nodup_nil⟩
  | cons unit units ih =>
    obtain ⟨hnext, hnodup, hown⟩ := rows_spec hcallees unit hfound
    obtain ⟨hrest, hrestNodup⟩ := ih hnext
    unfold allRows
    dsimp only
    refine ⟨List.forall_mem_append.mpr ⟨fun row hrow => ?_, fun row hrow => ?_⟩, fun hunits => ?_⟩
    · obtain ⟨rfl, hnaive⟩ := hown row hrow
      exact ⟨List.mem_cons_self, hnaive⟩
    · exact ⟨List.mem_cons_of_mem _ (hrest row hrow).1, (hrest row hrow).2⟩
    · obtain ⟨hunit, hunits⟩ := List.nodup_cons.mp hunits
      rw [List.map_append]
      refine List.nodup_append'.mpr ⟨?_, hrestNodup hunits, fun pair hfirst hlater => ?_⟩
      · refine List.Nodup.of_map Prod.snd ?_
        rwa [List.map_map]
      · obtain ⟨row, hrow, rfl⟩ := List.mem_map.mp hfirst
        obtain ⟨later, hlater, heq⟩ := List.mem_map.mp hlater
        have hsame : later.unit = unit := (Prod.mk.inj heq).1.trans (hown row hrow).1
        exact hunit (hsame ▸ (hrest later hlater).1)

/-! ## Once per pair -/

/-- Two functions whose names start on one line of one file spell each other, since a function
spells every name of its lines. -/
def SpellsItsLine (functions : List TreeFunction) : Prop :=
  ∀ f ∈ functions, ∀ g ∈ functions, f.path = g.path → f.nameLine = g.nameLine → g.name ∈ f.spelled

theorem before_or (f g : At functions) : before f g ∨ before g f ∨
    (At.get f).path = (At.get g).path ∧ (At.get f).nameLine = (At.get g).nameLine := by
  have hpath := lt_trichotomy (At.get f).path (At.get g).path
  have hline := lt_trichotomy (At.get f).nameLine (At.get g).nameLine
  simp only [before, decide_eq_true_eq]
  grind

theorem not_before_of_before {f g : At functions} (h : before f g) : ¬ before g f := by
  simp only [before, decide_eq_true_eq] at h ⊢
  rintro (hpath | ⟨hpath, hline⟩)
  · obtain hless | ⟨heq, -⟩ := h
    · exact lt_asymm hpath hless
    · exact absurd heq hpath.ne'
  · obtain hless | ⟨-, hless⟩ := h
    · exact absurd hpath hless.ne'
    · omega

theorem mem_oncePerPair {rows : List (Row functions)} {row : Row functions} :
    row ∈ oncePerPair rows ↔ row ∈ rows ∧
      ((row.other, row.unit.function) ∉ rows.map (Row.direction functions) ∨
        before row.unit.function row.other) := by
  simp [oncePerPair]

theorem kept_direction {units : List (Checked functions)} {f g : At functions} :
    (∃ row ∈ kept units, Row.direction functions row = (f, g)) ↔
      (∃ row ∈ allRows [] units, Row.direction functions row = (f, g)) ∧
        ((¬ ∃ row ∈ allRows [] units, Row.direction functions row = (g, f)) ∨ before f g) := by
  unfold kept
  simp only [mem_oncePerPair, List.mem_map, Row.direction, Prod.mk.injEq]
  constructor
  · rintro ⟨row, ⟨hrow, honly⟩, rfl, rfl⟩
    exact ⟨⟨row, hrow, rfl, rfl⟩, honly⟩
  · rintro ⟨⟨row, hrow, rfl, rfl⟩, honly⟩
    exact ⟨row, ⟨hrow, honly⟩, rfl, rfl⟩

theorem naive_of_mem_kept (hcallees : CalleesOnce functions) {units : List (Checked functions)}
    {row : Row functions} (h : row ∈ kept units) : row.Naive :=
  ((allRows_spec hcallees units found_nil).1 row (mem_oncePerPair.mp h).1).2

theorem apart_of_meets (hspelled : SpellsItsLine functions) {f g : At functions} (h : Meets f g) :
    ¬ ((At.get f).path = (At.get g).path ∧ (At.get f).nameLine = (At.get g).nameLine) := by
  obtain ⟨-, -, -, hspells⟩ := h
  rintro ⟨hpath, hline⟩
  exact hspells (hspelled _ (List.get_mem functions f) _ (List.get_mem functions g) hpath hline)

/-- Of two functions with a row exactly one direction is kept. -/
theorem direction_once (hcallees : CalleesOnce functions) (hspelled : SpellsItsLine functions)
    {units : List (Checked functions)} {f g : At functions}
    (hany : ∃ row ∈ allRows [] units,
      Row.direction functions row = (f, g) ∨ Row.direction functions row = (g, f)) :
    Xor (∃ row ∈ kept units, Row.direction functions row = (f, g))
      (∃ row ∈ kept units, Row.direction functions row = (g, f)) := by
  rw [kept_direction, kept_direction]
  by_cases hforth : ∃ row ∈ allRows [] units, Row.direction functions row = (f, g)
  · by_cases hback : ∃ row ∈ allRows [] units, Row.direction functions row = (g, f)
    · obtain ⟨row, hrow, heq⟩ := id hforth
      have hmeets := ((allRows_spec hcallees units found_nil).1 row hrow).2.1
      obtain ⟨rfl, rfl⟩ := Prod.mk.inj heq
      obtain hfirst | hsecond | hsame := before_or row.unit.function row.other
      · exact .inl ⟨⟨hforth, .inr hfirst⟩, fun hother =>
          hother.2.elim (fun hnone => hnone hforth) (not_before_of_before hfirst)⟩
      · exact .inr ⟨⟨hback, .inr hsecond⟩, fun hother =>
          hother.2.elim (fun hnone => hnone hback) (not_before_of_before hsecond)⟩
      · exact absurd hsame (apart_of_meets hspelled hmeets)
    · exact .inl ⟨⟨hforth, .inl hback⟩, fun hother => hback hother.1⟩
  · have hback : ∃ row ∈ allRows [] units, Row.direction functions row = (g, f) := by
      obtain ⟨row, hrow, hdirection | hdirection⟩ := hany
      · exact absurd ⟨row, hrow, hdirection⟩ hforth
      · exact ⟨row, hrow, hdirection⟩
    exact .inr ⟨⟨hback, .inl hforth⟩, fun hother => hforth hother.1⟩

/-- Of each pair of functions with a row exactly one direction is kept, every kept row meets the
naive rule, no family count goes below zero, and a unit has one row at most for each function. -/
theorem kept_once_per_pair (functions : List TreeFunction) (units : List (Checked functions))
    (hcallees : CalleesOnce functions) (hspelled : SpellsItsLine functions) :
    (∀ f g, (∃ row ∈ allRows [] units, Row.direction functions row = (f, g) ∨
        Row.direction functions row = (g, f)) →
      Xor (∃ row ∈ kept units, Row.direction functions row = (f, g))
        (∃ row ∈ kept units, Row.direction functions row = (g, f))) ∧
    (∀ row ∈ kept units, row.Naive) ∧
    (∀ (families : Families functions) (f g : At functions),
      ((families.find g).1.contains f).toNat ≤ (families.find g).1.length) ∧
    (units.Nodup → ((kept units).map fun row => (row.unit, row.other)).Nodup) := by
  obtain ⟨hrows, hnodup⟩ := allRows_spec hcallees units found_nil
  exact ⟨fun f g => direction_once hcallees hspelled, fun row => naive_of_mem_kept hcallees,
    fun families f g => contained_le _ f,
    fun hunits => (hnodup hunits).sublist (List.filter_sublist.map _)⟩

end Index

/-! ## Two copies -/

namespace TwoCopies

def callee (id : Text) : Callee where
  id
  name := id
  qualname := id
  tier := "imported".toList

/-- Both functions call the same three. -/
def function (name : Text) (line : Nat) : TreeFunction where
  path := "a".toList
  name
  qualname := name
  line
  nameLine := line
  callees := ["x".toList, "y".toList, "z".toList].map callee
  spelled := [name, "x".toList, "y".toList, "z".toList]

def functions : List TreeFunction := [function "f".toList 1, function "g".toList 2]

def first : At functions := ⟨0, by decide⟩

def second : At functions := ⟨1, by decide⟩

def unit (at_ : At functions) : Checked functions where
  paired := {
    old := none
    new := {
      file := 0
      index := at_
      path := "a".toList
      unit := {
        qualname := []
        startByte := 0
        endByte := 0
        startLine := at_ + 1
        bodyKey := []
        cc := 1
        sloc := 1 } }
    via := .new }
  function := at_
  oldSpelled := none

theorem kept_once_two : Xor
    (∃ row ∈ kept [unit first, unit second], Row.direction functions row = (first, second))
    (∃ row ∈ kept [unit first, unit second], Row.direction functions row = (second, first)) :=
  (kept_once_per_pair functions [unit first, unit second] (by unfold CalleesOnce; decide)
    (by unfold SpellsItsLine; decide)).1 first second (by decide)

end TwoCopies

end Agentless.Checks.Callees
