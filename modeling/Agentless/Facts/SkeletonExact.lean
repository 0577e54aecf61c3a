import Agentless.Facts.Skeleton
import Agentless.Library.Assoc

/-!
# Elided bodies stay as they are

What an elided body keeps is shown for good exactly when no later operation drops a line that a body
keeps or writes to a line that a body owns. Replacing a line asks who owns it; dropping lines and
eliding another body do not.
-/

namespace Agentless.Facts

variable {lines : List Text} {plan : Plan} {ops : List Op}

def Elision.Covers (elision : Elision) (line : Nat) : Prop :=
  elision.first ≤ line ∧ line ≤ elision.last

instance (elision : Elision) (line : Nat) : Decidable (elision.Covers line) :=
  inferInstanceAs (Decidable (elision.first ≤ line ∧ line ≤ elision.last))

/-- What the elided body is to show on its lines: what it keeps, and nothing else. -/
def Elision.shown (elision : Elision) (line : Nat) : Option Text :=
  elision.kept.reverse.lookup line

/-! ## What an operation does to a line -/

namespace Plan

theorem shown_write (line l : Nat) (text : Text) :
    (plan.write line text).shown lines l = if l = line then some text else plan.shown lines l := by
  unfold shown write
  by_cases h : l = line
  · subst h
    simp
  · simp [h]

theorem shown_dropRange (first last line : Nat) :
    (plan.dropRange first last).shown lines line =
      if first ≤ line ∧ line ≤ last then none else plan.shown lines line := by
  unfold shown dropRange
  by_cases h : first ≤ line ∧ line ≤ last
  · simp [h]
  · have : ¬ (decide (first ≤ line) && decide (line ≤ last)) = true := by simpa using h
    simp [h, this]

theorem shown_writes (kept : List (Nat × Text)) (line : Nat) :
    (kept.foldl (fun plan entry => plan.write entry.1 entry.2) plan).shown lines line =
      ((kept.reverse.lookup line).map some).getD (plan.shown lines line) := by
  induction kept generalizing plan with
  | nil => rfl
  | cons entry kept ih =>
    rw [List.foldl_cons, ih, shown_write, List.reverse_cons, List.lookup_append]
    cases kept.reverse.lookup line with
    | some text => rfl
    | none =>
      rw [Assoc.lookup_cons_eq]
      split_ifs <;> rfl

theorem Elision.covers_of_shown {elision : Elision} {line : Nat} {text : Text}
    (h : elision.shown line = some text) : elision.Covers line := by
  obtain ⟨before, after, heq, -⟩ := List.lookup_eq_some_iff.mp h
  exact elision.inside (line, text) (List.mem_reverse.mp (heq ▸ by simp))

theorem shown_elide (elision : Elision) (line : Nat) :
    (plan.elide elision).shown lines line =
      if elision.Covers line then elision.shown line else plan.shown lines line := by
  have hshown : (plan.elide elision).shown lines line =
      (elision.kept.foldl (fun plan entry => plan.write entry.1 entry.2)
        (plan.dropRange elision.first elision.last)).shown lines line := rfl
  rw [hshown, shown_writes, shown_dropRange]
  change ((elision.shown line).map some).getD (if elision.Covers line then _ else _) = _
  cases h : elision.shown line with
  | none => rfl
  | some text => simp [Elision.covers_of_shown h]

theorem owned_writes (kept : List (Nat × Text)) :
    (kept.foldl (fun plan entry => plan.write entry.1 entry.2) plan).owned = plan.owned := by
  induction kept generalizing plan with
  | nil => rfl
  | cons entry kept ih => exact ih

theorem owned_elide (elision : Elision) (line : Nat) :
    (plan.elide elision).owned line = true ↔ elision.Covers line ∨ plan.owned line = true := by
  unfold elide
  simp [owned_writes, dropRange, Elision.Covers]

theorem owned_replace (line : Nat) (text : Text) : (plan.replace line text).owned = plan.owned := by
  unfold replace
  split_ifs <;> rfl

theorem owned_runLine (line : Nat) (doc : DocComment) (kept : Text) :
    (plan.runLine line doc kept).owned = plan.owned := by
  unfold runLine
  dsimp only
  split_ifs
  · exact owned_replace line kept
  · rfl

theorem shown_replace_of_owned {l : Nat} (h : plan.owned l = true) (line : Nat) (text : Text) :
    (plan.replace line text).shown lines l = plan.shown lines l := by
  unfold replace
  split_ifs with howned
  · rfl
  · rw [shown_write, if_neg]
    rintro rfl
    exact howned h

theorem shown_runLine_of_owned {l : Nat} (h : plan.owned l = true) (line : Nat) (doc : DocComment)
    (kept : Text) : (plan.runLine line doc kept).shown lines l = plan.shown lines l := by
  unfold runLine
  dsimp only
  split_ifs
  · exact (shown_replace_of_owned (by exact h) line kept).trans rfl
  · rfl

theorem shown_eq_none_iff (line : Nat) : plan.shown lines line = none ↔ plan.dropped line = true := by
  unfold shown
  split_ifs with h <;> simp [h]

end Plan

/-! ## The bodies of a run -/

/-- The body that the operation elides. -/
def Op.elided (plan : Plan) : Op → List Elision
  | .elide elision => if plan.owned elision.first then [] else [elision]
  | _ => []

def elidedFrom (plan : Plan) : List Op → List Elision
  | [] => []
  | op :: ops => op.elided plan ++ elidedFrom (plan.step op) ops

/-- The bodies that the operations elide. -/
def elided (ops : List Op) : List Elision := elidedFrom Plan.new ops

theorem run_concat (ops : List Op) (op : Op) : Plan.run (ops ++ [op]) = (Plan.run ops).step op := by
  rw [Plan.run, List.foldl_append]
  rfl

theorem elided_concat (ops : List Op) (op : Op) :
    elided (ops ++ [op]) = elided ops ++ op.elided (Plan.run ops) := by
  have hfrom (plan : Plan) : elidedFrom plan (ops ++ [op]) =
      elidedFrom plan ops ++ op.elided (ops.foldl Plan.step plan) := by
    induction ops generalizing plan with
    | nil => simp [elidedFrom]
    | cons first ops ih => simp [elidedFrom, ih]
  exact hfrom Plan.new

theorem owned_run (ops : List Op) (line : Nat) :
    (Plan.run ops).owned line = true ↔ ∃ elision ∈ elided ops, elision.Covers line := by
  induction ops using List.reverseRecOn with
  | nil => simp [Plan.run, Plan.new, elided, elidedFrom]
  | append_singleton ops op ih =>
    rw [run_concat, elided_concat]
    cases op with
    | elide elision =>
      rw [Plan.step, Op.elided]
      split_ifs
      · simpa using ih
      · rw [Plan.owned_elide, ih]
        simp [or_and_right, exists_or, or_comm]
    | dropRange first last => simpa [Op.elided, Plan.step, Plan.dropRange] using ih
    | replace l text => simpa [Plan.step, Op.elided, Plan.owned_replace] using ih
    | runLine l doc kept => simpa [Plan.step, Op.elided, Plan.owned_runLine] using ih

/-- Each elided body shows what it keeps and nothing else, and a line that is shown is a line of one
body at most. -/
structure BodiesKept (lines : List Text) (ops : List Op) : Prop where
  kept : ∀ elision ∈ elided ops, ∀ line, elision.Covers line →
    (Plan.run ops).shown lines line = elision.shown line
  oneOwner : ∀ line, ((Plan.run ops).shown lines line).isSome →
    ((elided ops).filter fun elision => elision.Covers line).length ≤ 1

/-- The operation drops no line that an elided body shows, and writes to none that one owns. -/
def Respects (plan : Plan) : Op → Prop
  | .elide elision => plan.owned elision.first = true ∨ ∀ line, elision.Covers line →
      plan.owned line = true → plan.dropped line = true ∧ elision.shown line = none
  | .dropRange first last => ∀ line, first ≤ line ∧ line ≤ last →
      plan.owned line = true → plan.dropped line = true
  | .replace _ _ => True
  | .runLine _ _ _ => True

theorem filter_covers_eq_nil {line : Nat} (h : ¬ (Plan.run ops).owned line = true) :
    ((elided ops).filter fun elision => elision.Covers line) = [] := by
  refine List.filter_eq_nil_iff.mpr fun elision hmem hcovers => h ?_
  exact (owned_run ops line).mpr ⟨elision, hmem, of_decide_eq_true hcovers⟩

theorem BodiesKept.same (h : BodiesKept lines ops) {op : Op} (hnone : op.elided (Plan.run ops) = [])
    (hsame : ∀ line, (Plan.run ops).owned line = true →
      ((Plan.run ops).step op).shown lines line = (Plan.run ops).shown lines line) :
    BodiesKept lines (ops ++ [op]) := by
  constructor
  · rw [run_concat, elided_concat, hnone, List.append_nil]
    intro elision hmem line hcovers
    rw [hsame line ((owned_run ops line).mpr ⟨elision, hmem, hcovers⟩)]
    exact h.kept elision hmem line hcovers
  · rw [run_concat, elided_concat, hnone, List.append_nil]
    intro line hshown
    by_cases howned : (Plan.run ops).owned line = true
    · rw [hsame line howned] at hshown
      exact h.oneOwner line hshown
    · rw [filter_covers_eq_nil howned]
      exact Nat.zero_le 1

theorem BodiesKept.elide (h : BodiesKept lines ops) {elision : Elision}
    (hrespects : ∀ line, elision.Covers line → (Plan.run ops).owned line = true →
      (Plan.run ops).dropped line = true ∧ elision.shown line = none)
    (hfree : ¬ (Plan.run ops).owned elision.first = true) :
    BodiesKept lines (ops ++ [.elide elision]) := by
  have hstep : (Plan.run ops).step (.elide elision) = (Plan.run ops).elide elision := if_neg hfree
  have helided : (Op.elide elision).elided (Plan.run ops) = [elision] := if_neg hfree
  constructor
  · rw [run_concat, hstep, elided_concat, helided]
    intro other hother line hcovers
    rw [Plan.shown_elide]
    rcases List.mem_append.mp hother with hmem | hmem
    · have howned := (owned_run ops line).mpr ⟨other, hmem, hcovers⟩
      rw [← h.kept other hmem line hcovers]
      split_ifs with hinside
      · obtain ⟨hdropped, hnone⟩ := hrespects line hinside howned
        rw [hnone, (Plan.shown_eq_none_iff line).mpr hdropped]
      · rfl
    · obtain rfl := List.mem_singleton.mp hmem
      rw [if_pos hcovers]
  · rw [run_concat, hstep, elided_concat, helided]
    intro line hshown
    rw [Plan.shown_elide] at hshown
    rw [List.filter_append, List.length_append]
    by_cases hinside : elision.Covers line
    · rw [if_pos hinside] at hshown
      have hfree' : ¬ (Plan.run ops).owned line = true := by
        intro howned
        rw [(hrespects line hinside howned).2] at hshown
        cases hshown
      rw [filter_covers_eq_nil hfree']
      simp [hinside]
    · rw [if_neg hinside] at hshown
      simpa [hinside] using h.oneOwner line hshown

/-- An operation that respects the elided bodies keeps them. -/
theorem BodiesKept.step (h : BodiesKept lines ops) {op : Op} (hop : Respects (Plan.run ops) op) :
    BodiesKept lines (ops ++ [op]) := by
  cases op with
  | elide elision =>
    by_cases howned : (Plan.run ops).owned elision.first = true
    · refine h.same (if_pos howned) fun line _ => ?_
      rw [Plan.step, if_pos howned]
    · exact h.elide (hop.resolve_left howned) howned
  | dropRange first last =>
    refine h.same rfl fun line howned => ?_
    rw [Plan.step, Plan.shown_dropRange]
    split_ifs with hinside
    · exact ((Plan.shown_eq_none_iff line).mpr (hop line hinside howned)).symm
    · rfl
  | replace l text => exact h.same rfl fun line howned => Plan.shown_replace_of_owned howned l text
  | runLine l doc kept =>
    exact h.same rfl fun line howned => Plan.shown_runLine_of_owned howned l doc kept

/-- An operation that keeps the elided bodies respects them. -/
theorem BodiesKept.respects (h : BodiesKept lines ops) {op : Op}
    (hnext : BodiesKept lines (ops ++ [op])) : Respects (Plan.run ops) op := by
  have hkept := hnext.kept
  have hone := hnext.oneOwner
  rw [run_concat, elided_concat] at hkept hone
  cases op with
  | elide elision =>
    refine or_iff_not_imp_left.mpr fun hfree line hinside howned => ?_
    obtain ⟨owner, hmem, hcovers⟩ := (owned_run ops line).mp howned
    have hstep : (Plan.run ops).step (.elide elision) = (Plan.run ops).elide elision := if_neg hfree
    have helided : (Op.elide elision).elided (Plan.run ops) = [elision] := if_neg hfree
    rw [hstep, helided] at hkept hone
    have hshown : ((Plan.run ops).elide elision).shown lines line = elision.shown line := by
      rw [Plan.shown_elide, if_pos hinside]
    have hsame := hkept owner (List.mem_append_left _ hmem) line hcovers
    rw [hshown, ← h.kept owner hmem line hcovers] at hsame
    have hnone : elision.shown line = none := by
      -- a line that both bodies show has two owners
      by_contra hsome
      have htwo := hone line (by rw [hshown, Option.isSome_iff_ne_none]; exact hsome)
      have hpos : 0 < ((elided ops).filter fun elision => elision.Covers line).length :=
        List.length_pos_of_mem (List.mem_filter.mpr ⟨hmem, decide_eq_true hcovers⟩)
      rw [List.filter_append, List.length_append] at htwo
      simp only [List.filter_cons, hinside, decide_true, if_true, List.filter_nil,
        List.length_singleton] at htwo
      omega
    exact ⟨(Plan.shown_eq_none_iff line).mp (hsame ▸ hnone), hnone⟩
  | dropRange first last =>
    intro line hinside howned
    obtain ⟨owner, hmem, hcovers⟩ := (owned_run ops line).mp howned
    have hsame := hkept owner (List.mem_append_left _ hmem) line hcovers
    rw [Plan.step, Plan.shown_dropRange, if_pos hinside, ← h.kept owner hmem line hcovers] at hsame
    exact (Plan.shown_eq_none_iff line).mp hsame.symm
  | replace l text => trivial
  | runLine l doc kept => trivial

/-- Along a run the elided bodies are kept in every state exactly when every operation respects the
bodies elided before it. -/
theorem bodies_kept_iff (lines : List Text) (ops : List Op) :
    (∀ before after, ops = before ++ after → BodiesKept lines before) ↔
      ∀ before op after, ops = before ++ op :: after → Respects (Plan.run before) op := by
  constructor
  · intro h before op after heq
    have hnext := h (before ++ [op]) after (by rw [heq, List.append_assoc]; rfl)
    exact (h before (op :: after) heq).respects hnext
  · intro h before
    induction before using List.reverseRecOn with
    | nil =>
      intro after _
      exact ⟨by simp [elided, elidedFrom], by simp [elided, elidedFrom]⟩
    | append_singleton before op ih =>
      intro after heq
      rw [List.append_assoc, List.singleton_append] at heq
      exact (ih (op :: after) heq).step (h before op after heq)

/-! ## A body inside the parameters of a function -/

namespace DefaultArgument

/-- A function whose parameter has a function as its default. -/
def source : List Text :=
  ["function f(a = function () \x7b".toList, "  return 1;".toList,
    "\x7d) \x7b secret(); \x7d".toList]

/-- The body of the function, on the line that ends the default's body. -/
def body : Body where
  first := 3
  last := 3
  head := "\x7d) ".toList
  rest := "\x7b secret(); \x7d".toList
  closingTail := []
  docstring := none
  ordered := Nat.le_refl 3
  inside := by simp

/-- The body of the default, with what follows it on its last line. -/
def defaultBody : Body where
  first := 1
  last := 3
  head := "function f(a = function () ".toList
  rest := "\x7b".toList
  closingTail := ") \x7b secret(); \x7d".toList
  docstring := none
  ordered := by decide
  inside := by simp

def nodes : List PlanNode := [.function (some body), .function (some defaultBody)]

/-- The default's body starts on a line that nothing owns, and eliding it drops the sentinel of the
function's body and shows that body. -/
theorem body_shown :
    ¬ BodiesKept source (planOps false [] nodes) ∧
      skeletonize source nodes false false =
        "function f(a = function () \x7b ... \x7d) \x7b secret(); \x7d\n".toList := by
  refine ⟨fun h => ?_, by decide⟩
  have helided : elided (planOps false [] nodes) = [body.elision false, defaultBody.elision false] :=
    rfl
  have hkept := h.kept (body.elision false) (helided ▸ List.mem_cons_self) 3
    ⟨Nat.le_refl 3, Nat.le_refl 3⟩
  have hdropped : (Plan.run (planOps false [] nodes)).shown source 3 = none := rfl
  have hsentinel : (body.elision false).shown 3 = some "\x7d) \x7b ... \x7d".toList := rfl
  rw [hdropped, hsentinel] at hkept
  cases hkept

end DefaultArgument

end Agentless.Facts
