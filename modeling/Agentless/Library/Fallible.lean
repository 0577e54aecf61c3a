import Mathlib.Tactic.Common
import Agentless.Library.Text

/-!
# Fallible computations

How a sequence of steps that can fail comes apart, and what is left of it without its error.
-/

namespace Agentless

variable {ε α β : Type}

/-- A sequence of two steps succeeds exactly when both do. -/
theorem Except.bind_eq_ok_iff {step : Except ε α} {next : α → Except ε β} {result : β} :
    step >>= next = .ok result ↔ ∃ value, step = .ok value ∧ next value = .ok result := by
  cases step with
  | error error => simp [bind, Except.bind]
  | ok value => simp [bind, Except.bind]

theorem Except.toOption_bind (step : Except ε α) (next : α → Except ε β) :
    (step >>= next).toOption = step.toOption.bind fun value => (next value).toOption := by
  cases step <;> rfl

theorem Except.toOption_eq_some_iff {step : Except ε α} {value : α} :
    step.toOption = some value ↔ step = .ok value := by
  cases step <;> simp [Except.toOption]

/-- A step for every element succeeds exactly when each does. -/
theorem Except.mapM_eq_ok_iff {f : α → Except ε β} {list : List α} {results : List β} :
    list.mapM f = .ok results ↔ List.Forall₂ (fun x y => f x = .ok y) list results := by
  induction list generalizing results with
  | nil => simp [pure, Except.pure, eq_comm]
  | cons x list ih =>
    rw [List.mapM_cons, Except.bind_eq_ok_iff, List.forall₂_cons_left_iff]
    constructor
    · rintro ⟨y, hy, hrest⟩
      obtain ⟨rest, hlist, hresults⟩ := Except.bind_eq_ok_iff.mp hrest
      exact ⟨y, rest, hy, ih.mp hlist, (Except.ok.inj hresults).symm⟩
    · rintro ⟨y, rest, hy, hlist, rfl⟩
      exact ⟨y, hy, Except.bind_eq_ok_iff.mpr ⟨rest, ih.mpr hlist, rfl⟩⟩

/-! ## What holds of an outcome

A computation that can fail meets a condition when a failure is one of the allowed ones and a result
has a property. A sequence of steps is judged step by step. -/

variable {ε α β : Type}

def Meets (allowed : ε → Prop) (outcome : Except ε α) (property : α → Prop) : Prop :=
  match outcome with
  | .ok value => property value
  | .error error => allowed error

namespace Meets

variable {allowed : ε → Prop} {outcome : Except ε α} {property : α → Prop}

@[simp] theorem pure_iff {value : α} :
    Meets allowed (pure value : Except ε α) property ↔ property value := Iff.rfl

theorem mono {weaker : α → Prop} (h : Meets allowed outcome property)
    (himp : ∀ value, property value → weaker value) : Meets allowed outcome weaker := by
  cases outcome with
  | ok value => exact himp value h
  | error error => exact h

theorem bind {next : α → Except ε β} {last : β → Prop} (h : Meets allowed outcome property)
    (hnext : ∀ value, property value → Meets allowed (next value) last) :
    Meets allowed (outcome >>= next) last := by
  cases outcome with
  | ok value => exact hnext value h
  | error error => exact h

theorem of_ok {value : α} (h : Meets allowed outcome property) (hok : outcome = .ok value) :
    property value := by
  rw [hok] at h
  exact h

theorem of_error {error : ε} (h : Meets allowed outcome property) (herror : outcome = .error error) :
    allowed error := by
  rw [herror] at h
  exact h

end Meets

end Agentless
