import Agentless.Library.Boundary

/-!
# Computations that return, refuse or go wrong

A computation of the program returns a value, refuses with an error, or goes wrong: it reads past
the end of a list. `Ends` says of a computation that it does not go wrong, and what holds of its
value.
-/

namespace Agentless

abbrev Attempt (ε : Type) : Type → Type := ExceptT ε Option

/-- The write of one element, which goes wrong past the end. -/
def List.set? {α : Type} (items : List α) (index : Nat) (item : α) : Option (List α) :=
  if index < items.length then some (items.set index item) else none

/-- The elements from `start` to before `stop`, which goes wrong unless they are all there. -/
def slice? {α : Type} (items : List α) (start stop : Nat) : Option (List α) :=
  if start ≤ stop ∧ stop ≤ items.length then some (slice items start stop) else none

theorem slice?_eq_some {α : Type} {items : List α} {start stop : Nat} (hstart : start ≤ stop)
    (hstop : stop ≤ items.length) : slice? items start stop = some (slice items start stop) :=
  if_pos ⟨hstart, hstop⟩

theorem slice_succ {α : Type} {items : List α} {place : Nat} (h : place < items.length) :
    slice items place (place + 1) = [items[place]] := by
  rw [slice, Nat.add_sub_cancel_left, List.drop_eq_getElem_cons h]
  rfl

theorem mapM_eq_some_map {α β : Type} {items : List α} {read : α → Option β} {found : α → β}
    (h : ∀ item ∈ items, read item = some (found item)) :
    items.mapM read = some (items.map found) := by
  induction items with
  | nil => rfl
  | cons item items ih =>
    obtain ⟨hitem, hitems⟩ := List.forall_mem_cons.mp h
    rw [List.mapM_cons, hitem, ih hitems]
    rfl

theorem findSome?_congr {α β : Type} {items : List α} {f g : α → Option β}
    (h : ∀ item ∈ items, f item = g item) : items.findSome? f = items.findSome? g := by
  induction items with
  | nil => rfl
  | cons item items ih =>
    obtain ⟨hitem, hitems⟩ := List.forall_mem_cons.mp h
    rw [List.findSome?_cons, List.findSome?_cons, hitem, ih hitems]

theorem findSomeM?_eq_some {α β : Type} {items : List α} {read : α → Option (Option β)}
    {found : α → Option β} (h : ∀ item ∈ items, read item = some (found item)) :
    items.findSomeM? read = some (items.findSome? found) := by
  induction items with
  | nil => rfl
  | cons item items ih =>
    obtain ⟨hitem, hitems⟩ := List.forall_mem_cons.mp h
    rw [List.findSomeM?, hitem, List.findSome?_cons]
    cases found item with
    | none => exact ih hitems
    | some value => rfl

namespace Attempt

variable {ε α β : Type} {attempt : Attempt ε α} {property weaker : α → Prop} {value : α}

/-- A read, which goes wrong where nothing stands. -/
def read (found : Option α) : Attempt ε α := ExceptT.lift found

/-- It does not go wrong, and a value that it returns has the property. -/
def Ends (attempt : Attempt ε α) (property : α → Prop) : Prop :=
  ∃ outcome, attempt.run = some outcome ∧ ∀ value, outcome = .ok value → property value

theorem ends_pure (h : property value) : Ends (pure value : Attempt ε α) property :=
  ⟨.ok value, rfl, fun _ hvalue => Except.ok.inj hvalue ▸ h⟩

theorem ends_throw (error : ε) : Ends (throw error : Attempt ε α) property :=
  ⟨.error error, rfl, fun _ hvalue => nomatch hvalue⟩

theorem Ends.mono (h : Ends attempt property) (himp : ∀ value, property value → weaker value) :
    Ends attempt weaker := by
  obtain ⟨outcome, hrun, hvalue⟩ := h
  exact ⟨outcome, hrun, fun value hok => himp value (hvalue value hok)⟩

theorem Ends.bind {next : α → Attempt ε β} {last : β → Prop} (h : Ends attempt property)
    (hnext : ∀ value, property value → Ends (next value) last) : Ends (attempt >>= next) last := by
  obtain ⟨outcome, hrun, hvalue⟩ := h
  cases outcome with
  | error error =>
    refine ⟨.error error, ?_, fun _ hok => nomatch hok⟩
    rw [ExceptT.run_bind, hrun]
    rfl
  | ok value =>
    obtain ⟨outcome, hlast, hproperty⟩ := hnext value (hvalue value rfl)
    refine ⟨outcome, ?_, hproperty⟩
    rw [ExceptT.run_bind, hrun]
    exact hlast

/-- What it returned is known afterwards. -/
theorem Ends.bind_eq {next : α → Attempt ε β} {last : β → Prop} (h : Ends attempt property)
    (hnext : ∀ value, attempt.run = some (.ok value) → property value → Ends (next value) last) :
    Ends (attempt >>= next) last := by
  obtain ⟨outcome, hrun, hvalue⟩ := h
  have hknown : Ends attempt fun value => attempt.run = some (.ok value) ∧ property value :=
    ⟨outcome, hrun, fun value hok => ⟨hok ▸ hrun, hvalue value hok⟩⟩
  exact hknown.bind fun value hboth => hnext value hboth.1 hboth.2

/-- A read that is in bounds. -/
theorem read_bind {found : Option α} (h : found = some value) (next : α → Attempt ε β) :
    read found >>= next = next value := by
  rw [h]
  rfl

theorem Ends.of_run (h : Ends attempt property) (hrun : attempt.run = some (.ok value)) :
    property value := by
  obtain ⟨outcome, houtcome, hvalue⟩ := h
  exact hvalue value (Option.some.inj (houtcome.symm.trans hrun))

/-- A sequence of two steps returns exactly when both do. -/
theorem run_bind_eq_ok_iff {next : α → Attempt ε β} {last : β} :
    (attempt >>= next).run = some (.ok last) ↔
      ∃ value, attempt.run = some (.ok value) ∧ (next value).run = some (.ok last) := by
  rw [ExceptT.run_bind]
  cases hrun : attempt.run with
  | none => simp
  | some outcome => cases outcome <;> simp

end Attempt

end Agentless
