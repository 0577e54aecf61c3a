import Agentless.Library.Assoc
import Agentless.Library.Fallible

/-!
# Computations that give one value

A computation over a state that can stop may still give only one value, whatever the state was, as
long as the state keeps an invariant. Sequences, searches and collections of such computations give
one value too, and so does a computation whose results are kept and found again.
-/

namespace Agentless.Memo

variable {σ ε α β : Type}

/-- From every state with the invariant the computation stops, or gives the value and keeps the
invariant. -/
def Gives (inv : σ → Prop) (step : StateT σ (Except ε) α) (value : α) : Prop :=
  ∀ state result next, inv state → step state = .ok (result, next) → result = value ∧ inv next

variable {inv : σ → Prop}

theorem gives_pure (value : α) : Gives inv (pure value : StateT σ (Except ε) α) value := by
  intro state result next hinv h
  cases h
  exact ⟨rfl, hinv⟩

theorem Gives.bind {step : StateT σ (Except ε) α} {value : α} {next : α → StateT σ (Except ε) β}
    {result : β} (hstep : Gives inv step value) (hnext : Gives inv (next value) result) :
    Gives inv (step >>= next) result := by
  intro state found last hinv h
  obtain ⟨⟨middle, between⟩, hmiddle, hlast⟩ := Except.bind_eq_ok_iff.mp h
  obtain ⟨rfl, hbetween⟩ := hstep state middle between hinv hmiddle
  exact hnext between found last hbetween hlast

/-- The first result that there is, with nothing run behind it. -/
def firstSome (step : α → StateT σ (Except ε) (Option β)) :
    List α → StateT σ (Except ε) (Option β)
  | [] => return none
  | item :: items => do
    match ← step item with
    | some found => return some found
    | none => firstSome step items

theorem gives_firstSome {step : α → StateT σ (Except ε) (Option β)} {value : α → Option β}
    (h : ∀ item, Gives inv (step item) (value item)) (items : List α) :
    Gives inv (firstSome step items) (items.findSome? value) := by
  induction items with
  | nil => exact gives_pure none
  | cons item items ih =>
    refine (h item).bind ?_
    rw [List.findSome?_cons]
    cases value item with
    | none => exact ih
    | some found => exact gives_pure (some found)

/-- The results that there are, in order. -/
def collect (step : α → StateT σ (Except ε) (Option β)) : List α → StateT σ (Except ε) (List β)
  | [] => return []
  | item :: items => do
    let found ← step item
    let rest ← collect step items
    return found.toList ++ rest

theorem gives_collect {step : α → StateT σ (Except ε) (Option β)} {value : α → Option β}
    (h : ∀ item, Gives inv (step item) (value item)) (items : List α) :
    Gives inv (collect step items) (items.filterMap value) := by
  induction items with
  | nil => exact gives_pure []
  | cons item items ih =>
    refine (h item).bind (ih.bind ?_)
    rw [List.filterMap_cons]
    cases value item <;> exact gives_pure _

/-! ## Kept results -/

section Kept

variable {κ : Type} [DecidableEq κ]

/-- The kept result of the key, or else the one that is computed, which is kept then. The check
stops the computation before it begins. -/
def memoized (check : σ → Except ε σ) (compute : κ → α) (key : κ) :
    StateT (List (κ × α) × σ) (Except ε) α := fun state =>
  match state.1.lookup key with
  | some found => .ok (found, state)
  | none => do
    let next ← check state.2
    return (compute key, ((key, compute key) :: state.1, next))

/-- What is kept is what is computed. -/
def Kept (compute : κ → α) (state : List (κ × α) × σ) : Prop :=
  ∀ key found, state.1.lookup key = some found → found = compute key

theorem gives_memoized (check : σ → Except ε σ) (compute : κ → α) (key : κ) :
    Gives (Kept compute) (memoized check compute key) (compute key) := by
  intro state result next hkept h
  unfold memoized at h
  cases hlookup : state.1.lookup key with
  | some found =>
    rw [hlookup] at h
    cases h
    exact ⟨hkept key _ hlookup, hkept⟩
  | none =>
    rw [hlookup] at h
    obtain ⟨checked, -, hresult⟩ := Except.bind_eq_ok_iff.mp h
    cases hresult
    refine ⟨rfl, fun other found hother => ?_⟩
    dsimp only at hother
    rw [Assoc.lookup_cons_eq] at hother
    split_ifs at hother with heq
    · rw [heq]
      exact (Option.some.inj hother).symm
    · exact hkept other found hother

end Kept

end Agentless.Memo
