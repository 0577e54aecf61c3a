import Agentless.Library.Text

/-!
# Ordinals of repeats

Each item of a list with the number of times it has occurred so far. Items and ordinals together are
distinct, and they are all the ordinals from one to the number of occurrences.
-/

namespace Agentless.Ordinals

variable {α : Type} [DecidableEq α]

/-- The items with their ordinals, where `counts` are the occurrences before them. -/
def ordinalsFrom (counts : α → Nat) : List α → List (α × Nat)
  | [] => []
  | x :: items => (x, counts x + 1) :: ordinalsFrom (Function.update counts x (counts x + 1)) items

def ordinals (items : List α) : List (α × Nat) := ordinalsFrom (fun _ => 0) items

variable {counts : α → Nat} {items : List α} {x : α} {k : Nat}

@[simp] theorem map_fst_ordinalsFrom (counts : α → Nat) (items : List α) :
    (ordinalsFrom counts items).map Prod.fst = items := by
  induction items generalizing counts with
  | nil => rfl
  | cons x items ih => rw [ordinalsFrom, List.map_cons, ih]

variable [BEq α] [LawfulBEq α]

theorem mem_ordinalsFrom :
    (x, k) ∈ ordinalsFrom counts items ↔ counts x < k ∧ k ≤ counts x + items.count x := by
  induction items generalizing counts with
  | nil =>
    rw [ordinalsFrom, List.count_nil]
    grind
  | cons y items ih =>
    rw [ordinalsFrom, List.mem_cons, ih, List.count_cons, Prod.mk.injEq]
    by_cases h : x = y
    · subst h
      rw [Function.update_self, beq_self_eq_true, if_pos rfl]
      grind
    · rw [Function.update_of_ne h, if_neg (by simpa using Ne.symm h)]
      grind

theorem nodup_ordinalsFrom : (ordinalsFrom counts items).Nodup := by
  induction items generalizing counts with
  | nil => exact List.nodup_nil
  | cons x items ih =>
    rw [ordinalsFrom, List.nodup_cons, mem_ordinalsFrom, Function.update_self]
    exact ⟨fun h => absurd h.1 (lt_irrefl _), ih⟩

theorem mem_ordinals : (x, k) ∈ ordinals items ↔ 0 < k ∧ k ≤ items.count x := by
  rw [ordinals, mem_ordinalsFrom, Nat.zero_add]

theorem nodup_ordinals (items : List α) : (ordinals items).Nodup := nodup_ordinalsFrom

/-- Names that are made of items and ordinals are distinct when no two of them are the same. -/
theorem nodup_map_ordinals {β : Type} (name : α × Nat → β) :
    ((ordinals items).map name).Nodup ↔
      ∀ x k y l, 0 < k → k ≤ items.count x → 0 < l → l ≤ items.count y → name (x, k) = name (y, l) →
        x = y ∧ k = l := by
  rw [List.nodup_map_iff_inj_on (nodup_ordinals items)]
  constructor
  · intro h x k y l hk hkx hl hly hname
    have hsame := h (x, k) (mem_ordinals.mpr ⟨hk, hkx⟩) (y, l) (mem_ordinals.mpr ⟨hl, hly⟩) hname
    exact Prod.mk.inj hsame
  · rintro h ⟨x, k⟩ hx ⟨y, l⟩ hy hname
    obtain ⟨hk, hkx⟩ := mem_ordinals.mp hx
    obtain ⟨hl, hly⟩ := mem_ordinals.mp hy
    obtain ⟨rfl, rfl⟩ := h x k y l hk hkx hl hly hname
    rfl

end Agentless.Ordinals
