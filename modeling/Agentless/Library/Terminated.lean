import Mathlib.Data.List.Basic

/-!
# Fields that a mark ends

A framed text writes each field with a mark after it. The marks alone give the fields back, and a
prefix of a framed text is some whole fields with the beginning of the next one behind them.
-/

namespace Agentless.Terminated

variable {α : Type} {stop : α} {fields : List (List α)} {part text : List α}

/-- Each field with the mark after it. -/
def terminated (stop : α) (fields : List (List α)) : List α := fields.flatMap (· ++ [stop])

@[simp] theorem terminated_nil : terminated stop [] = [] := rfl

@[simp] theorem terminated_cons (field : List α) (fields : List (List α)) :
    terminated stop (field :: fields) = field ++ stop :: terminated stop fields := by
  simp [terminated]

@[simp] theorem terminated_append (fields more : List (List α)) :
    terminated stop (fields ++ more) = terminated stop fields ++ terminated stop more :=
  List.flatMap_append

/-- What is cut off behind whole fields is a field of its own. -/
theorem splitOn_terminated_append [DecidableEq α] (hfields : ∀ field ∈ fields, stop ∉ field)
    (hpart : stop ∉ part) :
    (terminated stop fields ++ part).splitOn stop = fields ++ [part] := by
  induction fields with
  | nil => simpa using List.splitOn_eq_singleton hpart
  | cons field fields ih =>
    obtain ⟨hfield, hfields⟩ := List.forall_mem_cons.mp hfields
    rw [terminated_cons, List.append_assoc, List.cons_append,
      List.splitOn_append_cons_self_of_not_mem hfield, ih hfields, List.cons_append]

/-- A prefix of a framed text ends inside one field, or at the end. -/
theorem exists_of_prefix (h : text <+: terminated stop fields) :
    ∃ before part, text = terminated stop before ++ part ∧
      (before = fields ∧ part = [] ∨
        ∃ field after, fields = before ++ field :: after ∧ part <+: field) := by
  induction fields generalizing text with
  | nil => exact ⟨[], text, rfl, .inl ⟨rfl, List.prefix_nil.mp h⟩⟩
  | cons field fields ih =>
    obtain ⟨rest, hrest⟩ := h
    rw [terminated_cons] at hrest
    rcases List.append_eq_append_iff.mp hrest with ⟨left, rfl, -⟩ | ⟨behind, rfl, hbehind⟩
    · exact ⟨[], text, rfl, .inr ⟨_, fields, rfl, List.prefix_append _ _⟩⟩
    · cases behind with
      | nil => exact ⟨[], _, rfl, .inr ⟨field, fields, rfl, [], by simp⟩⟩
      | cons mark behind =>
        obtain ⟨rfl, hmore⟩ := List.cons.inj hbehind
        obtain ⟨before, part, rfl, hend⟩ := ih ⟨rest, hmore.symm⟩
        refine ⟨field :: before, part, by simp, hend.imp ?_ ?_⟩
        · rintro ⟨rfl, rfl⟩
          exact ⟨rfl, rfl⟩
        · rintro ⟨next, after, rfl, hpart⟩
          exact ⟨next, after, rfl, hpart⟩

/-- What a joined text holds is in a separator or in a piece. -/
theorem mem_or_mem_of_mem_intercalate {separator : List α} {pieces : List (List α)} {item : α}
    (h : item ∈ separator.intercalate pieces) :
    item ∈ separator ∨ ∃ piece ∈ pieces, item ∈ piece := by
  induction pieces with
  | nil => cases h
  | cons first pieces ih =>
    rcases eq_or_ne pieces [] with rfl | hne
    · exact .inr ⟨first, List.mem_singleton_self _, by simpa using h⟩
    · rw [List.intercalate_cons_of_ne_nil hne, List.mem_append, List.mem_append] at h
      rcases h with (hfirst | hseparator) | hrest
      · exact .inr ⟨first, List.mem_cons_self, hfirst⟩
      · exact .inl hseparator
      · exact (ih hrest).imp_right fun ⟨piece, hpiece, hitem⟩ =>
          ⟨piece, List.mem_cons_of_mem _ hpiece, hitem⟩

theorem sublist_intercalate {separator piece : List α} {pieces : List (List α)} (h : piece ∈ pieces) :
    piece.Sublist (separator.intercalate pieces) := by
  induction pieces with
  | nil => cases h
  | cons first pieces ih =>
    cases pieces with
    | nil =>
      obtain rfl := List.mem_singleton.mp h
      simp
    | cons next pieces =>
      rw [List.intercalate_cons_cons]
      rcases List.mem_cons.mp h with rfl | hmore
      · exact (List.sublist_append_left _ _).trans (List.sublist_append_left _ _)
      · exact (ih hmore).trans (List.sublist_append_right _ _)

theorem length_le_of_mem_splitOn [DecidableEq α] {piece : List α} (h : piece ∈ text.splitOn stop) :
    piece.length ≤ text.length := by
  have hsublist : piece.Sublist ([stop].intercalate (text.splitOn stop)) := sublist_intercalate h
  rw [List.intercalate_splitOn] at hsublist
  exact hsublist.length_le

end Agentless.Terminated
