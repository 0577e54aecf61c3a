import Mathlib.Data.List.Infix
import Agentless.Library.Boundary

/-!
# Occurrences

The first place of a piece in a list, and the places of a piece in the bytes of a text: a piece that
is not empty starts with a byte that starts a character, so it stands on a boundary.
-/

namespace Agentless

/-- The first place of a piece in a list. -/
theorem findIdx?_tails_eq_some_iff {α : Type} [DecidableEq α] {piece items : List α} {i : Nat} :
    items.tails.findIdx? (piece.isPrefixOf ·) = some i ↔
      i ≤ items.length ∧ piece <+: items.drop i ∧ ∀ j < i, ¬ piece <+: items.drop j := by
  rw [List.findIdx?_eq_some_iff_getElem]
  simp only [List.getElem_tails, List.isPrefixOf_iff_prefix, List.length_tails,
    Order.lt_add_one_iff, exists_prop]

theorem findIdx?_tails_eq_none_iff {α : Type} [DecidableEq α] {piece items : List α} :
    items.tails.findIdx? (piece.isPrefixOf ·) = none ↔ ¬ piece <:+: items := by
  rw [List.findIdx?_eq_none_iff]
  simp only [List.mem_tails, Bool.eq_false_iff, ne_eq, List.isPrefixOf_iff_prefix]
  constructor
  · rintro hnone ⟨before, after, rfl⟩
    exact hnone (piece ++ after) ⟨before, by simp⟩ (List.prefix_append _ _)
  · rintro hnone tail htail hbefore
    exact hnone (hbefore.isInfix.trans htail.isInfix)

theorem utf8EncodeChar_append_inj {c d : Char} {x y : Bytes}
    (h : String.utf8EncodeChar c ++ x = String.utf8EncodeChar d ++ y) : c = d ∧ x = y := by
  have hdecode (c : Char) (x : Bytes) :
      ByteArray.utf8DecodeChar? (String.utf8EncodeChar c ++ x).toByteArray 0 = some c := by
    rw [List.toByteArray_append]
    exact ByteArray.utf8DecodeChar?_utf8EncodeChar_append
  have hc := hdecode c x
  rw [h, hdecode d y] at hc
  obtain rfl := Option.some.inj hc
  exact ⟨rfl, List.append_cancel_left h⟩

theorem utf8_prefix_iff {piece text : Text} : utf8 piece <+: utf8 text ↔ piece <+: text := by
  constructor
  · intro h
    induction piece generalizing text with
    | nil => exact List.nil_prefix
    | cons c piece ih =>
      obtain ⟨rest, hrest⟩ := h
      cases text with
      | nil => simp [utf8_cons, String.utf8EncodeChar_ne_nil] at hrest
      | cons d text =>
        rw [utf8_cons, utf8_cons, List.append_assoc] at hrest
        obtain ⟨rfl, hmore⟩ := utf8EncodeChar_append_inj hrest
        exact (List.prefix_cons_inj _).mpr (ih ⟨rest, hmore⟩)
  · rintro ⟨rest, rfl⟩
    rw [utf8_append]
    exact List.prefix_append _ _

/-- A byte that starts a character stands on a boundary. -/
theorem Boundary.of_startsChar {text : Text} {i : Nat} {byte : UInt8}
    (h : (utf8 text)[i]? = some byte) (hbyte : startsChar byte) : Boundary text i := by
  induction text generalizing i with
  | nil => cases h
  | cons c text ih =>
    obtain ⟨first, more, hencode, -, hmore⟩ := utf8EncodeChar_starts c
    rw [utf8_cons, hencode] at h
    cases i with
    | zero => exact .zero _
    | succ i =>
      rw [List.cons_append, List.getElem?_cons_succ] at h
      rcases Nat.lt_or_ge i more.length with hi | hi
      · rw [List.getElem?_append_left hi] at h
        exact absurd hbyte (hmore byte (List.mem_of_getElem? h))
      · rw [List.getElem?_append_right hi] at h
        obtain ⟨before, after, rfl, hbefore⟩ := ih h
        refine ⟨c :: before, after, rfl, ?_⟩
        rw [utf8_cons, hencode, List.length_append, List.length_cons]
        omega

/-- The bytes of a piece stand in those of a text where the piece stands in the text. -/
theorem utf8_prefix_drop_iff {piece text : Text} {i : Nat} (hpiece : piece ≠ []) :
    utf8 piece <+: (utf8 text).drop i ↔
      ∃ before after, text = before ++ after ∧ i = (utf8 before).length ∧ piece <+: after := by
  constructor
  · intro h
    have hboundary : Boundary text i := by
      cases piece with
      | nil => exact absurd rfl hpiece
      | cons c piece =>
        obtain ⟨first, more, hencode, hfirst, -⟩ := utf8EncodeChar_starts c
        obtain ⟨rest, hrest⟩ := h
        rw [utf8_cons, hencode] at hrest
        have hhead : (utf8 text)[i]? = some first := by
          rw [← List.head?_drop, ← hrest]
          rfl
        exact .of_startsChar hhead hfirst
    obtain ⟨before, after, rfl, rfl⟩ := hboundary
    rw [utf8_append, List.drop_left, utf8_prefix_iff] at h
    exact ⟨before, after, rfl, rfl, h⟩
  · rintro ⟨before, after, rfl, rfl, h⟩
    rw [utf8_append, List.drop_left, utf8_prefix_iff]
    exact h

end Agentless
