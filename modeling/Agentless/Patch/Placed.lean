import Agentless.Patch.Apply
import Agentless.Patch.Hunks

/-!
# When an applied edit makes the change its hunk states

1. An edit that applies replaces the one occurrence of the lines it searches for.
2. The lines it searches for are the hunk's pre-image, and the lines it writes the hunk's
   post-image, unless a side starts with an elision line or holds no line at all.
-/

namespace Agentless.Patch

open Text

/-! ## Replacing whole lines -/

theorem pad_joinLines {lines : List Text} (h : lines ≠ []) :
    pad (joinLines lines) = started lines ++ ['\n'] := by
  rw [pad, started_eq_cons h, List.cons_append]

theorem pad_eq (text : Text) : pad text = started (splitLines text) ++ ['\n'] := by
  rw [← pad_joinLines (splitLines_ne_nil text), joinLines_splitLines]

theorem slice_pad (text : Text) : slice (pad text) 1 ((pad text).length - 1) = text := by
  simp [slice, pad]

theorem spliced_eq (before after : List Text) {block lines : List Text} (hblock : block ≠ []) (hlines : lines ≠ []) :
    spliced (started (before ++ block ++ after) ++ ['\n']) (joinLines block) (joinLines lines)
        (started before).length =
      joinLines (before ++ lines ++ after) := by
  obtain ⟨tail, htail⟩ := exists_started_concat after
  have hwhole : started (before ++ block ++ after) ++ ['\n'] =
      started before ++ (started block ++ '\n' :: tail) := by
    simp only [started_append, List.append_assoc, htail]
  have hstop : (started before).length + (joinLines block).length + 2 =
      (started before).length + ((started block).length + 1) := by
    rw [started_eq_cons hblock, List.length_cons]
    omega
  have hupdated : (started before ++ (started block ++ '\n' :: tail)).take (started before).length ++
      pad (joinLines lines) ++ (started before ++ (started block ++ '\n' :: tail)).drop
        ((started before).length + ((started block).length + 1)) =
      pad (joinLines (before ++ lines ++ after)) := by
    rw [List.take_left, List.drop_append, List.drop_append, pad_joinLines hlines,
      pad_joinLines (by simp [hlines]), started_append, started_append, List.append_assoc _ _ ['\n'],
      htail]
    simp [List.drop_eq_nil_of_le]
  unfold spliced
  dsimp only
  rw [hwhole, hstop, hupdated, slice_pad]

/-- What applying an edit did: the lines it searched for stood in one place, and were replaced. -/
structure Replaced (search replace : List Text) (old new : Text) (before after : List Text) :
    Prop where
  split : splitLines old = before ++ search ++ after
  unique : ∀ before' after', splitLines old = before' ++ search ++ after' → before' = before
  result : new = joinLines (before ++ replace ++ after)

theorem placed_changed {quoted : Text → Text} {edit : Edit} {content reason text : Text}
    (h : placed quoted edit content = .changed reason text) :
    edit.search ≠ [] ∧ ∃ elided, resolveElisions edit.search edit.replace content = .ok elided ∧
      ∃ before after,
        Replaced (splitLines elided.search) (splitLines elided.replace) content text before after := by
  unfold placed at h
  split at h
  · simp at h
  · rename_i hsearch
    split at h
    · simp at h
    · rename_i search replace hresolved
      dsimp only at h
      split at h
      · simp at h
      · rename_i at_ hstarts
        obtain ⟨-, rfl⟩ := Placed.changed.inj h
        have hne := splitLines_ne_nil search
        have hstarts' := hstarts
        rw [wholeLineStarts, pad_eq search, pad_eq content, offsets_started hne
          (unbroken_splitLines search) (unbroken_splitLines content)] at hstarts'
        obtain ⟨before, after, hsplit, rfl, hunique⟩ := split_of_occurrences hne hstarts'
        refine ⟨hsearch, ⟨search, replace⟩, hresolved, before, after, hsplit, hunique, ?_⟩
        have hspliced := spliced_eq before after hne (splitLines_ne_nil replace)
        rw [joinLines_splitLines, joinLines_splitLines] at hspliced
        rw [pad_eq content, hsplit, Nat.zero_add, hspliced]
      · simp at h

/-! ## Elided sides -/

/-- The side starts with an elision line that the edit format drops. -/
def Elides (lines : List Text) : Prop := lines.head? = some elision ∧ joinLines lines.tail ≠ []

instance (lines : List Text) : Decidable (Elides lines) := inferInstanceAs (Decidable (_ ∧ _))

def unelided (lines : List Text) : List Text := if Elides lines then lines.tail else lines

theorem Elides.cons {lines : List Text} (h : Elides lines) : lines = elision :: lines.tail := by
  obtain ⟨hhead, -⟩ := h
  cases lines with
  | nil => simp at hhead
  | cons line lines => simp_all

theorem unelided_ne_nil {lines : List Text} (h : lines ≠ []) : unelided lines ≠ [] := by
  unfold unelided
  split
  · rename_i helides
    intro htail
    exact helides.2 (by simp [htail])
  · exact h

theorem length_unelided (lines : List Text) :
    lines.length = (unelided lines).length + if Elides lines then 1 else 0 := by
  unfold unelided
  split
  · rename_i helides
    rw [helides.cons]
    rfl
  · rfl

theorem unbroken_unelided {lines : List Text} (h : Unbroken lines) : Unbroken (unelided lines) := by
  unfold unelided
  split
  · exact fun line hline => h line (List.mem_of_mem_tail hline)
  · exact h

/-- Dropping the elision from the text is dropping the elision line. -/
theorem withoutPrefix_joinLines {lines : List Text} (h : Unbroken lines) :
    withoutPrefix (joinLines lines) = joinLines (unelided lines) := by
  match lines with
  | [] => rfl
  | [line] =>
    have hnone : stripPrefix elisionPrefix line = none := by
      rw [Option.eq_none_iff_forall_ne_some]
      intro rest hrest
      rw [stripPrefix_eq_some] at hrest
      exact h line (by simp) (by simp [hrest, elisionPrefix])
    have hkept : ¬ Elides [line] := fun helides => helides.2 rfl
    simp [withoutPrefix, hnone, unelided, hkept]
  | line :: next :: lines =>
    have hline := (List.forall_mem_cons.mp h).1
    have hopener : elisionPrefix = elision ++ ['\n'] := rfl
    rw [joinLines_cons (by simp)]
    by_cases heq : line = elision
    · subst heq
      have hstrip : stripPrefix elisionPrefix (elision ++ '\n' :: joinLines (next :: lines)) =
          some (joinLines (next :: lines)) := by
        rw [stripPrefix_eq_some, hopener]
        simp
      unfold withoutPrefix
      rw [hstrip]
      by_cases hrest : joinLines (next :: lines) = []
      · have hkept : ¬ Elides (elision :: next :: lines) := fun helides => helides.2 hrest
        simp [unelided, hkept, hrest, joinLines_cons]
      · have hdropped : Elides (elision :: next :: lines) := ⟨rfl, hrest⟩
        simp [unelided, hdropped, hrest]
    · have hnone : stripPrefix elisionPrefix (line ++ '\n' :: joinLines (next :: lines)) = none := by
        rw [Option.eq_none_iff_forall_ne_some]
        intro rest hrest
        rw [stripPrefix_eq_some, hopener, List.append_assoc, List.singleton_append] at hrest
        have hpre : elision ++ '\n' :: rest <+: line ++ '\n' :: joinLines (next :: lines) := by
          rw [hrest]
        exact heq ((line_cancel (by decide) hline).mp hpre).1.symm
      have hkept : ¬ Elides (line :: next :: lines) := fun helides => heq (by simpa using helides.1)
      simp [withoutPrefix, hnone, unelided, hkept, joinLines_cons]

/-! ## The change of a hunk -/

/-- The file changed as the hunk says: the one occurrence of its pre-image became its
post-image. -/
def Hunk.Changes (hunk : Hunk) (old new : Text) : Prop :=
  ∃ before after, Replaced hunk.pre hunk.post old new before after

/-- The rules of the edit format leave the hunk as it is: its pre-image is not a bare elision,
both sides or none start with an elision line, which then stands in the file too, and its
post-image holds a line or the whole file goes. -/
structure Hunk.Plain (hunk : Hunk) (old : Text) : Prop where
  notBare : hunk.pre ≠ [elision]
  bothElide : Elides hunk.pre ↔ Elides hunk.post
  elisionStands : Elides hunk.pre → hunk.pre <:+: splitLines old
  keepsLine : hunk.post = [] → splitLines old = hunk.pre

namespace Replaced

variable {search replace before after : List Text} {old new : Text}

theorem splitLines_new (h : Replaced search replace old new before after)
    (hreplace : Unbroken replace) (hne : before ++ replace ++ after ≠ []) :
    splitLines new = before ++ replace ++ after := by
  have hold := unbroken_splitLines old
  rw [h.split, unbroken_append, unbroken_append] at hold
  rw [h.result, splitLines_joinLines hne]
  rw [unbroken_append, unbroken_append]
  exact ⟨⟨hold.1.1, hreplace⟩, hold.2⟩

theorem length_new (h : Replaced search replace old new before after)
    (hreplace : Unbroken replace) (hne : before ++ replace ++ after ≠ []) :
    (splitLines new).length + search.length = (splitLines old).length + replace.length := by
  rw [h.splitLines_new hreplace hne, h.split]
  simp only [List.length_append]
  omega

end Replaced

/-- The lines that an edit writes for a post-image. -/
theorem splitLines_joinLines_unelided {lines : List Text} (h : Unbroken lines) :
    splitLines (joinLines (unelided lines)) = if lines = [] then [[]] else unelided lines := by
  split
  · rename_i hnil
    subst hnil
    rfl
  · rename_i hne
    exact splitLines_joinLines (unelided_ne_nil hne) (unbroken_unelided h)

/-- A bare elision inserts above a line that it finds itself. -/
theorem resolveElisions_bare {replace content : Text} {elided : Elided}
    (h : resolveElisions elision replace content = .ok elided) :
    withoutPrefix replace ≠ [] ∧ ∃ anchor, splitLines elided.search = [anchor] ∧
      splitLines elided.replace = splitLines (withoutPrefix replace) ++ [[], anchor] := by
  unfold resolveElisions at h
  dsimp only at h
  rw [if_pos rfl] at h
  split at h
  · simp at h
  · rename_i hstart
    split at h
    · simp at h
    · rename_i anchor hanchor
      obtain rfl := Except.ok.inj h
      have hline : '\n' ∉ anchor :=
        unbroken_splitLines content anchor (List.mem_of_find?_eq_some hanchor)
      refine ⟨fun hnil => hstart (by simp [hnil]), anchor, ?_, ?_⟩
      · exact splitLines_line hline
      · have hjoin : withoutPrefix replace ++ "\n\n".toList ++ anchor =
            joinLines (splitLines (withoutPrefix replace) ++ [[], anchor]) := by
          rw [joinLines_append (splitLines_ne_nil _) (by simp), joinLines_splitLines,
            joinLines_cons (by simp), joinLines_singleton]
          simp
        rw [hjoin, splitLines_joinLines (by simp)]
        refine unbroken_append.mpr ⟨unbroken_splitLines _, ?_⟩
        simpa [Unbroken] using hline

section Changes

variable {quoted : Text → Text} {hunk : Hunk} {old new reason : Text}

theorem Hunk.edit_search_eq (hsound : hunk.Sound) (hsearch : hunk.edit.search ≠ []) :
    hunk.edit.search = elision ↔ hunk.pre = [elision] := by
  have hpre : hunk.pre ≠ [] := fun hnil => hsearch (by simp [Hunk.edit, hnil])
  have hjoin : elision = joinLines [elision] := rfl
  show joinLines hunk.pre = elision ↔ _
  rw [hjoin, joinLines_inj hpre (by simp) hsound.preLines (by simp [Unbroken, elision])]
  rfl

theorem Hunk.not_changes_of_bare (hsound : hunk.Sound) (hbare : hunk.pre = [elision])
    (h : placed quoted hunk.edit old = .changed reason new) : ¬ hunk.Changes old new := by
  rintro ⟨before', after', hchanges⟩
  obtain ⟨hsearch, elided, hresolved, before, after, hreplaced⟩ := placed_changed h
  rw [(Hunk.edit_search_eq hsound hsearch).mpr hbare] at hresolved
  obtain ⟨hwrites, anchor, hanchor, hlines⟩ := resolveElisions_bare hresolved
  have hpost : hunk.post ≠ [] := by
    intro hnil
    exact hwrites (by simp [Hunk.edit, hnil]; rfl)
  have hlength := hreplaced.length_new (unbroken_splitLines _) (by simp [hlines])
  have hlength' := hchanges.length_new hsound.postLines (by simp [hpost])
  have hunelided := length_unelided hunk.post
  rw [hanchor, hlines, Hunk.edit, withoutPrefix_joinLines hsound.postLines,
    splitLines_joinLines_unelided hsound.postLines, if_neg hpost] at hlength
  simp only [List.length_append, List.length_cons, List.length_nil, hbare] at hlength hlength'
  split at hunelided <;> omega

/-- Any other hunk searches for its pre-image and writes its post-image, less elision lines. -/
theorem Hunk.replaced_of_changed (hsound : hunk.Sound) (hbare : hunk.pre ≠ [elision])
    (h : placed quoted hunk.edit old = .changed reason new) :
    hunk.pre ≠ [] ∧ ∃ before after, Replaced (unelided hunk.pre)
      (if hunk.post = [] then [[]] else unelided hunk.post) old new before after := by
  obtain ⟨hsearch, elided, hresolved, before, after, hreplaced⟩ := placed_changed h
  have hpre : hunk.pre ≠ [] := fun hnil => hsearch (by simp [Hunk.edit, hnil])
  rw [resolveElisions, if_neg ((Hunk.edit_search_eq hsound hsearch).not.mpr hbare)] at hresolved
  obtain rfl := Except.ok.inj hresolved
  simp only [Hunk.edit, withoutPrefix_joinLines hsound.preLines,
    withoutPrefix_joinLines hsound.postLines, splitLines_joinLines_unelided hsound.preLines,
    splitLines_joinLines_unelided hsound.postLines, if_neg hpre] at hreplaced
  exact ⟨hpre, before, after, hreplaced⟩

/-- Two edits of one text that give one text add as many lines. -/
theorem Hunk.plain_of_changes (hsound : hunk.Sound)
    (h : placed quoted hunk.edit old = .changed reason new) (hchanges : hunk.Changes old new) :
    hunk.Plain old := by
  have hbare : hunk.pre ≠ [elision] := fun hbare =>
    Hunk.not_changes_of_bare hsound hbare h hchanges
  obtain ⟨hpre, before, after, hreplaced⟩ := Hunk.replaced_of_changed hsound hbare h
  obtain ⟨before', after', hchanges⟩ := hchanges
  have hstands : hunk.pre <:+: splitLines old := ⟨before', after', hchanges.split.symm⟩
  have hpreLength := length_unelided hunk.pre
  have hpostLength := length_unelided hunk.post
  by_cases hpost : hunk.post = []
  · have hkept : ¬ Elides hunk.post := by simp [hpost, Elides]
    rw [if_pos hpost] at hreplaced
    have hlength := hreplaced.length_new (by simp [Unbroken]) (by simp)
    by_cases hwhole : before' ++ after' = []
    · -- nothing is left, so the new text is empty and its one line is the line that was written
      obtain ⟨rfl, rfl⟩ := List.append_eq_nil_iff.mp hwhole
      have hold : splitLines old = hunk.pre := by simpa using hchanges.split
      have hnew : new = [] := by simpa [hpost] using hchanges.result
      have hkeeps : ¬ Elides hunk.pre := by
        intro helides
        rw [hold, hnew] at hlength
        simp [helides, splitLines] at hlength hpreLength
        omega
      exact ⟨hbare, by simp [hkept, hkeeps], fun _ => hstands, fun _ => hold⟩
    · have hlength' := hchanges.length_new hsound.postLines (by simpa [hpost] using hwhole)
      rw [hpost, List.length_nil] at hlength'
      rw [List.length_singleton] at hlength
      omega
  · rw [if_neg hpost] at hreplaced
    have hunelided := unelided_ne_nil hpost
    have hlength := hreplaced.length_new (unbroken_unelided hsound.postLines) (by simp [hunelided])
    have hlength' := hchanges.length_new hsound.postLines (by simp [hpost])
    refine ⟨hbare, ?_, fun _ => hstands, fun hnil => absurd hnil hpost⟩
    by_cases hl : Elides hunk.pre <;> by_cases hr : Elides hunk.post <;>
      simp [hl, hr] at hpreLength hpostLength ⊢ <;> omega

theorem Hunk.changes_of_plain (hsound : hunk.Sound)
    (h : placed quoted hunk.edit old = .changed reason new) (hplain : hunk.Plain old) :
    hunk.Changes old new := by
  obtain ⟨hbare, hboth, hstands, hkeeps⟩ := hplain
  obtain ⟨hpre, before, after, hreplaced⟩ := Hunk.replaced_of_changed hsound hbare h
  obtain ⟨hsplit, hunique, hresult⟩ := hreplaced
  by_cases helides : Elides hunk.pre
  · have hpostElides := hboth.mp helides
    have hpost : hunk.post ≠ [] := by
      rw [hpostElides.cons]
      simp
    obtain ⟨before', after', hsplit'⟩ := hstands helides
    rw [if_neg hpost] at hresult
    simp only [unelided, if_pos helides, if_pos hpostElides] at hsplit hunique hresult
    -- the elision line before the match is the last line of what stands before it
    have hshift {start rest : List Text} (heq : splitLines old = start ++ hunk.pre ++ rest) :
        start ++ [elision] = before := by
      refine hunique _ rest ?_
      rw [heq, helides.cons]
      simp
    have hbefore := hshift hsplit'.symm
    have hafter : after' = after := by
      rw [← hbefore, ← hsplit', helides.cons] at hsplit
      simpa using hsplit
    refine ⟨before', after', hsplit'.symm, fun start rest heq => ?_, ?_⟩
    · exact List.append_cancel_right ((hshift heq).trans hbefore.symm)
    · rw [hresult, ← hbefore, ← hafter, hpostElides.cons]
      simp
  · have hpostKept : ¬ Elides hunk.post := hboth.not.mp helides
    simp only [unelided, if_neg helides, if_neg hpostKept] at hsplit hunique hresult
    refine ⟨before, after, hsplit, hunique, ?_⟩
    by_cases hpost : hunk.post = []
    · have hnone : before ++ after = [] := by
        have hlength := congrArg List.length (hsplit.symm.trans (hkeeps hpost))
        simp only [List.length_append] at hlength
        rw [← List.length_eq_zero_iff, List.length_append]
        omega
      obtain ⟨rfl, rfl⟩ := List.append_eq_nil_iff.mp hnone
      simpa [hpost] using hresult
    · simpa [hpost] using hresult

/-- An edit that applies makes the change of its hunk exactly when the hunk is plain. -/
theorem Hunk.changes_iff (hsound : hunk.Sound)
    (h : placed quoted hunk.edit old = .changed reason new) :
    hunk.Changes old new ↔ hunk.Plain old :=
  ⟨Hunk.plain_of_changes hsound h, Hunk.changes_of_plain hsound h⟩

end Changes

end Agentless.Patch
