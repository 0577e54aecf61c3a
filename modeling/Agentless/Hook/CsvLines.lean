import Agentless.Hook.Csv

/-!
# The lines of a labeling file

However the file falls into chunks, its lines are those of its text. A file that is not UTF-8 gives
lines of the text before its first bad byte, then one error.
-/


namespace Agentless.Hook.Csv

/-! ## Lines of a text -/

variable {text : Text} {stop : Nat}

/-- The lines of a text with their endings: LF, CRLF and a CR that no LF follows end a line. -/
def cut : Text → List Text
  | [] => []
  | c :: text =>
    if c = '\n' ∨ c = '\r' ∧ text.head? ≠ some '\n' then [c] :: cut text
    else
      match cut text with
      | [] => [[c]]
      | line :: lines => (c :: line) :: lines

@[simp] theorem cut_eq_nil : cut text = [] ↔ text = [] := by
  cases text with
  | nil => simp [cut]
  | cons c text => grind [cut]

theorem cut_newline {c : Char} (h : c = '\n' ∨ c = '\r' ∧ text.head? ≠ some '\n') :
    cut (c :: text) = [c] :: cut text := by
  simp [cut, h]

theorem cut_crlf (text : Text) : cut ('\r' :: '\n' :: text) = ['\r', '\n'] :: cut text := by
  simp [cut]

theorem cut_char {line : Text} {lines : List Text} {c : Char}
    (hc : ¬(c = '\n' ∨ c = '\r' ∧ text.head? ≠ some '\n'))
    (h : cut text = line :: lines) : cut (c :: text) = (c :: line) :: lines := by
  rw [cut, if_neg hc, h]

theorem lineEnd_cons (c : Char) (text : Text) :
    lineEnd (c :: text) =
      if c = '\r' ∨ c = '\n' then some (if c = '\r' ∧ text.head? = some '\n' then 2 else 1)
      else (lineEnd text).map (· + 1) := by
  unfold lineEnd
  rw [List.findIdx?_cons]
  by_cases hc : c = '\r' ∨ c = '\n'
  · cases text with
    | nil => simp_all
    | cons next text =>
      simp_all
      grind
  · simp only [hc, if_false, Option.map_map]
    cases hfind : text.findIdx? fun c => decide (c = '\r') || decide (c = '\n') with
    | none => simp_all
    | some at_ => simp_all; grind

theorem cut_of_lineEnd (h : lineEnd text = some stop) :
    cut text = text.take stop :: cut (text.drop stop) := by
  induction text generalizing stop with
  | nil => exact absurd rfl (Lines.lineEnd_pos h).2
  | cons c text ih =>
    rw [lineEnd_cons] at h
    split_ifs at h with hc hcrlf
    · obtain rfl := Option.some.inj h
      obtain ⟨rfl, hhead⟩ := hcrlf
      obtain ⟨text, rfl⟩ : ∃ more, text = '\n' :: more := by cases text <;> simp_all
      exact cut_crlf text
    · obtain rfl := Option.some.inj h
      exact cut_newline (by grind)
    · obtain ⟨stop, hstop, rfl⟩ := Option.map_eq_some_iff.mp h
      exact cut_char (by grind) (ih hstop)

theorem cut_of_none (h : lineEnd text = none) : cut text = if text = [] then [] else [text] := by
  induction text with
  | nil => rfl
  | cons c text ih =>
    rw [lineEnd_cons] at h
    split_ifs at h with hc
    have htext := ih (by simpa using h)
    cases text with
    | nil => grind [cut]
    | cons => exact cut_char (by grind) (by simpa using htext)

theorem lineEnd_le (h : lineEnd text = some stop) : stop ≤ text.length := by
  induction text generalizing stop with
  | nil => exact absurd rfl (Lines.lineEnd_pos h).2
  | cons c text ih =>
    rw [lineEnd_cons] at h
    split_ifs at h with hc hcrlf
    · cases text <;> grind
    · grind
    · obtain ⟨stop, hstop, rfl⟩ := Option.map_eq_some_iff.mp h
      exact Nat.succ_le_succ (ih hstop)

/-- More text leaves the first line as it is, unless it completes a CRLF. -/
theorem lineEnd_append {more : Text} (h : lineEnd text = some stop)
    (hmore : text.getLast? = some '\r' → more.head? ≠ some '\n') :
    lineEnd (text ++ more) = some stop := by
  induction text generalizing stop with
  | nil => exact absurd rfl (Lines.lineEnd_pos h).2
  | cons c text ih =>
    rw [lineEnd_cons] at h
    rw [List.cons_append, lineEnd_cons]
    have hnil : lineEnd [] = none := rfl
    cases text with
    | nil => cases more <;> grind
    | cons next text =>
      by_cases hc : c = '\r' ∨ c = '\n'
      · simpa [hc] using h
      · rw [if_neg hc] at h ⊢
        obtain ⟨stop, hstop, rfl⟩ := Option.map_eq_some_iff.mp h
        rw [ih hstop (by simpa using hmore), Option.map_some]

/-! ## Lines of a file -/

theorem firstChar_of_append {bytes more : Bytes} (h : firstChar (bytes ++ more) = none) :
    firstChar bytes = none := by
  cases hfirst : firstChar bytes with
  | none => rfl
  | some c =>
    obtain ⟨rest, rfl⟩ := firstChar_eq_some_iff.mp hfirst
    rw [List.append_assoc, firstChar_append] at h
    exact absurd h (by simp)

theorem eq_nil_of_firstChar {text : Text} (h : firstChar (utf8 text) = none) : text = [] := by
  cases text with
  | nil => rfl
  | cons c text =>
    rw [utf8_cons, firstChar_append] at h
    exact absurd h (by simp)

namespace Lines

/-- The lines are those of `remaining`, which the bytes `bad` follow, where no character stands. -/
structure Reads (lines : Lines) (remaining : Text) (bad : Bytes) : Prop where
  kept : ∃ future, lines.pending ++ lines.rest = utf8 future ++ bad ∧
    remaining = lines.text ++ (crOf lines.heldCr ++ future)
  bad : firstChar bad = none
  cr : lines.text.getLast? = some '\r' → lines.heldCr = true ∨ lines.ended = true
  ended : lines.ended = true → lines.pending = [] ∧ lines.rest = [] ∧ lines.heldCr = false
  failed : lines.failed = false

theorem reads_new {bytes bad : Bytes} {text : Text} (h : bytes = utf8 text ++ bad)
    (hbad : firstChar bad = none) : Reads { rest := bytes } text bad where
  kept := ⟨text, by simpa using h, rfl⟩
  bad := hbad
  cr := by simp
  ended := by simp
  failed := rfl

namespace Reads

variable {lines after : Lines} {remaining : Text} {bad : Bytes} {chunk : Nat}

/-- Once the file has ended, what is left is in the text. -/
theorem remaining_eq (h : Reads lines remaining bad) (hended : lines.ended = true) :
    remaining = lines.text ∧ bad = [] := by
  obtain ⟨future, hbytes, hremaining⟩ := h.kept
  obtain ⟨hpending, hrest, hcr⟩ := h.ended hended
  rw [hpending, hrest] at hbytes
  obtain ⟨hfuture, hbad⟩ := List.append_eq_nil_iff.mp hbytes.symm
  have hnil : future = [] := eq_nil_of_firstChar (by rw [hfuture, firstChar_nil])
  simp [hremaining, hcr, hnil, hbad, crOf]

theorem take_line (h : Reads lines remaining bad) (hstop : lineEnd lines.text = some stop) :
    cut remaining = lines.text.take stop :: cut (remaining.drop stop) ∧
      Reads { lines with text := lines.text.drop stop } (remaining.drop stop) bad := by
  obtain ⟨future, hbytes, hremaining⟩ := h.kept
  have hle := lineEnd_le hstop
  have hend : lineEnd remaining = some stop := by
    rw [hremaining]
    apply lineEnd_append hstop
    intro hcr
    rcases h.cr hcr with hheld | hended
    · simp [hheld, crOf]
    · have htext := (h.remaining_eq hended).1
      rw [htext] at hremaining
      simp [List.self_eq_append_right.mp hremaining]
  constructor
  · rw [cut_of_lineEnd hend, hremaining, List.take_append_of_le_length hle]
  · refine ⟨⟨future, hbytes, ?_⟩, h.bad, ?_, h.ended, h.failed⟩
    · rw [hremaining, List.drop_append_of_le_length hle]
    · intro hcr
      apply h.cr
      rw [List.getLast?_drop] at hcr
      grind

theorem decoded_chunk (h : Reads lines remaining bad) (hchunk : 0 < chunk)
    (hended : lines.ended = false) {text future : Text} {tail : Bytes}
    (hremaining : remaining = lines.text ++ (crOf lines.heldCr ++ (text ++ future)))
    (hbytes : tail ++ lines.rest.drop chunk = utf8 future ++ bad)
    (hlast : (lines.rest.take chunk).isEmpty = true → tail = [])
    (hread : incremental (lines.pending ++ lines.rest.take chunk) (lines.rest.take chunk).isEmpty =
      .ok (text, tail)) :
    ∃ after, decodeChunk chunk lines = .ok after ∧ Reads after remaining bad := by
  set last := (lines.rest.take chunk).isEmpty with hdef
  have hkept := release_eq last lines.heldCr text
  have hcr := @release_cr last lines.heldCr text
  refine ⟨_, by simp only [decodeChunk, ← hdef, hread]; rfl, ?_⟩
  refine ⟨⟨future, hbytes, ?_⟩, h.bad, ?_, ?_, h.failed⟩
  · dsimp only
    rw [hremaining, ← List.append_assoc (crOf _), ← hkept]
    simp only [List.append_assoc]
  · dsimp only
    intro hend
    by_cases hheld : (release last lines.heldCr text).2 = true
    · exact Or.inl hheld
    · rw [Bool.not_eq_true] at hheld
      refine Or.inr ((hcr hheld).resolve_right fun hne => hne ?_)
      have hpushed : (release last lines.heldCr text).1 ≠ [] := by
        intro hnil
        have hold := h.cr
        rw [hnil, hheld] at hkept
        rw [hnil, List.append_nil] at hend
        simp_all [crOf]
      rwa [List.getLast?_append_of_ne_nil _ hpushed] at hend
  · dsimp only
    intro hend
    have hempty : lines.rest = [] := by
      rw [hdef, List.isEmpty_iff, List.take_eq_nil_iff] at hend
      grind
    refine ⟨hlast hend, by simp [hempty], ?_⟩
    rw [hend]
    simp [release]

/-- The next chunk is decoded, or it holds bad bytes. -/
theorem decodeChunk_cases (h : Reads lines remaining bad) (hchunk : 0 < chunk)
    (hended : lines.ended = false) :
    (∃ after, decodeChunk chunk lines = .ok after ∧ Reads after remaining bad) ∨
      bad ≠ [] ∧ ∃ message, decodeChunk chunk lines = .error message := by
  obtain ⟨future, hbytes, hremaining⟩ := h.kept
  have hlast : (lines.rest.take chunk).isEmpty = true → lines.rest.drop chunk = [] := by
    intro hempty
    rw [List.isEmpty_iff, List.take_eq_nil_iff] at hempty
    rw [hempty.resolve_left hchunk.ne', List.drop_nil]
  have hsplit := hbytes
  rw [← List.take_append_drop chunk lines.rest, ← List.append_assoc,
    List.append_eq_append_iff] at hsplit
  obtain ⟨part, hdata, hmore⟩ | ⟨part, hdata, hmore⟩ := hsplit
  · -- the chunk ends in the text
    left
    obtain ⟨after, hfuture, hafter, hunfinished⟩ := readUtf8_cut hdata
    obtain ⟨hall, hfirst⟩ := readUtf8_spec (lines.pending ++ lines.rest.take chunk)
    generalize readUtf8 (lines.pending ++ lines.rest.take chunk) = read at *
    have hrest : (lines.rest.take chunk).isEmpty = true → read.rest = [] := by
      intro hempty
      obtain ⟨rfl, -⟩ := List.append_eq_nil_iff.mp (hmore.symm.trans (hlast hempty))
      rw [List.append_nil] at hafter
      have hnil : after = [] := eq_nil_of_firstChar (by rwa [hafter])
      rw [← hafter, hnil]
      rfl
    apply h.decoded_chunk hchunk hended (hfuture ▸ hremaining) (by simp [hafter, hmore]) hrest
    rw [hall, incremental_eq _ hfirst, if_pos]
    grind
  · -- the chunk reaches the bad bytes
    have hfirst : firstChar part = none := firstChar_of_append (hmore ▸ h.bad)
    have hread := incremental_eq future hfirst (lines.rest.take chunk).isEmpty
    rw [← hdata] at hread
    split_ifs at hread with hpart
    · left
      have hnothing : part ++ lines.rest.drop chunk = utf8 [] ++ bad := by simpa using hmore.symm
      exact h.decoded_chunk hchunk hended (by simpa using hremaining) hnothing (by grind) hread
    · right
      have hne : bad ≠ [] := fun hbad =>
        hpart (Or.inl (List.append_eq_nil_iff.mp (hmore.symm.trans hbad)).1)
      exact ⟨hne, _, by rw [decodeChunk, hread]; rfl⟩

theorem next_cases (h : Reads lines remaining bad) (hchunk : 0 < chunk) :
    (∃ line more after, lines.next chunk = (some (.ok line), after) ∧
      cut remaining = line :: cut more ∧ Reads after more bad) ∨
    (remaining = [] ∧ bad = [] ∧ ∃ after, lines.next chunk = (none, after)) ∨
    (bad ≠ [] ∧ ∃ message after, lines.next chunk = (some (.error message), after) ∧
      after.next chunk = (none, after)) := by
  fun_induction next chunk lines with
  | case1 lines stop hstop =>
    obtain ⟨hcut, hafter⟩ := h.take_line hstop
    exact Or.inl ⟨_, _, _, rfl, hcut, hafter⟩
  | case2 lines hend hfailed => exact absurd (h.failed.symm.trans hfailed) (by simp)
  | case3 lines hend hfailed hended =>
    obtain ⟨hremaining, hbad⟩ := h.remaining_eq hended
    by_cases htext : lines.text = []
    · right
      left
      exact ⟨hremaining.trans htext, hbad, _, by rw [if_pos htext]⟩
    · left
      refine ⟨lines.text, [], _, by rw [if_neg htext], ?_, ?_⟩
      · rw [hremaining, cut_of_none hend, if_neg htext, cut]
      · obtain ⟨hpending, hrest, hcr⟩ := h.ended hended
        exact ⟨⟨[], by simp [hpending, hrest, hbad], by simp [hcr, crOf]⟩, h.bad, by simp,
          h.ended, h.failed⟩
  | case4 lines hend hfailed hended message hread =>
    obtain ⟨after, hafter, -⟩ | ⟨hbad, -⟩ := h.decodeChunk_cases hchunk (by simpa using hended)
    · rw [hread] at hafter
      exact absurd hafter (by simp)
    · right
      right
      refine ⟨hbad, message, _, rfl, ?_⟩
      rw [next, hend]
      simp
  | case5 lines hend hfailed hended after hread ih =>
    obtain ⟨after', hafter, hreads⟩ | ⟨-, message, herror⟩ :=
      h.decodeChunk_cases hchunk (by simpa using hended)
    · obtain rfl := Except.ok.inj (hread.symm.trans hafter)
      exact ih hreads
    · rw [hread] at herror
      exact absurd herror (by simp)

end Reads

/-- The items of the lines, up to the first time that there is none. -/
inductive Yields (chunk : Nat) : Lines → List (Except Text Text) → Prop where
  | done {lines after : Lines} (h : lines.next chunk = (none, after)) : Yields chunk lines []
  | more {lines after : Lines} {item : Except Text Text} {items : List (Except Text Text)}
    (h : lines.next chunk = (some item, after)) (hafter : Yields chunk after items) :
    Yields chunk lines (item :: items)

/-- A text gives its lines. When bytes that are not UTF-8 follow it, some of its lines come and then
one error. -/
theorem Reads.yields {lines : Lines} {remaining : Text} {bad : Bytes} {chunk : Nat}
    (h : Reads lines remaining bad) (hchunk : 0 < chunk) :
    if bad = [] then Yields chunk lines ((cut remaining).map .ok)
    else ∃ count message,
      Yields chunk lines (((cut remaining).take count).map .ok ++ [.error message]) := by
  induction hsize : lines.size using Nat.strong_induction_on generalizing lines remaining with
  | _ size ih =>
  subst hsize
  obtain ⟨line, more, after, hnext, hcut, hafter⟩ | ⟨rfl, rfl, after, hnext⟩ |
    ⟨hbad, message, after, hnext, hend⟩ := h.next_cases hchunk
  · have hmore := ih after.size (size_next hnext) hafter rfl
    split_ifs at hmore ⊢ with hbad
    · rw [hcut]
      exact .more hnext hmore
    · obtain ⟨count, message, hyields⟩ := hmore
      refine ⟨count + 1, message, ?_⟩
      rw [hcut]
      exact .more hnext hyields
  · rw [if_pos rfl]
    exact .done hnext
  · rw [if_neg hbad]
    exact ⟨0, message, .more hnext (.done hend)⟩

end Lines

/-- Whatever the size of a chunk, the lines of a file are those of its text. A file that is not UTF-8
gives lines of the text before its first bad byte, then an error, then nothing. -/
theorem lines_of_file {chunk : Nat} (hchunk : 0 < chunk) (bytes : Bytes) :
    (∀ text, bytes = utf8 text → Lines.Yields chunk { rest := bytes } ((cut text).map .ok)) ∧
      (¬IsUtf8 bytes → ∃ count message, Lines.Yields chunk { rest := bytes }
        (((cut (readUtf8 bytes).text).take count).map .ok ++ [.error message])) := by
  obtain ⟨hbytes, hfirst⟩ := readUtf8_spec bytes
  have h := (Lines.reads_new hbytes hfirst).yields hchunk
  constructor
  · rintro text rfl
    simpa using h
  · intro hutf8
    rwa [if_neg (mt isUtf8_iff.mpr hutf8)] at h

theorem lines_of_parted_file :
    (∀ text, utf8 "é\r\nb".toList = utf8 text →
      Lines.Yields 1 { rest := utf8 "é\r\nb".toList } ((cut text).map .ok)) ∧
      (¬IsUtf8 (utf8 "é\r\nb".toList) → ∃ count message,
        Lines.Yields 1 { rest := utf8 "é\r\nb".toList }
          (((cut (readUtf8 (utf8 "é\r\nb".toList)).text).take count).map .ok ++ [.error message])) :=
  lines_of_file (by decide) _

end Agentless.Hook.Csv
