import Agentless.Library.PosixShell
import Agentless.Text.Shell

/-!
# Quoting against splitting

What the splitter does to words that were quoted, to the same command over characters and over code
points, and to a command whose end is quoted.
-/

namespace Agentless.Shell

open PosixShell (Quote quoting)

/-! ## One unit of a command -/

section Units

variable {α : Type} [DecidableEq α] [ShellUnit α] {words : List (List α)} {word : Option (List α)}
  {unit : α} {units : List α}

theorem split_separator (h : isSeparator unit) :
    split words word (unit :: units) = split (words ++ word.toList) none units := by
  rw [split, if_pos h]

theorem split_single (hunit : ¬isSeparator (singleQuote : α)) :
    split words word (singleQuote :: units) =
      singleQuoted units (word.getD []) >>= fun quoted => split words (some quoted.1) quoted.2 := by
  rw [split, if_neg hunit, if_pos rfl]
  split <;> next hquoted =>
    exact (congrArg (· >>= fun quoted => split words (some quoted.1) quoted.2) hquoted).symm

theorem split_double (hunit : ¬isSeparator (doubleQuote : α))
    (hsingle : (doubleQuote : α) ≠ singleQuote) :
    split words word (doubleQuote :: units) =
      doubleQuoted units (word.getD []) >>= fun quoted => split words (some quoted.1) quoted.2 := by
  rw [split, if_neg hunit, if_neg hsingle, if_pos rfl]
  split <;> next hquoted =>
    exact (congrArg (· >>= fun quoted => split words (some quoted.1) quoted.2) hquoted).symm

theorem split_escape (hunit : ¬isSeparator (backslash : α))
    (hsingle : (backslash : α) ≠ singleQuote) (hdouble : (backslash : α) ≠ doubleQuote) :
    split words word (backslash :: unit :: units) =
      split words (some (word.getD [] ++ [unit])) units := by
  rw [split, if_neg hunit, if_neg hsingle, if_neg hdouble, if_pos rfl]

theorem split_escape_nil (hunit : ¬isSeparator (backslash : α))
    (hsingle : (backslash : α) ≠ singleQuote) (hdouble : (backslash : α) ≠ doubleQuote) :
    split words word [(backslash : α)] = .error .noEscapedCharacter := by
  rw [split, if_neg hunit, if_neg hsingle, if_neg hdouble, if_pos rfl]

theorem split_plain (hunit : ¬isSeparator unit) (hsingle : unit ≠ singleQuote)
    (hdouble : unit ≠ doubleQuote) (hescape : unit ≠ backslash) :
    split words word (unit :: units) = split words (some (word.getD [] ++ [unit])) units := by
  rw [split, if_neg hunit, if_neg hsingle, if_neg hdouble, if_neg hescape]

end Units

/-! ## Characters and code points -/

section Codes

theorem toNat_ascii (byte : UInt8) : (ShellUnit.ascii byte : Char).toNat = byte.toNat :=
  (Char.toNat_ofNat _).trans (if_pos (.inl (by have := byte.toNat_lt; omega)))

theorem toNat_eq_ascii_iff {c : Char} {byte : UInt8} :
    c.toNat = ShellUnit.ascii byte ↔ c = ShellUnit.ascii byte := by
  constructor
  · intro h
    exact Char.toNat_inj.mp (h.trans (toNat_ascii byte).symm)
  · rintro rfl
    exact toNat_ascii byte

theorem isSeparator_toNat (c : Char) : isSeparator c.toNat = isSeparator c := by
  simp only [isSeparator, toNat_eq_ascii_iff]

/-- The code points of a quoted stretch and of what follows it. -/
def codesOf (quoted : Text × Text) : List Nat × List Nat :=
  (quoted.1.map Char.toNat, quoted.2.map Char.toNat)

theorem singleQuoted_map (units word : Text) :
    singleQuoted (units.map Char.toNat) (word.map Char.toNat) =
      (singleQuoted units word).map codesOf := by
  fun_induction singleQuoted units word with
  | case1 word => rfl
  | case2 units word =>
    rw [List.map_cons, singleQuoted, if_pos (toNat_eq_ascii_iff.mpr rfl)]
    rfl
  | case3 unit units word hunit ih =>
    rw [List.map_cons, singleQuoted, if_neg (toNat_eq_ascii_iff.not.mpr hunit), ← ih]
    simp

theorem doubleQuoted_map (units word : Text) :
    doubleQuoted (units.map Char.toNat) (word.map Char.toNat) =
      (doubleQuoted units word).map codesOf := by
  have hquote {c : Char} : c.toNat = doubleQuote ↔ c = doubleQuote := toNat_eq_ascii_iff
  have hescape {c : Char} : c.toNat = backslash ↔ c = backslash := toNat_eq_ascii_iff
  fun_induction doubleQuoted units word with
  | case1 word => rfl
  | case2 word => simp [doubleQuoted, hquote, codesOf, Except.map]
  | case3 word h => simp [doubleQuoted, hquote, hescape, h, Except.map]
  | case4 unit word h h' => simp [doubleQuoted, hquote, hescape, h, h', Except.map]
  | case5 next units word => simp [doubleQuoted, hquote, codesOf, Except.map]
  | case6 next units word hnext h ih => simp_all [doubleQuoted]
  | case7 next units word hnext h ih => simp_all [doubleQuoted]
  | case8 unit next units word h h' ih => simp_all [doubleQuoted]

theorem split_map (words : List Text) (word : Option Text) (units : Text) :
    split (words.map (List.map Char.toNat)) (word.map (List.map Char.toNat))
        (units.map Char.toNat) =
      (split words word units).map (List.map (List.map Char.toNat)) := by
  have hopen (word : Option Text) :
      (word.map (List.map Char.toNat)).getD [] = (word.getD []).map Char.toNat := by
    cases word <;> rfl
  have hwords (words : List Text) (word : Option Text) :
      words.map (List.map Char.toNat) ++ (word.map (List.map Char.toNat)).toList =
        (words ++ word.toList).map (List.map Char.toNat) := by
    cases word <;> simp
  fun_induction split words word units with
  | case1 words word =>
    rw [List.map_nil, split, hwords]
    rfl
  | case2 words word unit units hunit ih =>
    rw [List.map_cons, split_separator (by rwa [isSeparator_toNat]), hwords]
    exact ih
  | case3 words word units current error hquoted =>
    have hmap := singleQuoted_map units current
    rw [hquoted] at hmap
    have hunit : ShellUnit.ascii 0x27 = (singleQuote : Char).toNat := rfl
    rw [List.map_cons, ← hunit, split_single (by decide), hopen, hmap]
    rfl
  | case4 words word units current current' rest hquoted _ _ ih =>
    have hmap := singleQuoted_map units current
    rw [hquoted] at hmap
    have hunit : ShellUnit.ascii 0x27 = (singleQuote : Char).toNat := rfl
    rw [List.map_cons, ← hunit, split_single (by decide), hopen, hmap, ← ih]
    rfl
  | case5 words word units current error hquoted =>
    have hmap := doubleQuoted_map units current
    rw [hquoted] at hmap
    have hunit : ShellUnit.ascii 0x22 = (doubleQuote : Char).toNat := rfl
    rw [List.map_cons, ← hunit, split_double (by decide) (by decide), hopen, hmap]
    rfl
  | case6 words word units current current' rest hquoted _ _ _ ih =>
    have hmap := doubleQuoted_map units current
    rw [hquoted] at hmap
    have hunit : ShellUnit.ascii 0x22 = (doubleQuote : Char).toNat := rfl
    rw [List.map_cons, ← hunit, split_double (by decide) (by decide), hopen, hmap, ← ih]
    rfl
  | case7 words word =>
    have hunit : ShellUnit.ascii 0x5c = (backslash : Char).toNat := rfl
    rw [List.map_cons, ← hunit, List.map_nil,
      split_escape_nil (by decide) (by decide) (by decide)]
    rfl
  | case8 words word current next units _ _ _ ih =>
    have hunit : ShellUnit.ascii 0x5c = (backslash : Char).toNat := rfl
    rw [List.map_cons, List.map_cons, ← hunit,
      split_escape (by decide) (by decide) (by decide), hopen, ← ih]
    simp [current]
  | case9 words word unit units hunit current hsingle hdouble hescape ih =>
    rw [List.map_cons, split_plain (by rwa [isSeparator_toNat]) (toNat_eq_ascii_iff.not.mpr hsingle)
      (toNat_eq_ascii_iff.not.mpr hdouble) (toNat_eq_ascii_iff.not.mpr hescape), hopen, ← ih]
    simp [current]

/-- The code-point string of a text. -/
def fromText (text : Text) : CodePointString := ⟨utf8 text⟩

theorem ofCodePoints_toNat (text : Text) :
    CodePointString.ofCodePoints (text.map Char.toNat) = fromText text :=
  (CodePointString.pushStr_ofCodePoints [] text).symm

theorem splitShellCodePoints_eq (command : Text) :
    splitShellCodePoints (fromText command) =
      (splitShellWords command).map (List.map fromText) := by
  have hmap := split_map [] none command
  rw [List.map_nil, Option.map_none] at hmap
  rw [splitShellCodePoints, fromText, CodePointString.codePoints_utf8, hmap, splitShellWords]
  cases split [] none command with
  | error error => rfl
  | ok words => exact congrArg Except.ok (by simp [ofCodePoints_toNat])

end Codes

/-! ## The end of a command -/

section Ends

/-- What is missing at the end of a text that is quoted so. -/
def refused : Quote → Option ShellWordsError
  | .free => none
  | .single | .double => some .noClosingQuotation
  | .escape | .doubleEscape => some .noEscapedCharacter

variable {units word : List Nat} {quoted : List Nat × List Nat} {error : ShellWordsError}

theorem ends_single (h : singleQuoted units word = .ok quoted) :
    (quoting .single units).2 = (quoting .free quoted.2).2 := by
  fun_induction singleQuoted units word with
  | case1 => cases h
  | case2 =>
    cases h
    rfl
  | case3 unit units word hunit ih =>
    rw [quoting, PosixShell.next_single hunit]
    exact ih h

theorem refused_single (h : singleQuoted units word = .error error) :
    refused (quoting .single units).2 = some error := by
  fun_induction singleQuoted units word with
  | case1 =>
    cases h
    rfl
  | case2 => cases h
  | case3 unit units word hunit ih =>
    rw [quoting, PosixShell.next_single hunit]
    exact ih h

theorem ends_double (h : doubleQuoted units word = .ok quoted) :
    (quoting .double units).2 = (quoting .free quoted.2).2 := by
  fun_induction doubleQuoted units word with
  | case1 | case3 | case4 => cases h
  | case2 | case5 =>
    cases h
    rfl
  | case6 _ _ _ _ _ ih | case7 _ _ _ _ _ ih => exact ih h
  | case8 unit next units word hquote hescape ih =>
    rw [quoting, PosixShell.next_double hquote hescape]
    exact ih h

theorem refused_double (h : doubleQuoted units word = .error error) :
    refused (quoting .double units).2 = some error := by
  fun_induction doubleQuoted units word with
  | case1 | case3 =>
    cases h
    rfl
  | case2 | case5 => cases h
  | case4 unit word hquote hescape =>
    cases h
    rw [quoting, PosixShell.next_double hquote hescape]
    rfl
  | case6 _ _ _ _ _ ih | case7 _ _ _ _ _ ih => exact ih h
  | case8 unit next units word hquote hescape ih =>
    rw [quoting, PosixShell.next_double hquote hescape]
    exact ih h

/-- The split fails exactly when the end of the text is quoted or escaped. -/
theorem split_eq_error_iff (words : List (List Nat)) (word : Option (List Nat)) (units : List Nat) :
    split words word units = .error error ↔
      refused (quoting .free units).2 = some error := by
  fun_induction split words word units with
  | case1 words word => simp [quoting, refused]
  | case2 words word unit units hunit ih =>
    have hnext : Quote.free.next unit = (.free, [.plain unit]) := by
      refine PosixShell.next_free ?_ ?_ ?_ <;> rintro rfl <;> cases hunit
    rw [ih, quoting, hnext]
  | case3 words word units current error' hquoted =>
    have hend : refused (quoting .free (singleQuote :: units)).2 = some error' :=
      refused_single hquoted
    rw [hend, Option.some.injEq, Except.error.injEq]
  | case4 words word units current current' rest hquoted _ _ ih =>
    have hend : (quoting .free (singleQuote :: units)).2 = (quoting .free rest).2 :=
      ends_single hquoted
    rw [ih, hend]
  | case5 words word units current error' hquoted =>
    have hend : refused (quoting .free (doubleQuote :: units)).2 = some error' :=
      refused_double hquoted
    rw [hend, Option.some.injEq, Except.error.injEq]
  | case6 words word units current current' rest hquoted _ _ _ ih =>
    have hend : (quoting .free (doubleQuote :: units)).2 = (quoting .free rest).2 :=
      ends_double hquoted
    rw [ih, hend]
  | case7 words word =>
    have hend : refused (quoting .free [backslash]).2 = some .noEscapedCharacter := rfl
    rw [hend, Option.some.injEq, Except.error.injEq]
  | case8 words word current next units _ _ _ ih => exact ih
  | case9 words word unit units hunit current hsingle hdouble hescape ih =>
    rw [ih, quoting, PosixShell.next_free hsingle hdouble hescape]

theorem splitShellWords_eq_error_iff {command : Text} :
    splitShellWords command = .error error ↔
      refused (quoting .free (command.map Char.toNat)).2 = some error := by
  have hmap := split_map [] none command
  rw [List.map_nil, Option.map_none] at hmap
  rw [← split_eq_error_iff [] none, hmap, splitShellWords]
  cases split [] none command <;> simp [Except.map]

end Ends

/-! ## Quoted words -/

inductive Style where
  | quotes
  | escapes
deriving DecidableEq, Repr

/-- A character between single quotes. A quote there ends them, stands escaped and opens them
again. -/
def inQuotes (c : Char) : Text := if c = '\'' then "'\\''".toList else [c]

/-- A word as it is written in a command. The empty word has nothing to escape. -/
def Style.write : Style → Text → Text
  | quotes, word => '\'' :: (word.flatMap inQuotes ++ ['\''])
  | escapes, [] => "''".toList
  | escapes, c :: word => (c :: word).flatMap fun c => ['\\', c]

section Quoted

variable {words : List Text} {word : Option Text} {rest : Text}

theorem split_quote (units : Text) :
    split words word ('\'' :: units) =
      singleQuoted units (word.getD []) >>= fun quoted => split words (some quoted.1) quoted.2 :=
  split_single (by decide)

theorem split_backslash (c : Char) (units : Text) :
    split words word ('\\' :: c :: units) =
      split words (some (word.getD [] ++ [c])) units :=
  split_escape (by decide) (by decide) (by decide)

theorem singleQuoted_quote (units word : Text) :
    singleQuoted ('\'' :: units) word = .ok (word, units) := if_pos rfl

theorem split_quotes (text : Text) :
    split words word ('\'' :: (text.flatMap inQuotes ++ '\'' :: rest)) =
      split words (some (word.getD [] ++ text)) rest := by
  induction text generalizing word with
  | nil =>
    rw [List.flatMap_nil, List.nil_append, List.append_nil, split_quote, singleQuoted_quote]
    rfl
  | cons c text ih =>
    have hmore : word.getD [] ++ c :: text = (some (word.getD [] ++ [c])).getD [] ++ text := by simp
    rw [List.flatMap_cons, List.append_assoc, hmore, ← ih]
    by_cases hc : c = '\''
    · have hbody : inQuotes c = '\'' :: '\\' :: '\'' :: '\'' :: [] := if_pos hc
      rw [hbody, split_quote, List.cons_append, singleQuoted_quote, hc]
      exact split_backslash _ _
    · have hbody : inQuotes c = [c] := if_neg hc
      have hnext (units : Text) :
          singleQuoted (c :: units) (word.getD []) = singleQuoted units (word.getD [] ++ [c]) :=
        if_neg hc
      rw [hbody, List.singleton_append, split_quote, hnext, split_quote]
      rfl

theorem split_escapes (text : Text) (c : Char) :
    split words word (((c :: text).flatMap fun c => ['\\', c]) ++ rest) =
      split words (some (word.getD [] ++ c :: text)) rest := by
  induction text generalizing word c with
  | nil => exact split_backslash c rest
  | cons next text ih =>
    have hnext := @split_backslash words word c
      ((next :: text).flatMap (fun c => ['\\', c]) ++ rest)
    rw [ih, Option.getD_some, List.append_assoc, List.singleton_append] at hnext
    exact hnext

/-- A written word is read as the word, whatever comes after it. -/
theorem split_write (style : Style) (text : Text) :
    split words none (style.write text ++ rest) = split words (some text) rest := by
  cases style with
  | quotes =>
    have hwrite : Style.quotes.write text ++ rest =
        '\'' :: (text.flatMap inQuotes ++ '\'' :: rest) := by simp [Style.write]
    rw [hwrite, split_quotes]
    rfl
  | escapes =>
    cases text with
    | nil => exact split_quotes []
    | cons c text => exact split_escapes text c

/-- Words that are written and joined with blanks are split again into the same words. -/
theorem split_written (words : List Text) (written : List (Style × Text)) :
    split words none ([' '].intercalate (written.map fun word => word.1.write word.2)) =
      .ok (words ++ written.map Prod.snd) := by
  induction written generalizing words with
  | nil => rw [List.map_nil, List.intercalate_nil, split, Option.toList_none, List.map_nil]
  | cons word written ih =>
    cases written with
    | nil =>
      have hend := @split_write words [] word.1 word.2
      rw [List.append_nil] at hend
      rw [List.map_singleton, List.intercalate_singleton, hend, split]
      rfl
    | cons next written =>
      rw [List.map_cons, List.map_cons, List.intercalate_cons_cons, List.append_assoc, split_write,
        List.singleton_append, split_separator (by decide)]
      have hrest := ih (words ++ [word.2])
      rw [List.map_cons] at hrest
      rw [Option.toList_some, hrest, List.append_assoc]
      rfl

end Quoted

/-- The splitter inverts the quoting of words, reads characters as it reads code points, and fails
exactly on a text whose end is quoted or escaped. -/
theorem splitShellWords_inverts :
    (∀ written : List (Style × Text),
      splitShellWords ([' '].intercalate (written.map fun word => word.1.write word.2)) =
        .ok (written.map Prod.snd)) ∧
    (∀ command : Text, splitShellCodePoints (fromText command) =
      (splitShellWords command).map (List.map fromText)) ∧
    ∀ (command : Text) (error : ShellWordsError), splitShellWords command = .error error ↔
      refused (quoting .free (command.map Char.toNat)).2 = some error :=
  ⟨split_written [], splitShellCodePoints_eq, fun _ _ => splitShellWords_eq_error_iff⟩

end Agentless.Shell
