import Agentless.Hook.SeedNames
import Agentless.Io.Path

/-!
# The scanners find what their regular expressions find

Each scanner of a prompt runs once over it, and returns what a leftmost search for the regular
expression it stands for returns. A path that is kept as a seed stays below the root.
-/

namespace Agentless.Hook.Seeds

open Regex Text

/-! ## Backticks -/

/-- The characters between two backticks on one line. -/
def tickedClass (c : Char) : Bool := c != backtick && c != '\n'

/-- `([^...\n]{1,120})` between two backticks, with a backtick for the dots. -/
def backtickRegex : Regex Char :=
  .seq (.cls (· == backtick))
    (.seq (.group (.loop 1 (some 120) (.cls tickedClass))) (.cls (· == backtick)))

section Backticks

variable {word : Char → Bool} {text after : Text} {pos : Nat}

theorem firstMatch_no_backtick (h : ¬ text[pos]?.any (· == backtick) = true) :
    firstMatch word text backtickRegex pos = none := by
  rw [firstMatch, backtickRegex, head?_outcomes_seq, outcomes, if_neg h]
  rfl

/-- No character of the piece is a backtick. -/
theorem ticked_no_backtick {k : Nat} (hk : k < (ticked after).length) :
    after[k]?.any (· == backtick) = false := by
  obtain ⟨behind, hbehind⟩ : ticked after <+: after := List.takeWhile_prefix _
  have hat : after[k]? = some (ticked after)[k] := by
    conv_lhs => rw [← hbehind]
    rw [List.getElem?_append_left hk, List.getElem?_eq_getElem hk]
  have hclass := List.mem_takeWhile_imp (List.getElem_mem hk)
  rw [Bool.and_eq_true, bne_iff_ne, bne_iff_ne] at hclass
  rw [hat, Option.any_some]
  exact beq_eq_false_iff_ne.mpr hclass.1

/-- The match of the longest piece that a backtick closes. -/
theorem firstMatch_backtick_search (h : text.drop pos = backtick :: after) :
    firstMatch word text backtickRegex pos =
      ((List.range' 1 (min 120 (ticked after).length)).reverse.find? fun k =>
          after[k]?.any (· == backtick)).map fun k =>
        ⟨pos + (k + 2), some (pos + 1, pos + 1 + k)⟩ := by
  have hafter : text.drop (pos + 1) = after := by
    rw [← List.drop_drop, h]
    rfl
  have hopen : text[pos]?.any (· == backtick) = true := by
    rw [← List.head?_drop, h]
    exact beq_self_eq_true backtick
  have hcount : runLength tickedClass text (pos + 1) = (ticked after).length := by
    rw [runLength, hafter]
    rfl
  rw [firstMatch, backtickRegex, head?_outcomes_seq, outcomes, if_pos hopen, List.findSome?_singleton,
    head?_outcomes_seq, outcomes, outcomes_loop_cls, List.map_map, List.findSome?_map]
  change (List.range' 1 (min 120 (runLength tickedClass text (pos + 1)) + 1 - 1)).reverse.findSome? _ = _
  rw [hcount, Nat.add_sub_cancel]
  refine findSome?_eq_map_find? fun k _ => ?_
  have hat : text[pos + 1 + k]? = after[k]? := by rw [← List.getElem?_drop, hafter]
  have hpos : pos + 1 + k + 1 = pos + (k + 2) := by omega
  simp only [Function.comp_apply, Mark.advance, outcomes, hat, hpos]
  cases after[k]?.any (· == backtick) <;> rfl

/-- Only the closing backtick stands behind a group, and it stands behind the whole run. -/
theorem firstMatch_backtick (h : text.drop pos = backtick :: after) :
    firstMatch word text backtickRegex pos =
      if (after.drop (ticked after).length).head? = some backtick ∧ 1 ≤ (ticked after).length ∧
          (ticked after).length ≤ maxTicked then
        some ⟨pos + ((ticked after).length + 2),
          some (pos + 1, pos + 1 + (ticked after).length)⟩
      else none := by
  have hclose : after[(ticked after).length]?.any (· == backtick) = true ↔
      (after.drop (ticked after).length).head? = some backtick := by
    rw [List.head?_drop]
    cases after[(ticked after).length]? <;> simp
  have hinside := @ticked_no_backtick after
  rw [firstMatch_backtick_search h]
  generalize (ticked after).length = count at hclose hinside ⊢
  split_ifs with hmatch
  · obtain ⟨hcloses, hpositive, hmost⟩ := hmatch
    obtain ⟨last, rfl⟩ := Nat.exists_eq_succ_of_ne_zero (Nat.ne_of_gt hpositive)
    have hgood := hclose.mpr hcloses
    have hmin : min 120 (last + 1) = last + 1 := Nat.min_eq_right hmost
    rw [Nat.succ_eq_add_one, Nat.add_comm last 1] at hgood
    rw [Nat.succ_eq_add_one, hmin, List.range'_concat, List.reverse_append, List.reverse_singleton,
      List.singleton_append, Nat.one_mul, List.find?_cons, hgood, Option.map_some,
      Nat.add_comm 1 last]
  · rw [Option.map_eq_none_iff, List.find?_eq_none]
    intro k hk
    have hmem := List.mem_range'_1.mp (List.mem_reverse.mp hk)
    obtain hless | hend := Nat.lt_or_eq_of_le (show k ≤ count by omega)
    · exact Bool.eq_false_iff.mp (hinside hless)
    · rw [hend]
      exact fun hgood => hmatch ⟨hclose.mp hgood, by omega, show count ≤ 120 by omega⟩

/-- A piece, the backtick that closes it and what follows. -/
theorem ticked_append (h : (after.drop (ticked after).length).head? = some backtick) :
    ticked after ++ backtick :: after.drop ((ticked after).length + 1) = after := by
  have hclose := List.cons_head?_tail (Option.mem_def.mpr h)
  rw [List.tail_drop] at hclose
  have hticked : ticked after = after.take (ticked after).length :=
    List.prefix_iff_eq_take.mp (List.takeWhile_prefix _)
  rw [hclose]
  nth_rewrite 1 [hticked]
  exact List.take_append_drop _ _

/-- Nothing matches before the first backtick. -/
theorem findFrom_backtick (before rest : Text) :
    findFrom word (before ++ rest) backtickRegex before.length =
      findFrom word (before ++ rest) backtickRegex
        (before.length + (rest.takeWhile (· != backtick)).length) := by
  refine findFrom_skip fun k hk => firstMatch_no_backtick ?_
  obtain ⟨behind, hbehind⟩ : rest.takeWhile (· != backtick) <+: rest := List.takeWhile_prefix _
  have hat : (before ++ rest)[before.length + k]? = some (rest.takeWhile (· != backtick))[k] := by
    rw [List.getElem?_append_right (Nat.le_add_right _ _), Nat.add_sub_cancel_left]
    conv_lhs => rw [← hbehind]
    rw [List.getElem?_append_left hk, List.getElem?_eq_getElem hk]
  have hclass := List.mem_takeWhile_imp (List.getElem_mem hk)
  rw [hat, Option.any_some, beq_iff_eq]
  exact bne_iff_ne.mp hclass

end Backticks

/-- From any place on, the scanner finds what the search finds. -/
theorem backticked_eq {word : Char → Bool} (before rest : Text) :
    backticked rest = findFrom word (before ++ rest) backtickRegex before.length := by
  induction hsize : rest.length using Nat.strong_induction_on generalizing before rest with
  | _ size ih =>
    have hsplit := @List.takeWhile_append_dropWhile _ (· != backtick) rest
    rw [findFrom_backtick]
    generalize rest.takeWhile (· != backtick) = passed at hsplit
    rw [backticked]
    split
    · rename_i hnone
      rw [hnone, List.append_nil] at hsplit
      rw [findFrom_end]
      rw [hsplit, List.length_append]
    · rename_i c after hsome
      obtain rfl : c = backtick := by
        have hstop := head?_dropWhile_false (· != backtick) rest c (by rw [hsome]; rfl)
        exact bne_eq_false_iff_eq.mp hstop
      rw [hsome] at hsplit
      obtain rfl := hsplit
      rw [List.length_append, List.length_cons] at hsize
      have hjoined : before ++ (passed ++ backtick :: after) =
          (before ++ passed) ++ backtick :: after := (List.append_assoc _ _ _).symm
      have hmatch := @firstMatch_backtick word _ after (before ++ passed).length
        List.drop_left
      have hinside : (before ++ passed).length < ((before ++ passed) ++ backtick :: after).length := by
        simp
      rw [hjoined, ← List.length_append]
      dsimp only
      split_ifs at hmatch ⊢ with hbody
      · have hpieces := ticked_append hbody.1
        have hnext := ih (after.drop ((ticked after).length + 1)).length
          (by rw [List.length_drop]; omega)
          ((before ++ passed) ++ backtick :: (ticked after ++ [backtick]))
          (after.drop ((ticked after).length + 1)) rfl
        have hwhole : (before ++ passed) ++ backtick :: (ticked after ++ [backtick]) ++
            after.drop ((ticked after).length + 1) = (before ++ passed) ++ backtick :: after := by
          conv_rhs => rw [← hpieces]
          simp
        have hlength : ((before ++ passed) ++ backtick :: (ticked after ++ [backtick])).length =
            (before ++ passed).length + ((ticked after).length + 2) := by
          simp only [List.length_append, List.length_cons, List.length_nil]
        rw [hwhole, hlength] at hnext
        have hfound : Regex.found ((before ++ passed) ++ backtick :: after) (before ++ passed).length
            ⟨(before ++ passed).length + ((ticked after).length + 2),
              some ((before ++ passed).length + 1,
                (before ++ passed).length + 1 + (ticked after).length)⟩ = ticked after := by
          rw [Regex.found]
          dsimp only
          rw [slice, Nat.add_sub_cancel_left, ← List.drop_drop, List.drop_left]
          exact (List.prefix_iff_eq_take.mp (List.takeWhile_prefix _)).symm
        rw [findFrom_match hinside hmatch (Nat.lt_add_of_pos_right (Nat.succ_pos _)), hfound, hnext]
      · have hnext := ih after.length (by omega) ((before ++ passed) ++ [backtick]) after rfl
        have hlength : ((before ++ passed) ++ [backtick]).length = (before ++ passed).length + 1 :=
          List.length_append
        rw [List.append_assoc (before ++ passed), hlength] at hnext
        rw [findFrom_succ hmatch]
        exact hnext

/-! ## Paths below the root -/

section BelowRoot

open Posix StdPath

theorem exists_location {parts : List Text}
    (h : ∀ part ∈ parts, part ≠ [] ∧ part ≠ ".".toList ∧ part ≠ "..".toList ∧ '/' ∉ part) :
    ∃ names : Location, names.map Name.bytes = parts.map utf8 := by
  induction parts with
  | nil => exact ⟨[], rfl⟩
  | cons part parts ih =>
    obtain ⟨⟨hne, hdot, hdotdot, hslash⟩, hparts⟩ := List.forall_mem_cons.mp h
    obtain ⟨names, hnames⟩ := ih hparts
    let name : Name :=
      { bytes := utf8 part
        ne_nil := fun heq => hne (utf8_injective heq)
        ne_dot := fun heq => hdot (utf8_injective heq)
        ne_dotdot := fun heq => hdotdot (utf8_injective heq)
        slash_notMem := slash_notMem_utf8 hslash }
    exact ⟨name :: names, congrArg (name.bytes :: ·) hnames⟩

/-- Joined to the root, a kept path has the names of the root before names of its own. -/
theorem join_of_belowRoot {rel : Text} (h : belowRoot rel = true) :
    ∃ below : Location, below ≠ [] ∧
      ∀ root : Location, join (render root) (utf8 rel) = render (root ++ below) := by
  have hparts : ∀ part ∈ rel.splitOn '/', part ≠ [] ∧ part ≠ ".".toList ∧ part ≠ "..".toList ∧
      '/' ∉ part := by
    intro part hpart
    have hkept := List.all_eq_true.mp h part hpart
    simp only [Bool.not_eq_true', Bool.or_eq_false_iff, beq_eq_false_iff_ne] at hkept
    exact ⟨hkept.1.1, hkept.1.2, hkept.2, Sequence.notMem_of_mem_splitOn hpart⟩
  obtain ⟨below, hbelow⟩ := exists_location hparts
  rw [← parts_utf8] at hbelow
  have hne : below ≠ [] := by
    rintro rfl
    exact List.splitOn_ne_nil _ _ hbelow.symm
  have hrender : renderRelative below = utf8 rel := by
    rw [renderRelative, hbelow]
    exact List.intercalate_splitOn _
  exact ⟨below, hne, fun root => hrender ▸ join_renderRelative root hne⟩

end BelowRoot

theorem mem_tickedSeeds {file : Text → Bool} {pieces : List Text} {rel : Text}
    (h : rel ∈ (tickedSeeds file pieces).1) : file rel = true := by
  induction pieces with
  | nil => cases h
  | cons raw pieces ih =>
    rw [tickedSeeds] at h
    split_ifs at h with hshort hfile
    · exact ih h
    · obtain rfl | h := List.mem_cons.mp h
      · exact hfile
      · exact ih h
    · exact ih h
    · exact ih h

/-- The scanners find what a search for their expressions finds, and every path that is kept as a
seed stays below the root. -/
theorem seeds_exact (prompt : Text) :
    pathTokens prompt = some (findall isWord prompt pathRegex) ∧
      backticked prompt = findall isWord prompt backtickRegex ∧
      camelCase prompt = some (findall isWord prompt (wholeWord camelCore)) ∧
      snakeCase prompt = some (findall isWord prompt (wholeWord snakeCore)) ∧
      ∀ isFile : Text → Bool, ∃ paths names, found prompt isFile = some (paths, names) ∧
        seeds prompt isFile = some ((paths ++ names).eraseDups.take maxSeeds) ∧
        ∀ rel ∈ paths, isFile rel = true ∧ ∃ below : Posix.Location, below ≠ [] ∧
          ∀ root : Posix.Location,
            StdPath.join (Posix.render root) (utf8 rel) = Posix.render (root ++ below) := by
  have hpaths := pathTokens_eq_findall prompt
  have hcamel : camelCase prompt = _ := wholeWords_eq_findall scans_camel prompt
  have hsnake : snakeCase prompt = _ := wholeWords_eq_findall scans_snake prompt
  refine ⟨hpaths, backticked_eq [] prompt, hcamel, hsnake, fun isFile => ?_⟩
  let file (rel : Text) : Bool := belowRoot rel && isFile rel
  let tokens := findall isWord prompt pathRegex
  let words := findall isWord prompt (wholeWord camelCore) ++ findall isWord prompt (wholeWord snakeCore)
  have hfound : found prompt isFile =
      some ((tokens.map trimSlashes).filter file ++ (tickedSeeds file (backticked prompt)).1,
        (tickedSeeds file (backticked prompt)).2 ++
          words.filter fun word => minToken ≤ (utf8 word).length) := by
    rw [found, hpaths, hcamel, hsnake]
    rfl
  refine ⟨_, _, hfound, by rw [seeds, hfound]; rfl, fun rel hrel => ?_⟩
  have hkept : file rel = true := by
    obtain hrel | hrel := List.mem_append.mp hrel
    · exact (List.mem_filter.mp hrel).2
    · exact mem_tickedSeeds hrel
  obtain ⟨hbelow, hfile⟩ := (Bool.and_eq_true _ _).mp hkept
  exact ⟨hfile, join_of_belowRoot hbelow⟩

end Agentless.Hook.Seeds
