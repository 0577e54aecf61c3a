import Agentless.Facts.Locs
import Agentless.Graph.StableIdExact

/-!
# Which functions their own names address

The qualified name of a function or a method, with its ordinal, is looked up by a cascade of
filters. Each of them tells some of the symbols apart that the ordinals tell apart.
-/

namespace Agentless.Facts

open Agentless.Graph CodePointString Find Syntax Text

/-- The symbols of a file as an extractor and the numbering leave them, with names that no location
splits. -/
structure SymbolTable where
  symbols : List Declared
  extracted : List Graph.Symbol
  numbered : symbols.map Declared.toSymbol = disambiguate extracted
  name_free : ∀ symbol ∈ symbols, ∀ c ∈ symbol.name, c ∉ ['.', '#', ':'] ∧ isSpace c = false
  parent_free : ∀ symbol ∈ symbols, ∀ c ∈ symbol.parent, isSpace c = false
  owner_mem : ∀ symbol ∈ symbols, symbol.kind = .method →
    ∃ owner ∈ symbols, owner.kind ∈ classKinds ∧ owner.name = symbol.parent

/-- A set of locations that resolved to one symbol. -/
structure LocResolution.IsAt (resolution : LocResolution) (symbol : Declared) (id : StableId) :
    Prop where
  spans : resolution.spans = [(symbol.line, symbol.endLine)]
  stableIds : resolution.stableIds = [id]
  unrecognized : resolution.unrecognized = []

/-- The location that names a symbol. -/
def functionLoc (symbol : Declared) : Text := "function: ".toList ++ symbol.idQualname

/-- The file of the table. -/
def SymbolTable.target (table : SymbolTable) (language : Language) (path : Text) (total : Nat) :
    LocTarget := ⟨path, total, some ⟨language, table.symbols⟩⟩

@[simp] theorem SymbolTable.symbols_target (table : SymbolTable) (language : Language) (path : Text)
    (total : Nat) : (table.target language path total).symbols = table.symbols := rfl

/-- When the name of a symbol addresses it: it spells something, its ordinal has six digits at most,
no function before a function without an owner has its name and its ordinal, and no function has the
owner and the name of a method. -/
structure SymbolTable.Addressed (table : SymbolTable) (index : Nat) (symbol : Declared) : Prop where
  spelled : symbol.idQualname ≠ []
  ordinal_lt : symbol.duplicateIndex = 0 ∨ symbol.duplicateIndex + 1 < 10 ^ 6
  first : symbol.kind = .function → symbol.parent = [] → ∀ earlier < index, ∀ other,
    table.symbols[earlier]? = some other → other.kind = .function → other.name = symbol.name →
      other.duplicateIndex ≠ symbol.duplicateIndex
  alone : symbol.kind = .method → symbol.parent ≠ [] ∧ ∀ other ∈ table.symbols,
    other.kind = .function → other.parent = symbol.parent → other.name ≠ symbol.name

section Resolving

variable {isPrintable : Nat → Bool} {target : LocTarget} {table : SymbolTable}

/-! ## Reading the location -/

theorem isSpace_of_isLineBreak {c : Char} (h : isLineBreak c = true) : isSpace c = true := by
  simp only [isLineBreak, Bool.or_eq_true, beq_iff_eq] at h
  rcases h with (((((((((rfl | rfl) | rfl) | rfl) | rfl) | rfl) | rfl) | rfl) | rfl) | rfl) <;> decide

theorem isSpace_of_isDigit {c : Char} (h : c.isDigit = true) : isSpace c = false := by
  simp only [Char.isDigit, Bool.and_eq_true, decide_eq_true_eq, ge_iff_le, UInt32.le_iff_toNat_le] at h
  have hlow : 48 ≤ c.toNat := h.1
  have hhigh : c.toNat ≤ 57 := h.2
  rw [← Char.ofNat_toNat c]
  generalize c.toNat = code at hlow hhigh
  interval_cases code <;> rfl

theorem splitlines_go_of_free (line : Text) {text : Text} (h : ∀ c ∈ text, isLineBreak c = false) :
    splitlines.go false line text = if line ++ text = [] then [] else [line ++ text] := by
  fun_induction splitlines.go false line text with
  | case1 line hne => simp [hne]
  | case2 line hempty => simp [not_not.mp hempty]
  | case3 line rest ih => exact absurd (h '\r' List.mem_cons_self) (by decide)
  | case4 line c rest hcrlf hbreak ih =>
    rw [h c List.mem_cons_self] at hbreak
    cases hbreak
  | case5 line c rest hcrlf hbreak ih =>
    rw [ih (List.forall_mem_cons.mp h).2, List.append_assoc]
    rfl

theorem strip_of_free {text : Text} (h : ∀ c ∈ text, isSpace c = false) : strip text = text := by
  have hdrop : text.dropWhile isSpace = text :=
    List.dropWhile_eq_self_iff.mpr fun hlt => by simp [h _ (List.getElem_mem hlt)]
  rw [strip, hdrop, trimEnd]
  exact List.rdropWhile_eq_self_iff.mpr fun hne => by simp [h _ (List.getLast_mem hne)]

/-- A text that a blank opens. -/
theorem strip_cons {c : Char} {text : Text} (hc : isSpace c = true) : strip (c :: text) = strip text := by
  rw [strip, List.dropWhile_cons_of_pos hc]
  rfl

section Location

variable {name currentClass : Text} (hfree : ∀ c ∈ name, isSpace c = false)
include hfree

theorem splitLocs_form :
    splitLocs ["function: ".toList ++ name] =
      [strip ("function: ".toList ++ name)].filter (· ≠ []) := by
  have hform : ∀ c ∈ "function: ".toList, isLineBreak c = false := by simp [isLineBreak]
  have hname : ∀ c ∈ name, isLineBreak c = false := fun c hc => by
    refine Bool.eq_false_iff.mpr fun hbreak => ?_
    have hspace := isSpace_of_isLineBreak hbreak
    rw [hfree c hc] at hspace
    cases hspace
  have hbreaks : ∀ c ∈ "function: ".toList ++ name, isLineBreak c = false :=
    List.forall_mem_append.mpr ⟨hform, hname⟩
  have hwhole : "function: ".toList ++ name ≠ [] := List.append_ne_nil_of_left_ne_nil (by decide) _
  rw [splitLocs, List.flatMap_singleton, splitlines, splitlines_go_of_free [] hbreaks,
    List.nil_append, if_neg hwhole, List.map_singleton]

theorem splitLocs_function (hne : name ≠ []) :
    splitLocs ["function: ".toList ++ name] = ["function: ".toList ++ name] := by
  have hstrip : strip ("function: ".toList ++ name) = "function: ".toList ++ name := by
    obtain ⟨start, last, rfl⟩ := (List.eq_nil_or_concat' name).resolve_left hne
    have hlast : ¬ isSpace last = true := by
      rw [hfree last (by simp)]
      exact Bool.false_ne_true
    have hdrop : ("function: ".toList ++ (start ++ [last])).dropWhile isSpace =
        "function: ".toList ++ (start ++ [last]) := rfl
    rw [strip, hdrop, trimEnd, ← List.append_assoc, List.rdropWhile_concat_neg _ _ _ hlast]
  have hwhole : "function: ".toList ++ name ≠ [] := List.append_ne_nil_of_right_ne_nil _ hne
  rw [splitLocs_form hfree, hstrip, List.filter_singleton, decide_eq_true hwhole]
  rfl

theorem resolve_function (hne : name ≠ []) :
    resolve isPrintable target ("function: ".toList ++ name) currentClass =
      function isPrintable target name currentClass := by
  have hsplit : splitOnce ":".toList ("function: ".toList ++ name) =
      some ("function".toList, ' ' :: name) :=
    (splitOnce_singleton (by decide) :
      splitOnce [':'] ("function".toList ++ ':' :: ' ' :: name) = some ("function".toList, ' ' :: name))
  have hstrip : strip (' ' :: name) = name := (strip_cons rfl).trans (strip_of_free hfree)
  have hclass : "class:".toList.isPrefixOf ("function: ".toList ++ name) = false := rfl
  have hline : "line:".toList.isPrefixOf ("function: ".toList ++ name) = false := rfl
  have hvariable : "variable:".toList.isPrefixOf ("function: ".toList ++ name) = false := rfl
  have hfunction : "function:".toList.isPrefixOf ("function: ".toList ++ name) = true := rfl
  unfold resolve
  simp only [hsplit, Option.elim_some, hstrip, hclass, hline, hvariable, hfunction, Bool.false_and,
    Bool.true_or, if_false, if_true, hne, Bool.false_eq_true]

end Location

/-- Without a name, only the form is left. -/
theorem splitLocs_no_name : splitLocs ["function: ".toList ++ []] = ["function:".toList] := by
  have hstrip : strip ("function: ".toList ++ []) = "function:".toList := by
    have hdrop : ("function: ".toList ++ []).dropWhile isSpace = "function".toList ++ [':'] ++ [' '] :=
      rfl
    rw [strip, hdrop, trimEnd, List.rdropWhile_concat_pos _ _ _ rfl,
      List.rdropWhile_concat_neg _ _ _ Bool.false_ne_true]
    rfl
  rw [splitLocs_form (fun _ hc => absurd hc List.not_mem_nil), hstrip]
  rfl

/-! ## Reading the name -/

theorem mem_stripLineFeed {c : Char} {text : Text} (hc : c ≠ '\n') (h : c ∈ text) :
    c ∈ stripLineFeed text := by
  rw [stripLineFeed]
  split
  · next hlast =>
    obtain ⟨start, rfl⟩ := List.getLast?_eq_some_iff.mp hlast
    rw [List.dropLast_concat]
    exact (List.mem_append.mp h).resolve_right fun hfeed => hc (List.mem_singleton.mp hfeed)
  · exact h

theorem carriesOrdinal_qualname {symbol : Graph.Symbol} (hhash : '#' ∉ symbol.name) :
    carriesOrdinal symbol.qualname = false := by
  rw [carriesOrdinal]
  rcases rsplitOnce_cases '#' symbol.qualname with ⟨-, hnone⟩ | ⟨before, after, hsplit, -, hsome⟩
  · rw [hnone]
  · have hdot : '.' ∈ after := by
      rw [qualname_eq_owner] at hsplit
      rcases List.append_eq_append_iff.mp hsplit with ⟨middle, -, hname⟩ | ⟨middle, howner, hmiddle⟩
      · exact absurd (hname ▸ by simp) hhash
      · cases middle with
        | nil =>
          rw [List.nil_append] at hmiddle
          exact absurd (hmiddle ▸ List.mem_cons_self) hhash
        | cons hash middle =>
          obtain ⟨rfl, rfl⟩ := List.cons.inj hmiddle
          rw [Symbol.owner] at howner
          split at howner
          · simp at howner
          · -- the owner ends in its dot, behind the `#`
            rcases List.eq_nil_or_concat' middle with rfl | ⟨start, last, rfl⟩
            · exact absurd (List.append_inj_right' howner rfl) (by decide)
            · rw [← List.cons_append, ← List.append_assoc] at howner
              obtain rfl : '.' = last := by
                simpa using List.append_inj_right' howner rfl
              simp
    have hall : (stripLineFeed after).all isAsciiDigit = false :=
      List.all_eq_false.mpr ⟨'.', mem_stripLineFeed (by decide) hdot, by decide⟩
    rw [hsome]
    simp [hall]

theorem splitOrdinal_large {qualname : Text} {n : Nat} (h : 10 ^ 6 ≤ n) :
    splitOrdinal (qualname ++ '#' :: Nat.toDigits 10 n) = (qualname ++ '#' :: Nat.toDigits 10 n, 0) := by
  apply splitOrdinal_whole
  have hlength : ¬ (Nat.toDigits 10 n).length ≤ 6 := by
    rw [Nat.length_toDigits_le_iff (by decide) (by decide)]
    omega
  rw [carriesOrdinal, rsplitOnce_append (hash_notMem_toDigits n)]
  simp [stripLineFeed_toDigits, hlength]

/-! ## What is found -/

/-- A hit on a symbol. -/
def Hit.Names (hit : Hit) (symbol : Declared) (id : StableId) : Prop :=
  ∃ class_, hit = .found (symbol.line, symbol.endLine) (some id) class_

theorem isAt_iff {locs : List Text} {loc currentClass : Text} {context : Nat} {symbol : Declared}
    {id : StableId} (hlocs : splitLocs locs = [loc]) :
    (resolveLocsFrom isPrintable target currentClass locs context).IsAt symbol id ↔
      (resolve isPrintable target loc currentClass).Names symbol id := by
  have hlocated (state : Locating) : (splitLocs locs).foldl (locate isPrintable target) state =
      locate isPrintable target state loc := by rw [hlocs]; rfl
  constructor
  · rintro ⟨hspans, hids, hrefused⟩
    simp only [resolveLocsFrom, hlocated, locate] at hspans hids hrefused
    cases hhit : resolve isPrintable target loc currentClass with
    | refused reason =>
      rw [hhit] at hrefused
      cases hrefused
    | found span found class_ =>
      rw [hhit] at hspans hids
      obtain rfl : span = (symbol.line, symbol.endLine) := by simpa using hspans
      cases found with
      | none => cases hids
      | some found =>
        obtain rfl : found = id := by simpa [List.eraseDups_cons] using hids
        exact ⟨class_, rfl⟩
  · rintro ⟨class_, hhit⟩
    constructor <;> simp [resolveLocsFrom, hlocated, locate, hhit, List.eraseDups_cons]

section Table

variable {language : Language} {path currentClass wanted : Text} {total index other : Nat}
  {symbol found : Declared}

theorem SymbolTable.index_eq (hsymbol : table.symbols[index]? = some symbol)
    (hfound : table.symbols[other]? = some found) (hqualname : found.qualname = symbol.qualname)
    (hordinal : found.duplicateIndex = symbol.duplicateIndex) : other = index := by
  have hnumbered : ∀ {i : Nat} {held : Declared}, table.symbols[i]? = some held →
      (disambiguate table.extracted)[i]? = some held.toSymbol := by
    intro i held hheld
    rw [← table.numbered, List.getElem?_map, hheld]
    rfl
  exact disambiguate_distinct (hnumbered hfound) (hnumbered hsymbol) hqualname hordinal

/-- Symbols of one name are told apart by their ids. -/
theorem SymbolTable.eq_of_id_eq (hsymbol : table.symbols[index]? = some symbol)
    (hfound : found ∈ table.symbols) (hname : found.name = symbol.name)
    (hid : found.idQualname = symbol.idQualname) : found = symbol := by
  obtain ⟨other, hother⟩ := List.mem_iff_getElem?.mp hfound
  obtain ⟨hqualname, hordinal⟩ := idQualname_inj_of_name hname hid
  obtain rfl := table.index_eq hsymbol hother hqualname hordinal
  exact Option.some.inj (hother.symm.trans hsymbol)

theorem names_pick_iff {matches_ : Declared → Bool} (hsymbol : table.symbols[index]? = some symbol)
    (hname : ∀ found, matches_ found = true → found.name = symbol.name) :
    (pick isPrintable (table.target language path total) (table.symbols.filter matches_) wanted
        symbol.duplicateIndex).Names symbol (.of language path symbol.toSymbol) ↔
      (table.symbols.filter matches_).find? (fun found =>
        found.duplicateIndex = symbol.duplicateIndex) = some symbol := by
  unfold pick
  cases hfind : (table.symbols.filter matches_).find? fun found =>
      found.duplicateIndex = symbol.duplicateIndex with
  | none => exact iff_of_false (fun ⟨_, hhit⟩ => by cases hhit) (fun h => by cases h)
  | some found =>
    obtain ⟨hfound, hmatches⟩ := List.mem_filter.mp (List.mem_of_find?_eq_some hfind)
    constructor
    · rintro ⟨class_, hhit⟩
      have hid : found.idQualname = symbol.idQualname := by
        simp only [Facts.found, foundIn, SymbolTable.target, Option.map_some, Hit.found.injEq,
          Option.some.injEq, StableId.of, StableId.mk.injEq] at hhit
        exact hhit.2.1.2.2
      rw [table.eq_of_id_eq hsymbol hfound (hname found hmatches) hid]
    · intro h
      obtain rfl := Option.some.inj h
      exact ⟨none, rfl⟩

theorem find_eq_self {matches_ : Declared → Bool} (hsymbol : table.symbols[index]? = some symbol)
    (hqualname : ∀ found, matches_ found = true → found.qualname = symbol.qualname)
    (hself : matches_ symbol = true) :
    (table.symbols.filter matches_).find? (fun found =>
      found.duplicateIndex = symbol.duplicateIndex) = some symbol := by
  cases hfind : (table.symbols.filter matches_).find? fun found =>
      found.duplicateIndex = symbol.duplicateIndex with
  | none =>
    have hmem := List.mem_filter.mpr ⟨List.mem_of_getElem? hsymbol, hself⟩
    exact absurd (decide_eq_true rfl) (List.find?_eq_none.mp hfind symbol hmem)
  | some found =>
    obtain ⟨hfound, hmatches⟩ := List.mem_filter.mp (List.mem_of_find?_eq_some hfind)
    have hordinal : found.duplicateIndex = symbol.duplicateIndex := by
      simpa using List.find?_some hfind
    obtain ⟨other, hother⟩ := List.mem_iff_getElem?.mp hfound
    obtain rfl := table.index_eq hsymbol hother (hqualname found hmatches) hordinal
    rw [Option.some.inj (hother.symm.trans hsymbol)]

theorem find_ne_self {matches_ : Declared → Bool} (hself : matches_ symbol = false) :
    (table.symbols.filter matches_).find? (fun found =>
      found.duplicateIndex = symbol.duplicateIndex) ≠ some symbol := by
  intro hfind
  have hmatches := (List.mem_filter.mp (List.mem_of_find?_eq_some hfind)).2
  rw [hself] at hmatches
  cases hmatches

/-! ## Names that no symbol has -/

theorem method_not_found {owner : Text} {ordinal : Nat}
    (h : ∀ found ∈ target.symbols, found.name ≠ wanted) :
    (method isPrintable target owner wanted ordinal).isFound = false := by
  have hnone : target.symbols.filter (fun found => found.parent = owner && found.name = wanted) = [] :=
    List.filter_eq_nil_iff.mpr fun found hfound => by simp [h found hfound]
  unfold method
  dsimp only
  rw [hnone]
  split <;> rfl

theorem dotted_not_found {owner member : Text} {ordinal : Nat}
    (h : ∀ found ∈ target.symbols, found.name ≠ member) :
    (dotted isPrintable target wanted owner member ordinal).isFound = false := by
  have hnone : target.symbols.filter (fun found =>
      found.kind = .function && found.parent = owner && found.name = member) = [] :=
    List.filter_eq_nil_iff.mpr fun found hfound => by simp [h found hfound]
  unfold dotted
  dsimp only
  rw [hnone, if_pos rfl]
  exact method_not_found h

theorem bare_not_found {ordinal : Nat} (h : ∀ found ∈ target.symbols, found.name ≠ wanted) :
    (bare isPrintable target wanted ordinal currentClass).isFound = false := by
  have hfunctions : target.symbols.filter (fun found =>
      found.kind = .function && found.name = wanted) = [] :=
    List.filter_eq_nil_iff.mpr fun found hfound => by simp [h found hfound]
  have hmethods : target.symbols.filter (fun found => found.parent ≠ [] && found.name = wanted) = [] :=
    List.filter_eq_nil_iff.mpr fun found hfound => by simp [h found hfound]
  unfold bare unqualifiedMethod
  dsimp only
  rw [hfunctions, if_pos rfl, method_not_found h, hmethods]
  simp [Hit.isFound]

theorem not_names {hit : Hit} {id : StableId} (h : hit.isFound = false) : ¬ hit.Names symbol id := by
  rintro ⟨class_, rfl⟩
  cases h

/-! ## The cascade -/

theorem SymbolTable.dot_notMem (hsymbol : symbol ∈ table.symbols) : '.' ∉ symbol.name :=
  fun hdot => (table.name_free symbol hsymbol '.' hdot).1 (by simp)

theorem SymbolTable.hash_notMem (hsymbol : symbol ∈ table.symbols) : '#' ∉ symbol.name :=
  fun hhash => (table.name_free symbol hsymbol '#' hhash).1 (by simp)

/-- The name is split at its ordinal and at its last dot. -/
theorem function_idQualname (hsymbol : symbol ∈ table.symbols)
    (hordinal : symbol.duplicateIndex = 0 ∨ symbol.duplicateIndex + 1 < 10 ^ 6) :
    function isPrintable target symbol.idQualname currentClass =
      if symbol.parent = [] then
        bare isPrintable target symbol.name symbol.duplicateIndex currentClass
      else dotted isPrintable target symbol.qualname symbol.parent symbol.name
        symbol.duplicateIndex := by
  have hsplit : splitOrdinal symbol.idQualname = (symbol.qualname, symbol.duplicateIndex) := by
    refine splitOrdinal_idQualname (fun _ => carriesOrdinal_qualname (table.hash_notMem hsymbol)) ?_
    omega
  have hdot := table.dot_notMem hsymbol
  unfold function
  rw [hsplit]
  dsimp only
  by_cases hparent : symbol.parent = []
  · have hqualname : symbol.qualname = symbol.name := if_pos hparent
    rw [if_pos hparent, hqualname, rsplitOnce_eq_none hdot]
  · have hqualname : symbol.qualname = symbol.parent ++ '.' :: symbol.name := if_neg hparent
    rw [if_neg hparent, hqualname, rsplitOnce_append hdot]

/-- An ordinal of more digits is left in the name, which no symbol has then. -/
theorem function_large (hsymbol : symbol ∈ table.symbols) (hne : symbol.duplicateIndex ≠ 0)
    (hlarge : 10 ^ 6 ≤ symbol.duplicateIndex + 1) :
    (function isPrintable (table.target language path total) symbol.idQualname
      currentClass).isFound = false := by
  have hname : ∀ found ∈ (table.target language path total).symbols,
      found.name ≠ symbol.name ++ '#' :: Nat.toDigits 10 (symbol.duplicateIndex + 1) :=
    fun found hfound heq => table.hash_notMem hfound (by simp [heq])
  have hdot : '.' ∉ symbol.name ++ '#' :: Nat.toDigits 10 (symbol.duplicateIndex + 1) := by
    simp [table.dot_notMem hsymbol, dot_notMem_toDigits]
  unfold function
  rw [Symbol.idQualname, if_neg hne, splitOrdinal_large hlarge]
  dsimp only
  by_cases hparent : symbol.parent = []
  · have hqualname : symbol.qualname = symbol.name := if_pos hparent
    rw [hqualname, rsplitOnce_eq_none hdot]
    exact bare_not_found hname
  · have hqualname : symbol.qualname = symbol.parent ++ '.' :: symbol.name := if_neg hparent
    rw [hqualname, List.append_assoc, List.cons_append, rsplitOnce_append hdot]
    exact dotted_not_found hname

/-- An empty name leaves the form itself, which is no name. -/
theorem form_not_found :
    (resolve isPrintable (table.target language path total) "function:".toList currentClass).isFound =
      false := by
  have hsplit : splitOnce ":".toList "function:".toList = some ("function".toList, []) := by decide
  have hname : ∀ found ∈ table.symbols, found.name ≠ "function:".toList := fun found hfound heq =>
    (table.name_free found hfound ':' (by rw [heq]; decide)).1 (by simp)
  have hresolve : resolve isPrintable (table.target language path total) "function:".toList
      currentClass =
        bare isPrintable (table.target language path total) "function:".toList 0 currentClass := by
    unfold resolve
    simp only [hsplit]
    rfl
  rw [hresolve]
  exact bare_not_found hname

section Symbol

variable (hsymbol : table.symbols[index]? = some symbol)
include hsymbol

theorem method_names {owner : Text}
    (h : (method isPrintable (table.target language path total) owner symbol.name
      symbol.duplicateIndex).Names symbol (.of language path symbol.toSymbol)) :
    symbol.parent = owner := by
  unfold method at h
  dsimp only at h
  split at h
  · split at h
    · exact absurd h (not_names rfl)
    · have hfind := (names_pick_iff hsymbol fun found hmatches => by
        simpa using (Bool.and_eq_true_iff.mp hmatches).2).mp h
      have hmatches := (List.mem_filter.mp (List.mem_of_find?_eq_some hfind)).2
      simpa using (Bool.and_eq_true_iff.mp hmatches).1
  · exact absurd h (not_names rfl)

theorem unqualifiedMethod_names
    (h : (unqualifiedMethod isPrintable (table.target language path total) symbol.name
      symbol.duplicateIndex).Names symbol (.of language path symbol.toSymbol)) :
    symbol.parent ≠ [] := by
  unfold unqualifiedMethod at h
  dsimp only at h
  split at h
  · exact absurd h (not_names rfl)
  · split at h
    · exact absurd h (not_names rfl)
    · have hfind := (names_pick_iff hsymbol fun found hmatches => by
        simpa using (Bool.and_eq_true_iff.mp hmatches).2).mp h
      have hmatches := (List.mem_filter.mp (List.mem_of_find?_eq_some hfind)).2
      simpa using (Bool.and_eq_true_iff.mp hmatches).1

/-- A function without an owner is found when it is the first of its name and its ordinal. -/
theorem bare_names_iff (hkind : symbol.kind = .function) :
    (bare isPrintable (table.target language path total) symbol.name symbol.duplicateIndex
        currentClass).Names symbol (.of language path symbol.toSymbol) ↔
      ∀ earlier < index, ∀ other, table.symbols[earlier]? = some other → other.kind = .function →
        other.name = symbol.name → other.duplicateIndex ≠ symbol.duplicateIndex := by
  have hself : symbol ∈ table.symbols.filter fun found =>
      found.kind = .function && found.name = symbol.name :=
    List.mem_filter.mpr ⟨List.mem_of_getElem? hsymbol, by simp [hkind]⟩
  unfold bare
  dsimp only
  rw [table.symbols_target, if_neg (List.ne_nil_of_mem hself),
    names_pick_iff hsymbol fun found hmatches => by simpa using (Bool.and_eq_true_iff.mp hmatches).2,
    List.find?_filter, List.find?_eq_some_iff_getElem]
  constructor
  · rintro ⟨-, found, hfound, heq, hbefore⟩ earlier hearlier other hother hfunction hname hordinal
    obtain rfl := table.index_eq hsymbol (heq ▸ List.getElem?_eq_getElem hfound) rfl rfl
    have hnot := hbefore earlier hearlier
    rw [List.getElem?_eq_getElem (hearlier.trans hfound)] at hother
    rw [Option.some.inj hother] at hnot
    simp [hfunction, hname, hordinal] at hnot
  · intro hbefore
    obtain ⟨hlt, heq⟩ := List.getElem?_eq_some_iff.mp hsymbol
    refine ⟨by simp [hkind], index, hlt, heq, fun earlier hearlier => ?_⟩
    have hother := List.getElem?_eq_getElem (hearlier.trans hlt)
    have hnot := hbefore earlier hearlier _ hother
    grind

/-- A method without an owner is found nowhere. -/
theorem bare_not_names (hkind : symbol.kind = .method) (hparent : symbol.parent = []) :
    ¬ (bare isPrintable (table.target language path total) symbol.name symbol.duplicateIndex
        currentClass).Names symbol (.of language path symbol.toSymbol) := by
  unfold bare
  dsimp only
  split
  · split
    · next hclass =>
      intro hnames
      rw [method_names hsymbol hnames] at hparent
      simp [hparent] at hclass
    · exact fun hnames => unqualifiedMethod_names hsymbol hnames hparent
  · intro hnames
    have hfind := (names_pick_iff hsymbol fun found hmatches => by
      simpa using (Bool.and_eq_true_iff.mp hmatches).2).mp hnames
    exact find_ne_self (by simp [hkind]) hfind

/-- A function with an owner is found. -/
theorem dotted_names_of_function (hkind : symbol.kind = .function) :
    (dotted isPrintable (table.target language path total) wanted symbol.parent symbol.name
      symbol.duplicateIndex).Names symbol (.of language path symbol.toSymbol) := by
  have hself : symbol ∈ table.symbols.filter fun found =>
      found.kind = .function && found.parent = symbol.parent && found.name = symbol.name :=
    List.mem_filter.mpr ⟨List.mem_of_getElem? hsymbol, by simp [hkind]⟩
  unfold dotted
  dsimp only
  rw [table.symbols_target, if_neg (List.ne_nil_of_mem hself)]
  refine (names_pick_iff hsymbol fun found hmatches => by
    simpa using (Bool.and_eq_true_iff.mp hmatches).2).mpr (find_eq_self hsymbol ?_ (by simp [hkind]))
  intro found hmatches
  simp only [Bool.and_eq_true, decide_eq_true_eq] at hmatches
  rw [Symbol.qualname, Symbol.qualname, hmatches.1.2, hmatches.2]

/-- A method is found when no function has its owner and its name. -/
theorem dotted_names_iff_of_method (hkind : symbol.kind = .method) :
    (dotted isPrintable (table.target language path total) wanted symbol.parent symbol.name
        symbol.duplicateIndex).Names symbol (.of language path symbol.toSymbol) ↔
      ∀ other ∈ table.symbols, other.kind = .function → other.parent = symbol.parent →
        other.name ≠ symbol.name := by
  have hmem := List.mem_of_getElem? hsymbol
  unfold dotted
  dsimp only
  split
  · next hnested =>
    have hnone := List.filter_eq_nil_iff.mp hnested
    refine iff_of_true ?_ fun other hother hfunction hparent hname => ?_
    · obtain ⟨owner, howner, hclass, hname⟩ := table.owner_mem symbol hmem hkind
      have hdefined : (table.target language path total).symbols.any (fun found =>
          classKinds.contains found.kind && found.name = symbol.parent) = true :=
        List.any_eq_true.mpr ⟨owner, howner, by simp [hclass, hname]⟩
      have hself : symbol ∈ table.symbols.filter fun found =>
          found.parent = symbol.parent && found.name = symbol.name :=
        List.mem_filter.mpr ⟨hmem, by simp⟩
      unfold method
      dsimp only
      rw [if_pos hdefined, table.symbols_target, if_neg (List.ne_nil_of_mem hself)]
      refine (names_pick_iff hsymbol fun found hmatches => by
        simpa using (Bool.and_eq_true_iff.mp hmatches).2).mpr (find_eq_self hsymbol ?_ (by simp))
      intro found hmatches
      simp only [Bool.and_eq_true, decide_eq_true_eq] at hmatches
      rw [Symbol.qualname, Symbol.qualname, hmatches.1, hmatches.2]
    · exact hnone other hother (by simp [hfunction, hparent, hname])
  · next hnested =>
    obtain ⟨other, hother⟩ := List.exists_mem_of_ne_nil _ hnested
    obtain ⟨hother, hmatches⟩ := List.mem_filter.mp hother
    simp only [Bool.and_eq_true, decide_eq_true_eq] at hmatches
    refine iff_of_false (fun hnames => ?_) fun hall =>
      hall other hother hmatches.1.1 hmatches.1.2 hmatches.2
    have hfind := (names_pick_iff hsymbol fun found hmatches => by
      simpa using (Bool.and_eq_true_iff.mp hmatches).2).mp hnames
    exact find_ne_self (by simp [hkind]) hfind

theorem idQualname_free : ∀ c ∈ symbol.idQualname, isSpace c = false := by
  have hmem := List.mem_of_getElem? hsymbol
  have hqualname : ∀ c ∈ symbol.qualname, isSpace c = false := by
    intro c hc
    rw [Symbol.qualname, qualified] at hc
    split at hc
    · exact (table.name_free symbol hmem c hc).2
    · rcases List.mem_append.mp hc with hparent | hname
      · exact table.parent_free symbol hmem c hparent
      · rcases List.mem_cons.mp hname with rfl | hname
        · rfl
        · exact (table.name_free symbol hmem c hname).2
  intro c hc
  rw [Symbol.idQualname] at hc
  split at hc
  · exact hqualname c hc
  · rcases List.mem_append.mp hc with hname | hordinal
    · exact hqualname c hname
    · rcases List.mem_cons.mp hordinal with rfl | hdigit
      · rfl
      · exact isSpace_of_isDigit (Nat.isDigit_of_mem_toDigits (by decide) (by decide) hdigit)

end Symbol

end Table

end Resolving

/-- The name of a function or a method resolves to it, whatever the current class, exactly when the
name addresses it. -/
theorem function_resolves_iff (isPrintable : Nat → Bool) (table : SymbolTable) (language : Language)
    (path : Text) (total context : Nat) (currentClass : Text) {index : Nat} {symbol : Declared}
    (hsymbol : table.symbols[index]? = some symbol)
    (hkind : symbol.kind = .function ∨ symbol.kind = .method) :
    (resolveLocsFrom isPrintable (table.target language path total) currentClass
        [functionLoc symbol] context).IsAt symbol (.of language path symbol.toSymbol) ↔
      table.Addressed index symbol := by
  have hmem := List.mem_of_getElem? hsymbol
  have hloc : functionLoc symbol = "function: ".toList ++ symbol.idQualname := rfl
  by_cases hspelled : symbol.idQualname = []
  · have hlocs : splitLocs [functionLoc symbol] = ["function:".toList] := by
      rw [hloc, hspelled]
      exact splitLocs_no_name
    exact iff_of_false (fun hat => not_names form_not_found ((isAt_iff hlocs).mp hat))
      fun h => h.spelled hspelled
  have hfree := idQualname_free hsymbol
  have hlocs : splitLocs [functionLoc symbol] = [functionLoc symbol] :=
    splitLocs_function hfree hspelled
  rw [isAt_iff hlocs, hloc, resolve_function hfree hspelled]
  by_cases hordinal : symbol.duplicateIndex = 0 ∨ symbol.duplicateIndex + 1 < 10 ^ 6
  · rw [function_idQualname hmem hordinal]
    rcases hkind with hkind | hkind
    · have hmethod : symbol.kind ≠ .method := by simp [hkind]
      by_cases hparent : symbol.parent = []
      · rw [if_pos hparent, bare_names_iff hsymbol hkind]
        exact ⟨fun hfirst => ⟨hspelled, hordinal, fun _ _ => hfirst, fun h => absurd h hmethod⟩,
          fun h => h.first hkind hparent⟩
      · rw [if_neg hparent]
        exact iff_of_true (dotted_names_of_function hsymbol hkind)
          ⟨hspelled, hordinal, fun _ h => absurd h hparent, fun h => absurd h hmethod⟩
    · have hfunction : symbol.kind ≠ .function := by simp [hkind]
      by_cases hparent : symbol.parent = []
      · rw [if_pos hparent]
        exact iff_of_false (bare_not_names hsymbol hkind hparent) fun h => (h.alone hkind).1 hparent
      · rw [if_neg hparent, dotted_names_iff_of_method hsymbol hkind]
        exact ⟨fun halone => ⟨hspelled, hordinal, fun h => absurd h hfunction, fun _ => ⟨hparent, halone⟩⟩,
          fun h => (h.alone hkind).2⟩
  · obtain ⟨hne, hlarge⟩ := not_or.mp hordinal
    exact iff_of_false (not_names (function_large hmem hne (Nat.le_of_not_lt hlarge)))
      fun h => hordinal h.ordinal_lt

/-! A function `f` nested in `g` stands before the module function `f`, whose name then resolves to
the nested one. -/
namespace NestedFirst

def outer : Declared := ⟨⟨"g".toList, 1, 3, 1, [], [], 0⟩, .function, "def g()".toList, []⟩

def nested : Declared := ⟨⟨"f".toList, 2, 3, 2, "g".toList, [], 0⟩, .function, "def f()".toList, []⟩

def module : Declared := ⟨⟨"f".toList, 5, 6, 5, [], [], 0⟩, .function, "def f()".toList, []⟩

/-- A function whose nested function has the name of a module function, each with its body on the
lines after its header. -/
def table : SymbolTable where
  symbols := [outer, nested, module]
  extracted := [outer.toSymbol, nested.toSymbol, module.toSymbol]
  numbered := by
    have horder : lineOrder [outer.toSymbol, nested.toSymbol, module.toSymbol] = [0, 1, 2] :=
      List.mergeSort_of_pairwise (by decide)
    rw [disambiguate, horder]
    decide
  name_free := by simp [outer, nested, module, isSpace]
  parent_free := by simp [outer, nested, module, isSpace]
  owner_mem := by decide

theorem function_misses : table.symbols[2]? = some module ∧ module.kind = .function ∧
    ¬ (resolveLocsFrom (fun _ => true) (table.target .python "a.py".toList 6) []
      [functionLoc module] 10).IsAt module (.of .python "a.py".toList module.toSymbol) := by
  refine ⟨rfl, rfl, fun hat => ?_⟩
  have hspans : (resolveLocsFrom (fun _ => true) (table.target .python "a.py".toList 6) []
      [functionLoc module] 10).spans = [(2, 3)] := rfl
  rw [hat.spans] at hspans
  exact absurd hspans (by decide)

theorem function_resolves_iff_nested :
    (resolveLocsFrom (fun _ => true) (table.target .python "a.py".toList 6) []
        [functionLoc nested] 10).IsAt nested (.of .python "a.py".toList nested.toSymbol) ↔
      table.Addressed 1 nested :=
  function_resolves_iff (fun _ => true) table .python "a.py".toList 6 10 [] rfl (.inl rfl)

end NestedFirst

end Agentless.Facts
