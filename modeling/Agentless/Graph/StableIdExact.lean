import Agentless.Graph.Lookup

/-!
# Ids of the symbols of one file

The ordinal after `#` tells the symbols of one qualified name apart, and it is split off again. A
qualified name that itself ends like an ordinal is the exception: it can spell another symbol's id.
-/

namespace Agentless.Graph

open Find Text Syntax

/-! ## Qualified names are kept -/

theorem map_qualname_countStep (state : List Symbol × List (Text × Nat)) (position : Nat) :
    (countStep state position).1.map Symbol.qualname = state.1.map Symbol.qualname := by
  cases hheld : state.1[position]? with
  | none => rw [countStep, hheld]
  | some held =>
    rw [countStep, hheld]
    dsimp only
    obtain ⟨hlt, rfl⟩ := List.getElem?_eq_some_iff.mp hheld
    refine List.ext_getElem? fun i => ?_
    by_cases hi : position = i
    · subst hi
      simp [hlt, qualname_numbered]
    · simp [List.getElem?_set_ne hi]

theorem map_qualname_disambiguate (symbols : List Symbol) :
    (disambiguate symbols).map Symbol.qualname = symbols.map Symbol.qualname := by
  have hfold (order : List Nat) (state : List Symbol × List (Text × Nat)) :
      (order.foldl countStep state).1.map Symbol.qualname = state.1.map Symbol.qualname := by
    induction order generalizing state with
    | nil => rfl
    | cons position order ih => rw [List.foldl_cons, ih, map_qualname_countStep]
  exact hfold (lineOrder symbols) (symbols, [])

theorem qualname_mem_of_disambiguate {symbols : List Symbol} {symbol : Symbol}
    (h : symbol ∈ disambiguate symbols) : ∃ given ∈ symbols, given.qualname = symbol.qualname := by
  have hmem : symbol.qualname ∈ symbols.map Symbol.qualname := by
    rw [← map_qualname_disambiguate]
    exact List.mem_map_of_mem h
  exact List.mem_map.mp hmem

/-! ## Ids -/

/-- The qualified name spells the other one with an ordinal. -/
def Spells (qualname other : Text) : Prop := ∃ n, qualname = other ++ '#' :: Nat.toDigits 10 n

/-- The text after the last `#` is one to six digits, up to one final line feed. -/
def carriesOrdinal (qualname : Text) : Bool :=
  match rsplitOnce '#' qualname with
  | none => false
  | some (_, tail) =>
    stripLineFeed tail ≠ [] && (stripLineFeed tail).length ≤ 6 &&
      (stripLineFeed tail).all isAsciiDigit

/-- Equal ids come from one qualified name and ordinal, or from a name that spells the other. -/
theorem idQualname_eq_cases {symbol other : Symbol} (h : symbol.idQualname = other.idQualname) :
    (symbol.qualname = other.qualname ∧ symbol.duplicateIndex = other.duplicateIndex) ∨
      Spells symbol.qualname other.qualname ∨ Spells other.qualname symbol.qualname := by
  unfold Symbol.idQualname at h
  split_ifs at h with hzero hzero' hzero'
  · exact .inl ⟨h, by rw [hzero, hzero']⟩
  · exact .inr (.inl ⟨_, h⟩)
  · exact .inr (.inr ⟨_, h.symm⟩)
  · have hsplit := congrArg (rsplitOnce '#') h
    rw [rsplitOnce_append (hash_notMem_toDigits _),
      rsplitOnce_append (hash_notMem_toDigits _)] at hsplit
    obtain ⟨hqualname, hdigits⟩ := Prod.mk.inj (Option.some.inj hsplit)
    have hvalue := congrArg (fun digits => Nat.ofDigitChars 10 digits 0) hdigits
    simp only [Nat.ofDigitChars_ten_toDigits] at hvalue
    exact .inl ⟨hqualname, by omega⟩

theorem disambiguate_ids_nodup {symbols : List Symbol}
    (h : ∀ symbol ∈ symbols, ∀ other ∈ symbols, ¬Spells symbol.qualname other.qualname)
    (language : Language) (path : Text) :
    ((disambiguate symbols).map (StableId.of language path)).Nodup := by
  refine List.nodup_iff_getElem?_ne_getElem?.mpr fun i j hij hj hsame => ?_
  rw [List.length_map] at hj
  have hi := List.getElem?_eq_getElem (hij.trans hj)
  have hj' := List.getElem?_eq_getElem hj
  rw [List.getElem?_map, List.getElem?_map, hi, hj'] at hsame
  have hid := congrArg StableId.qualname (Option.some.inj hsame)
  obtain ⟨given, hgiven, hname⟩ := qualname_mem_of_disambiguate (List.mem_of_getElem? hi)
  obtain ⟨given', hgiven', hname'⟩ := qualname_mem_of_disambiguate (List.mem_of_getElem? hj')
  rcases idQualname_eq_cases hid with ⟨hqualname, hindex⟩ | hspells | hspells
  · exact hij.ne (disambiguate_distinct hi hj' hqualname hindex)
  · rw [← hname, ← hname'] at hspells
    exact h given hgiven given' hgiven' hspells
  · rw [← hname, ← hname'] at hspells
    exact h given' hgiven' given hgiven hspells

/-! ## Splitting the ordinal off -/

theorem stripLineFeed_toDigits (n : Nat) : stripLineFeed (Nat.toDigits 10 n) = Nat.toDigits 10 n := by
  refine if_neg fun h => ?_
  have hdigit := isAsciiDigit_of_mem_toDigits (List.mem_of_getLast? h)
  exact absurd hdigit (by decide)

theorem splitOrdinal_numbered {qualname : Text} {n : Nat} (h : n < 10 ^ 6) :
    splitOrdinal (qualname ++ '#' :: Nat.toDigits 10 n) = (qualname, n - 1) := by
  have hlength : (Nat.toDigits 10 n).length ≤ 6 :=
    (Nat.length_toDigits_le_iff (by decide) (by decide)).mpr h
  have hdigits : (Nat.toDigits 10 n).all isAsciiDigit = true :=
    List.all_eq_true.mpr fun c hc => isAsciiDigit_of_mem_toDigits hc
  have hvalue : digitsValue (Nat.toDigits 10 n) = n := Nat.ofDigitChars_ten_toDigits
  rw [splitOrdinal, rsplitOnce_append (hash_notMem_toDigits n)]
  dsimp only
  rw [stripLineFeed_toDigits, hdigits, hvalue, if_pos]
  simp [Nat.toDigits_ne_nil, ordinalMaxDigits, hlength]

theorem splitOrdinal_whole {qualname : Text} (h : carriesOrdinal qualname = false) :
    splitOrdinal qualname = (qualname, 0) := by
  unfold carriesOrdinal at h
  unfold splitOrdinal
  split
  · rfl
  · rename_i base tail hsplit
    rw [hsplit] at h
    dsimp only at h ⊢
    rw [ordinalMaxDigits, h, if_neg Bool.false_ne_true]

theorem splitOrdinal_idQualname {symbol : Symbol}
    (hname : symbol.duplicateIndex = 0 → carriesOrdinal symbol.qualname = false)
    (hindex : symbol.duplicateIndex + 1 < 10 ^ 6) :
    splitOrdinal symbol.idQualname = (symbol.qualname, symbol.duplicateIndex) := by
  unfold Symbol.idQualname
  split_ifs with hzero
  · rw [hzero, splitOrdinal_whole (hname hzero)]
  · rw [splitOrdinal_numbered hindex, Nat.add_sub_cancel]

/-! ## Reading a displayed id -/

theorem parse_display {language : Language} {path : Text} {symbol : Symbol}
    (huncut : contains qualnameSeparator path = false) (hlast : path.getLast? ≠ some ':')
    (hpath : wellFormed path = true) (hqualname : wellFormed symbol.idQualname = true)
    (hmarker : contains rationaleMarker (StableId.of language path symbol).display = false) :
    StableId.parse (StableId.of language path symbol).display = .ok (.of language path symbol) := by
  have hpre : splitOnce ":".toList (StableId.of language path symbol).display =
      some (language.idPrefix, path ++ qualnameSeparator ++ symbol.idQualname) :=
    splitOnce_singleton (Language.colon_notMem_idPrefix language)
  have hcut : splitOnce qualnameSeparator (path ++ qualnameSeparator ++ symbol.idQualname) =
      some (path, symbol.idQualname) := splitOnce_pair huncut hlast
  have hparts : idParts (StableId.of language path symbol).display =
      some (language.idPrefix, path, symbol.idQualname) := by
    simp only [idParts, hpre, hcut, Option.bind_eq_bind, Option.bind_some, wellFormed_idPrefix,
      hpath, hqualname, Bool.and_self, if_true]
  rw [StableId.parse, hmarker, if_neg Bool.false_ne_true, hparts]
  rfl

/-- After the ordinals are given, ids are distinct where no qualified name spells another with an
ordinal, the ordinal splits off where the name itself carries none and it has at most six digits,
and the displayed id reads back where its parts are well formed and the path does not end in a
colon. -/
theorem disambiguate_identifies (symbols : List Symbol) (language : Language) (path : Text) :
    ((∀ symbol ∈ symbols, ∀ other ∈ symbols, ¬Spells symbol.qualname other.qualname) →
      ((disambiguate symbols).map (StableId.of language path)).Nodup) ∧
    ∀ symbol ∈ disambiguate symbols,
      ((symbol.duplicateIndex = 0 → carriesOrdinal symbol.qualname = false) →
        symbol.duplicateIndex + 1 < 10 ^ 6 →
        splitOrdinal (StableId.of language path symbol).qualname =
          (symbol.qualname, symbol.duplicateIndex)) ∧
      (contains qualnameSeparator path = false → path.getLast? ≠ some ':' →
        wellFormed path = true → wellFormed symbol.idQualname = true →
        contains rationaleMarker (StableId.of language path symbol).display = false →
        StableId.parse (StableId.of language path symbol).display =
          .ok (.of language path symbol)) :=
  ⟨fun h => disambiguate_ids_nodup h language path,
    fun _ _ => ⟨splitOrdinal_idQualname, parse_display⟩⟩

def Keys.plain : Symbol := ⟨"a".toList, 1, 1, 1, [], [], 0⟩

def Keys.later : Symbol := ⟨"a".toList, 2, 2, 2, [], [], 0⟩

def Keys.spelled : Symbol := ⟨"a#2".toList, 3, 3, 3, [], [], 0⟩

theorem Keys.disambiguate_three :
    disambiguate [plain, later, spelled] = [plain, later.numbered 1, spelled] := by
  have horder : lineOrder [plain, later, spelled] = [0, 1, 2] :=
    List.mergeSort_of_pairwise (by decide)
  rw [disambiguate, horder]
  decide

theorem Keys.disambiguate_two : disambiguate [plain, later] = [plain, later.numbered 1] := by
  have horder : lineOrder [plain, later] = [0, 1] := List.mergeSort_of_pairwise (by decide)
  rw [disambiguate, horder]
  decide

/-- Two keys `a` and a key `a#2`: the last two have one id, and the ordinal of the last splits off
though it has none. A blank path has no `::`, and its id does not read back. -/
theorem disambiguate_confuses :
    ¬((disambiguate [Keys.plain, Keys.later, Keys.spelled]).map
      (StableId.of .json "k.json".toList)).Nodup ∧
    splitOrdinal (StableId.of .json "k.json".toList Keys.spelled).qualname ≠
      (Keys.spelled.qualname, Keys.spelled.duplicateIndex) ∧
    contains qualnameSeparator " ".toList = false ∧
    StableId.parse (StableId.of .json " ".toList Keys.plain).display ≠
      .ok (.of .json " ".toList Keys.plain) := by
  rw [Keys.disambiguate_three]
  refine ⟨by decide, by decide, by decide, ?_⟩
  decide

theorem disambiguate_identifies_two :
    ((disambiguate [Keys.plain, Keys.later]).map (StableId.of .json "k.json".toList)).Nodup ∧
    splitOrdinal (StableId.of .json "k.json".toList (Keys.later.numbered 1)).qualname =
      ("a".toList, 1) ∧
    StableId.parse (StableId.of .json "k.json".toList (Keys.later.numbered 1)).display =
      .ok (.of .json "k.json".toList (Keys.later.numbered 1)) := by
  have hspells : ∀ symbol ∈ [Keys.plain, Keys.later], ∀ other ∈ [Keys.plain, Keys.later],
      ¬Spells symbol.qualname other.qualname := by
    rintro symbol hsymbol other hother ⟨n, hn⟩
    have hlength := congrArg List.length hn
    have hsize : ∀ symbol ∈ [Keys.plain, Keys.later], symbol.qualname.length = 1 := by decide
    simp only [List.length_append, List.length_cons, hsize symbol hsymbol, hsize other hother] at hlength
    omega
  obtain ⟨hnodup, hsymbols⟩ :=
    disambiguate_identifies [Keys.plain, Keys.later] .json "k.json".toList
  have hlater : Keys.later.numbered 1 ∈ disambiguate [Keys.plain, Keys.later] := by
    rw [Keys.disambiguate_two]
    decide
  obtain ⟨hsplit, hparse⟩ := hsymbols _ hlater
  refine ⟨hnodup hspells, hsplit (by decide) (by decide), ?_⟩
  exact hparse (by decide) (by decide) (by decide) (by decide) (by decide)

end Agentless.Graph
