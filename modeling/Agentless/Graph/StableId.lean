import Agentless.Graph.Resolver
import Agentless.Library.Assoc
import Agentless.Library.Find

/-!
# Stable ids

A stable id spells a language prefix, a path and a qualified name. The symbols of a file that share
a qualified name are told apart by an ordinal, in the order of their lines.
-/

namespace Agentless.Graph

open Find Text Syntax

structure StableId where
  langPrefix : Text
  path : Text
  qualname : Text
deriving DecidableEq, Repr

inductive StableIdError where
  | rationaleHandle (text : Text)
  | malformed (text : Text)
deriving DecidableEq, Repr

def qualnameSeparator : Text := "::".toList

def rationaleMarker : Text := "::rationale@".toList

def StableId.of (language : Language) (path : Text) (symbol : Symbol) : StableId :=
  ⟨language.idPrefix, path, symbol.idQualname⟩

def StableId.display (id : StableId) : Text :=
  id.langPrefix ++ ':' :: (id.path ++ qualnameSeparator ++ id.qualname)

def isControl (c : Char) : Bool := c.toNat ≤ 0x1f || c.toNat = 0x7f

def wellFormed (part : Text) : Bool := strip part ≠ [] && !part.any isControl

def idParts (text : Text) : Option (Text × Text × Text) := do
  let (langPrefix, rest) ← splitOnce ":".toList text
  let (path, qualname) ← splitOnce qualnameSeparator rest
  if wellFormed langPrefix && wellFormed path && wellFormed qualname then
    some (langPrefix, path, qualname)
  else none

def StableId.parse (text : Text) : Except StableIdError StableId :=
  if contains rationaleMarker text then .error (.rationaleHandle text)
  else
    match idParts text with
    | some (langPrefix, path, qualname) => .ok ⟨langPrefix, path, qualname⟩
    | none => .error (.malformed text)

/-! ## Ordinals -/

def ordinalMaxDigits : Nat := 6

def isAsciiDigit (c : Char) : Bool := '0' ≤ c && c ≤ '9'

def stripLineFeed (text : Text) : Text := if text.getLast? = some '\n' then text.dropLast else text

def digitsValue (digits : Text) : Nat :=
  digits.foldl (fun value c => 10 * value + (c.toNat - '0'.toNat)) 0

/-- The base of a qualified name and its 0-based ordinal: one to six digits after the last `#`. -/
def splitOrdinal (qualname : Text) : Text × Nat :=
  match rsplitOnce '#' qualname with
  | none => (qualname, 0)
  | some (base, tail) =>
    let digits := stripLineFeed tail
    if digits ≠ [] && digits.length ≤ ordinalMaxDigits && digits.all isAsciiDigit then
      (base, digitsValue digits - 1)
    else (qualname, 0)

def Symbol.numbered (symbol : Symbol) (count : Nat) : Symbol :=
  { symbol with duplicateIndex := count }

/-- Each symbol gets the count of earlier ones with its qualified name. -/
def countStep (state : List Symbol × List (Text × Nat)) (position : Nat) :
    List Symbol × List (Text × Nat) :=
  match state.1[position]? with
  | none => state
  | some symbol =>
    let count := (state.2.lookup symbol.qualname).getD 0
    (state.1.set position (symbol.numbered count),
      (symbol.qualname, count + 1) :: state.2)

/-- The positions by line, and those of one line in order. -/
def lineOrder (symbols : List Symbol) : List Nat :=
  (List.range symbols.length).mergeSort fun i j =>
    (symbols[i]?.map Symbol.line).getD 0 ≤ (symbols[j]?.map Symbol.line).getD 0

def disambiguate (symbols : List Symbol) : List Symbol :=
  ((lineOrder symbols).foldl countStep (symbols, [])).1

/-! ## Symbols of one qualified name -/

/-- The positions in `done` have an ordinal each that no other of their name has. -/
structure Counted (done : List Nat) (state : List Symbol × List (Text × Nat)) : Prop where
  below : ∀ i ∈ done, ∀ symbol, state.1[i]? = some symbol →
    symbol.duplicateIndex < (state.2.lookup symbol.qualname).getD 0
  distinct : ∀ i ∈ done, ∀ j ∈ done, ∀ symbol other, state.1[i]? = some symbol →
    state.1[j]? = some other → symbol.qualname = other.qualname →
    symbol.duplicateIndex = other.duplicateIndex → i = j

theorem qualname_numbered (symbol : Symbol) (count : Nat) :
    (symbol.numbered count).qualname = symbol.qualname := rfl

theorem duplicateIndex_numbered (symbol : Symbol) (count : Nat) :
    (symbol.numbered count).duplicateIndex = count := rfl

theorem getElem?_countStep {state : List Symbol × List (Text × Nat)} {position i : Nat}
    {held symbol : Symbol} (hheld : state.1[position]? = some held)
    (h : (countStep state position).1[i]? = some symbol) :
    (i = position ∧ symbol = held.numbered ((state.2.lookup held.qualname).getD 0)) ∨
      (i ≠ position ∧ state.1[i]? = some symbol) := by
  rw [countStep, hheld] at h
  dsimp only at h
  by_cases hi : i = position
  · subst hi
    rw [List.getElem?_set_self (List.getElem?_eq_some_iff.mp hheld).1] at h
    exact .inl ⟨rfl, (Option.some.inj h).symm⟩
  · rw [List.getElem?_set_ne (Ne.symm hi)] at h
    exact .inr ⟨hi, h⟩

theorem Counted.step {done : List Nat} {state : List Symbol × List (Text × Nat)} {position : Nat}
    (h : Counted done state) : Counted (position :: done) (countStep state position) := by
  cases hheld : state.1[position]? with
  | none =>
    have hstep : countStep state position = state := by rw [countStep, hheld]
    have hdone : ∀ i ∈ position :: done, ∀ symbol, state.1[i]? = some symbol → i ∈ done := by
      intro i hi symbol hsymbol
      rcases List.mem_cons.mp hi with rfl | hi
      · rw [hheld] at hsymbol
        cases hsymbol
      · exact hi
    rw [hstep]
    exact ⟨fun i hi symbol hsymbol => h.below i (hdone i hi symbol hsymbol) symbol hsymbol,
      fun i hi j hj symbol other hsymbol hother => h.distinct i (hdone i hi symbol hsymbol) j
        (hdone j hj other hother) symbol other hsymbol hother⟩
  | some held =>
    have hlookup : ∀ name, ((countStep state position).2.lookup name).getD 0 =
        if name = held.qualname then (state.2.lookup held.qualname).getD 0 + 1
        else (state.2.lookup name).getD 0 := by
      intro name
      rw [countStep, hheld]
      dsimp only
      rw [Assoc.lookup_cons_eq]
      split_ifs <;> rfl
    constructor
    · intro i hi symbol hsymbol
      rw [hlookup]
      rcases getElem?_countStep hheld hsymbol with ⟨rfl, rfl⟩ | ⟨hne, hsymbol⟩
      · rw [qualname_numbered, if_pos rfl]
        exact Nat.lt_succ_self _
      · have hbelow := h.below i ((List.mem_cons.mp hi).resolve_left hne) symbol hsymbol
        split_ifs with hname
        · rw [hname] at hbelow
          exact Nat.lt_succ_of_lt hbelow
        · exact hbelow
    · intro i hi j hj symbol other hsymbol hother hname hindex
      rcases getElem?_countStep hheld hsymbol with ⟨rfl, rfl⟩ | ⟨hi', hsymbol'⟩
      · rcases getElem?_countStep hheld hother with ⟨rfl, -⟩ | ⟨hj', hother'⟩
        · rfl
        · have hbelow := h.below j ((List.mem_cons.mp hj).resolve_left hj') other hother'
          rw [← hname, ← hindex, qualname_numbered, duplicateIndex_numbered] at hbelow
          exact absurd hbelow (lt_irrefl _)
      · rcases getElem?_countStep hheld hother with ⟨rfl, rfl⟩ | ⟨hj', hother'⟩
        · have hbelow := h.below i ((List.mem_cons.mp hi).resolve_left hi') symbol hsymbol'
          rw [hname, hindex, qualname_numbered, duplicateIndex_numbered] at hbelow
          exact absurd hbelow (lt_irrefl _)
        · exact h.distinct i ((List.mem_cons.mp hi).resolve_left hi') j
            ((List.mem_cons.mp hj).resolve_left hj') symbol other hsymbol' hother' hname hindex

theorem length_countStep (state : List Symbol × List (Text × Nat)) (position : Nat) :
    (countStep state position).1.length = state.1.length := by
  unfold countStep
  split
  · rfl
  · simp

theorem counted_foldl {order done : List Nat} {state : List Symbol × List (Text × Nat)}
    (h : Counted done state) :
    Counted (order.reverse ++ done) (order.foldl countStep state) ∧
      (order.foldl countStep state).1.length = state.1.length := by
  induction order generalizing done state with
  | nil => exact ⟨h, rfl⟩
  | cons position order ih =>
    obtain ⟨hcounted, hlength⟩ := @ih (position :: done) (countStep state position) h.step
    rw [List.foldl_cons, List.reverse_cons, List.append_assoc]
    exact ⟨hcounted, hlength.trans (length_countStep state position)⟩

/-- Symbols of one file that share a qualified name have different ordinals. -/
theorem disambiguate_distinct {symbols : List Symbol} {i j : Nat} {symbol other : Symbol}
    (hi : (disambiguate symbols)[i]? = some symbol) (hj : (disambiguate symbols)[j]? = some other)
    (hname : symbol.qualname = other.qualname)
    (hindex : symbol.duplicateIndex = other.duplicateIndex) : i = j := by
  have hstart : Counted [] (symbols, []) := ⟨by simp, by simp⟩
  obtain ⟨hcounted, hlength⟩ := @counted_foldl (lineOrder symbols) _ _ hstart
  have hdone : ∀ k symbol, (disambiguate symbols)[k]? = some symbol →
      k ∈ (lineOrder symbols).reverse ++ [] := by
    intro k symbol hk
    have hlt := (List.getElem?_eq_some_iff.mp hk).1
    rw [disambiguate, hlength] at hlt
    simpa [lineOrder, List.mem_mergeSort] using hlt
  exact hcounted.distinct i (hdone i symbol hi) j (hdone j other hj) symbol other hi hj hname hindex

/-! ## Ids that read back -/

/-- A path that no `::` cuts, at its ends either, and a text without a control character, a blank
part or a rationale marker. -/
structure Printable (language : Language) (path : Text) (symbol : Symbol) : Prop where
  uncut : contains qualnameSeparator path = false
  head_ne : path.head? ≠ some ':'
  getLast_ne : path.getLast? ≠ some ':'
  path_ne : strip path ≠ []
  qualname_ne : strip symbol.idQualname ≠ []
  control : ∀ c ∈ stableId language path symbol, isControl c = false
  marker : contains rationaleMarker (stableId language path symbol) = false

theorem wellFormed_idPrefix (language : Language) : wellFormed language.idPrefix = true := by
  cases language <;> decide

theorem wellFormed_of {part : Text} (hblank : strip part ≠ []) (hcontrol : ∀ c ∈ part, isControl c = false) :
    wellFormed part = true := by
  simp only [wellFormed, hblank, ne_eq, not_false_eq_true, decide_true, Bool.true_and,
    Bool.not_eq_true', List.any_eq_false]
  intro c hc
  simp [hcontrol c hc]

theorem Printable.parse {language : Language} {path : Text} {symbol : Symbol}
    (h : Printable language path symbol) :
    StableId.parse (stableId language path symbol) = .ok (.of language path symbol) := by
  have hpre : splitOnce ":".toList (stableId language path symbol) =
      some (language.idPrefix, path ++ qualnameSeparator ++ symbol.idQualname) :=
    splitOnce_singleton (Language.colon_notMem_idPrefix language)
  have hpath : splitOnce qualnameSeparator (path ++ qualnameSeparator ++ symbol.idQualname) =
      some (path, symbol.idQualname) := splitOnce_pair h.uncut h.getLast_ne
  have hcontrol : ∀ c ∈ path ++ symbol.idQualname, isControl c = false := by
    intro c hc
    refine h.control c ?_
    simp only [stableId, List.mem_append, List.mem_cons] at hc ⊢
    tauto
  have hparts : idParts (stableId language path symbol) =
      some (language.idPrefix, path, symbol.idQualname) := by
    have hpart := wellFormed_of h.path_ne fun c hc => hcontrol c (List.mem_append_left _ hc)
    have hqualname := wellFormed_of h.qualname_ne fun c hc => hcontrol c (List.mem_append_right _ hc)
    simp only [idParts, hpre, hpath, Option.bind_eq_bind, Option.bind_some,
      wellFormed_idPrefix, hpart, hqualname, Bool.and_self, if_true]
  rw [StableId.parse, h.marker, if_neg Bool.false_ne_true, hparts]
  rfl

/-! ## Symbols of one id -/

theorem hash_notMem_toDigits (n : Nat) : '#' ∉ Nat.toDigits 10 n := by
  intro h
  have hdigit := Nat.isDigit_of_mem_toDigits (by decide) (by decide) h
  exact absurd hdigit (by decide)

theorem dot_notMem_toDigits (n : Nat) : '.' ∉ Nat.toDigits 10 n := by
  intro h
  have hdigit := Nat.isDigit_of_mem_toDigits (by decide) (by decide) h
  exact absurd hdigit (by decide)

/-- What stands before the name in a qualified name: nothing, or an owner and a dot. -/
def Symbol.owner (symbol : Symbol) : Text := if symbol.parent = [] then [] else symbol.parent ++ ['.']

theorem qualname_eq_owner (symbol : Symbol) : symbol.qualname = symbol.owner ++ symbol.name := by
  unfold Symbol.qualname qualified Symbol.owner
  split_ifs <;> simp

theorem count_dot_pos {symbol : Symbol} {before after : Text} (h : symbol.owner = before ++ after)
    (hafter : after ≠ []) : 0 < after.count '.' := by
  unfold Symbol.owner at h
  split_ifs at h
  · exact absurd (List.append_eq_nil_iff.mp h.symm).2 hafter
  · have hlast : after.getLast? = some '.' := by
      rw [← List.getLast?_append_of_ne_nil before hafter, ← h, List.getLast?_concat]
    exact List.count_pos_iff.mpr (List.mem_of_getLast? hlast)

theorem owner_name_ordinal_ne {symbol other : Symbol} {name ordinal : Text} (hdot : '.' ∉ ordinal)
    (hne : ordinal ≠ []) :
    symbol.owner ++ name ++ ordinal ≠ other.owner ++ name := by
  intro h
  -- The other owner is the longer one, and what it has more ends in a dot: one dot too many.
  have hlength := congrArg List.length h
  have hpos := List.length_pos_of_ne_nil hne
  simp only [List.length_append] at hlength
  have hwhole : symbol.owner <+: other.owner ++ name := by
    rw [← h, List.append_assoc]
    exact List.prefix_append _ _
  have hpre : symbol.owner <+: other.owner :=
    List.prefix_of_prefix_length_le hwhole (List.prefix_append _ _) (by omega)
  obtain ⟨more, hmore⟩ := hpre
  have hnonempty : more ≠ [] := by
    rintro rfl
    rw [List.append_nil] at hmore
    rw [hmore] at hlength
    omega
  rw [← hmore, List.append_assoc, List.append_assoc] at h
  have hcount := congrArg (List.count '.') (List.append_cancel_left h)
  rw [List.count_append, List.count_append, List.count_eq_zero_of_not_mem hdot] at hcount
  have hdots := count_dot_pos hmore.symm hnonempty
  omega

theorem idQualname_inj_of_name {symbol other : Symbol} (hname : symbol.name = other.name)
    (h : symbol.idQualname = other.idQualname) :
    symbol.qualname = other.qualname ∧ symbol.duplicateIndex = other.duplicateIndex := by
  have hordinal : ∀ n, '.' ∉ '#' :: Nat.toDigits 10 n := by
    intro n
    simp [dot_notMem_toDigits]
  unfold Symbol.idQualname at h
  rw [qualname_eq_owner, qualname_eq_owner] at h
  split_ifs at h with hzero hzero' hzero'
  · rw [qualname_eq_owner, qualname_eq_owner, hzero, hzero']
    exact ⟨h, rfl⟩
  · rw [hname] at h
    exact absurd h.symm (owner_name_ordinal_ne (hordinal _) (List.cons_ne_nil _ _))
  · rw [hname] at h
    exact absurd h (owner_name_ordinal_ne (hordinal _) (List.cons_ne_nil _ _))
  · have hsplit := congrArg (rsplitOnce '#') h
    rw [rsplitOnce_append (hash_notMem_toDigits _), rsplitOnce_append (hash_notMem_toDigits _)] at hsplit
    obtain ⟨hqualname, hdigits⟩ := Prod.mk.inj (Option.some.inj hsplit)
    have hvalue := congrArg (fun digits => Nat.ofDigitChars 10 digits 0) hdigits
    simp only [Nat.ofDigitChars_ten_toDigits] at hvalue
    rw [qualname_eq_owner, qualname_eq_owner]
    exact ⟨hqualname, by omega⟩

end Agentless.Graph
