import Agentless.Graph.Paths
import Agentless.Graph.Resolver
import Agentless.Graph.StableId

/-!
# Lookup targets

A caller names a symbol by a stable id, a `path::name`, a `path:line`, a dotted name or a bare
name. A target is looked up in an index that lists the definitions of a name, so an id is found
when the last dotted part of its qualified name is the name of the symbol.
-/

namespace Agentless.Graph

open Find Text Syntax

inductive TargetForm where
  | stableId
  | pathName
  | pathLine
  | path
  | qualifiedName
  | name
deriving DecidableEq, Repr

inductive Target where
  | id (id : StableId) (form : TargetForm)
  | line (path : Text) (line : Nat)
  | named (text : Text)
deriving DecidableEq, Repr

structure Lookup where
  definitions : List Definition
  isScoped : Bool
  form : TargetForm
deriving DecidableEq, Repr

/-! ## Parsing -/

/-- The pieces between the occurrences of `::`. -/
def splitColons : Text → List Text
  | [] => [[]]
  | [c] => [[c]]
  | c :: d :: rest =>
    if c = ':' ∧ d = ':' then [] :: splitColons rest
    else (splitColons (d :: rest)).modifyHead (c :: ·)

/-- Qualified names join their parts with a dot, so `Type::method` reads as `Type.method`. -/
def qualifiedText (text : Text) : Text :=
  if contains qualnameSeparator text && (splitColons text).all (· ≠ []) then
    ['.'].intercalate (splitColons text)
  else text

section Parse

variable (fromPath : Text → Option Language)

def pathNameId (text : Text) : Option StableId := do
  let (path, qualname) ← splitOnce qualnameSeparator text
  if path.contains ':' then none
  else
    let language ← fromPath path
    (StableId.parse (language.idPrefix ++ ':' :: (path ++ qualnameSeparator ++
      qualifiedText qualname))).toOption

/-- A line is a 32-bit number. -/
def pathLine (text : Text) : Option (Text × Nat) := do
  let (path, digits) ← rsplitOnce ':' text
  if digits = [] || !digits.all isAsciiDigit || 2 ^ 32 ≤ digitsValue digits then none
  else if !path.contains ':' && (fromPath path).isSome then some (path, digitsValue digits)
  else none

def parseTarget (text : Text) : Target :=
  let pathForm :=
    match pathNameId fromPath text with
    | some id => .id id .pathName
    | none =>
      match pathLine fromPath text with
      | some (path, line) => .line path line
      | none => .named (qualifiedText text)
  match StableId.parse text with
  | .ok id => if id.path.head? = some ':' then pathForm else .id id .stableId
  | .error _ => pathForm

end Parse

/-! ## Looking up -/

/-- The text after the last dot, or the whole text when that is empty. -/
def lastName (base : Text) : Text :=
  match rsplitOnce '.' base with
  | some (_, last) => if last = [] then base else last
  | none => base

def StableId.names (parsed : StableId) (definition : Definition) : Bool :=
  definition.file.path = parsed.path && definition.symbol.idQualname = parsed.qualname

def byStableId (files : List FileFacts) (parsed : StableId) : Lookup :=
  let all := definitions files (lastName (splitOrdinal parsed.qualname).1)
  let inFile := all.filter parsed.names
  ⟨if inFile = [] then all else inFile, inFile ≠ [], .stableId⟩

/-- Only a target longer than the qualified name says which file to look in. -/
def pathConfirms (definition : Definition) (target : Text) : Bool :=
  let base := (splitOrdinal definition.symbol.idQualname).1
  if target.length ≤ base.length then false
  else
    let modulePath := (stem definition.file.path).map fun c => if c = '/' then '.' else c
    let dotted := modulePath ++ '.' :: base
    dotted = target || ('.' :: target).isSuffixOf dotted

def byName (files : List FileFacts) (target : Text) : Lookup :=
  let base := (splitOrdinal target).1
  let candidates := definitions files (lastName base)
  let confirmed := candidates.filter (pathConfirms · base)
  let dotted := base.contains '.'
  let form := if dotted then TargetForm.qualifiedName else .name
  if confirmed ≠ [] then ⟨confirmed, true, form⟩ else ⟨candidates, !dotted, form⟩

def byLine (files : List FileFacts) (path : Text) (line : Nat) : Lookup :=
  let held : Option Definition := do
    let file ← files.find? fun file => file.path = path && inNameGraph file
    let position ← ownerPosition file.symbols line
    let symbol ← file.symbols[position]?
    return ⟨file, symbol⟩
  ⟨held.toList, held.isSome, .pathLine⟩

def holdsFile (files : List FileFacts) (path : Text) : Bool := files.any (·.path = path)

def lookupTarget (files : List FileFacts) : Target → Lookup
  | .id id form => { byStableId files id with form := form }
  | .line path line => byLine files path line
  | .named text => if holdsFile files text then ⟨[], false, .path⟩ else byName files text

/-! ## Names that an id leads back to -/

/-- One to six digits after a `#`, at the end. -/
def EndsInOrdinal (name : Text) : Prop :=
  ∃ base digits, name = base ++ '#' :: digits ∧ digits ≠ [] ∧ digits.length ≤ ordinalMaxDigits ∧
    ∀ c ∈ digits, isAsciiDigit c = true

/-- A name without a dot, unless it ends in one and has no owner, that no ordinal ends, with an
ordinal of at most six digits. -/
structure Symbol.LeadsBack (symbol : Symbol) : Prop where
  dot : '.' ∉ symbol.name ∨ symbol.parent = [] ∧ symbol.name.getLast? = some '.'
  name_ne : symbol.parent ≠ [] → symbol.name ≠ []
  unnumbered : symbol.duplicateIndex = 0 → ¬EndsInOrdinal symbol.name
  ordinal : symbol.duplicateIndex + 1 < 10 ^ ordinalMaxDigits

theorem lastName_cases (base : Text) :
    ('.' ∉ base ∧ lastName base = base) ∨ (base.getLast? = some '.' ∧ lastName base = base) ∨
      ∃ before last, base = before ++ '.' :: last ∧ '.' ∉ last ∧ last ≠ [] ∧ lastName base = last := by
  unfold lastName
  rcases rsplitOnce_cases '.' base with ⟨hdot, hsplit⟩ | ⟨before, last, hbase, hdot, hsplit⟩
  · rw [hsplit]
    exact .inl ⟨hdot, rfl⟩
  · rw [hsplit]
    dsimp only
    split_ifs with hlast
    · subst hlast
      exact .inr (.inl ⟨by rw [hbase, List.getLast?_concat], rfl⟩)
    · exact .inr (.inr ⟨before, last, hbase, hdot, hlast, rfl⟩)

theorem lastName_owner_append {symbol : Symbol} {text : Text} (hdot : '.' ∉ text) (hne : text ≠ []) :
    lastName (symbol.owner ++ text) = text := by
  unfold Symbol.owner
  split_ifs
  · rw [List.nil_append, lastName, rsplitOnce_eq_none hdot]
  · rw [List.append_assoc, List.singleton_append, lastName, rsplitOnce_append hdot]
    simp [hne]

theorem lastName_qualname_iff (symbol : Symbol) :
    lastName symbol.qualname = symbol.name ↔
      ('.' ∉ symbol.name ∨ symbol.parent = [] ∧ symbol.name.getLast? = some '.') ∧
        (symbol.parent ≠ [] → symbol.name ≠ []) := by
  by_cases hparent : symbol.parent = []
  · have hqualname : symbol.qualname = symbol.name := by simp [Symbol.qualname, qualified, hparent]
    rw [hqualname]
    rcases lastName_cases symbol.name with ⟨hdot, h⟩ | ⟨hdot, h⟩ | ⟨before, last, hname, hdot, hne, h⟩
    · simp [h, hdot, hparent]
    · simp [h, hdot, hparent]
    · have hlonger : last ≠ symbol.name := fun heq => by
        have := congrArg List.length hname
        simp [← heq] at this
        omega
      have hlast : symbol.name.getLast? ≠ some '.' := by
        rw [hname, List.getLast?_append_of_ne_nil _ (List.cons_ne_nil _ _),
          List.getLast?_cons_of_ne_nil hne]
        exact fun hlast => hdot (List.mem_of_getLast? hlast)
      have hmem : '.' ∈ symbol.name := hname ▸ by simp
      rw [h]
      simp [hlonger, hlast, hmem]
  · have hqualname : symbol.qualname = symbol.parent ++ '.' :: symbol.name := by
      simp [Symbol.qualname, qualified, hparent]
    have hlonger : symbol.qualname ≠ symbol.name := fun heq => by
      have := congrArg List.length (hqualname.symm.trans heq)
      simp at this
      omega
    by_cases hdot : '.' ∈ symbol.name
    · have hne : lastName symbol.qualname ≠ symbol.name := by
        rcases lastName_cases symbol.qualname with ⟨-, h⟩ | ⟨-, h⟩ | ⟨before, last, -, hlast, -, h⟩
        · rwa [h]
        · rwa [h]
        · rw [h]
          exact fun heq => hlast (heq ▸ hdot)
      simp [hne, hdot, hparent]
    · by_cases hname : symbol.name = []
      · have hlast : lastName symbol.qualname = symbol.qualname := by
          rw [hqualname, hname, lastName, rsplitOnce_append (by simp)]
          simp
        exact ⟨fun h => absurd (hlast.symm.trans h) hlonger, fun h => absurd hname (h.2 hparent)⟩
      · have hlast : lastName symbol.qualname = symbol.name := by
          rw [qualname_eq_owner]
          exact lastName_owner_append hdot hname
        simp [hlast, hdot, hname]

theorem digit_ne {c : Char} (h : isAsciiDigit c = true) : c ≠ '.' ∧ c ≠ '#' ∧ c ≠ '\n' := by
  refine ⟨?_, ?_, ?_⟩ <;> rintro rfl <;> exact absurd h (by decide)

theorem stripLineFeed_eq {text : Text} (h : '\n' ∉ text) : stripLineFeed text = text :=
  if_neg fun hlast => h (List.mem_of_getLast? hlast)

/-- An ordinal at the end is cut off. -/
theorem splitOrdinal_append {base digits : Text} (hne : digits ≠ [])
    (hlength : digits.length ≤ ordinalMaxDigits) (hdigits : ∀ c ∈ digits, isAsciiDigit c = true) :
    (splitOrdinal (base ++ '#' :: digits)).1 = base := by
  have hhash : '#' ∉ digits := fun h => (digit_ne (hdigits _ h)).2.1 rfl
  have hfeed : stripLineFeed digits = digits :=
    stripLineFeed_eq fun h => (digit_ne (hdigits _ h)).2.2 rfl
  rw [splitOrdinal, rsplitOnce_append hhash]
  simp [hfeed, hne, hlength, List.all_eq_true.mpr hdigits]

theorem splitOrdinal_eq_self {text : Text} (hfeed : '\n' ∉ text) (h : ¬EndsInOrdinal text) :
    (splitOrdinal text).1 = text := by
  unfold splitOrdinal
  rcases rsplitOnce_cases '#' text with ⟨-, hsplit⟩ | ⟨before, after, htext, -, hsplit⟩
  · rw [hsplit]
  · have hafter : stripLineFeed after = after :=
      stripLineFeed_eq fun hmem => hfeed (by simp [htext, hmem])
    rw [hsplit]
    dsimp only
    rw [hafter]
    split_ifs with hdigits
    · simp only [ne_eq, decide_not, Bool.and_eq_true, Bool.not_eq_true', decide_eq_false_iff_not,
        decide_eq_true_eq, List.all_eq_true] at hdigits
      exact absurd ⟨before, after, htext, hdigits.1.1, hdigits.1.2, hdigits.2⟩ h
    · rfl

theorem endsInOrdinal_owner_append {symbol : Symbol} {name : Text}
    (h : EndsInOrdinal (symbol.owner ++ name)) : EndsInOrdinal name := by
  obtain ⟨base, digits, htext, hne, hlength, hdigits⟩ := h
  rcases List.append_eq_append_iff.mp htext with ⟨more, rfl, hname⟩ | ⟨more, howner, hname⟩
  · exact ⟨more, digits, hname, hne, hlength, hdigits⟩
  · by_cases hmore : more = []
    · exact ⟨[], digits, by simpa [hmore] using hname.symm, hne, hlength, hdigits⟩
    · have hmem : '.' ∈ '#' :: digits := by
        rw [hname]
        exact List.mem_append_left _ (List.count_pos_iff.mp (count_dot_pos howner hmore))
      have hdot : '.' ∈ digits := by simpa using hmem
      exact absurd rfl (digit_ne (hdigits _ hdot)).1

theorem isAsciiDigit_of_mem_toDigits {n : Nat} {c : Char} (h : c ∈ Nat.toDigits 10 n) :
    isAsciiDigit c = true := by
  have hdigit := Nat.isDigit_of_mem_toDigits (by decide) (by decide) h
  simpa [isAsciiDigit, Char.isDigit, Char.le_def] using hdigit

theorem lastName_ne_of_longer {symbol : Symbol} {more : Text} (hdot : '.' ∉ more) (hne : more ≠ []) :
    lastName (symbol.owner ++ (symbol.name ++ more)) ≠ symbol.name := by
  have hlonger : ∀ before, before ++ (symbol.name ++ more) ≠ symbol.name := by
    intro before h
    have hlength := congrArg List.length h
    have hpos := List.length_pos_of_ne_nil hne
    simp only [List.length_append] at hlength
    omega
  intro h
  by_cases hname : '.' ∈ symbol.name
  · rcases lastName_cases (symbol.owner ++ (symbol.name ++ more)) with
      ⟨-, hlast⟩ | ⟨-, hlast⟩ | ⟨before, last, -, hlast, -, heq⟩
    · exact hlonger _ (hlast.symm.trans h)
    · exact hlonger _ (hlast.symm.trans h)
    · exact hlast (heq.symm.trans h ▸ hname)
  · rw [lastName_owner_append (by simp [hname, hdot]) (by simp [hne])] at h
    exact hlonger [] h

theorem lastName_ne_of_shorter {symbol : Symbol} {base digits : Text}
    (hname : symbol.name = base ++ '#' :: digits) (hne : digits ≠ [])
    (hdigits : ∀ c ∈ digits, isAsciiDigit c = true) :
    lastName (symbol.owner ++ base) ≠ symbol.name := by
  have hlast : symbol.name.getLast? ≠ some '.' := by
    rw [hname, List.getLast?_append_of_ne_nil _ (List.cons_ne_nil _ _),
      List.getLast?_cons_of_ne_nil hne]
    exact fun h => (digit_ne (hdigits _ (List.mem_of_getLast? h))).1 rfl
  intro h
  rcases lastName_cases (symbol.owner ++ base) with
    ⟨hdot, heq⟩ | ⟨hdot, heq⟩ | ⟨before, last, hsplit, hdot, hlastne, heq⟩
  · have howner : symbol.owner = [] := by
      by_contra hsome
      have hmem : '.' ∈ symbol.owner :=
        List.count_pos_iff.mp (count_dot_pos (List.nil_append _).symm hsome)
      exact hdot (List.mem_append_left _ hmem)
    have hlength := congrArg List.length (heq.symm.trans h)
    simp [howner, hname] at hlength
  · exact hlast ((heq.symm.trans h) ▸ hdot)
  · have hfree : '.' ∉ base := by
      rw [heq] at h
      rw [h, hname] at hdot
      exact fun hmem => hdot (List.mem_append_left _ hmem)
    by_cases hbase : base = []
    · rw [hbase, List.append_nil, List.append_cons] at hsplit
      exact hdot (List.count_pos_iff.mp (count_dot_pos hsplit hlastne))
    · rw [lastName_owner_append hfree hbase] at h
      have hlength := congrArg List.length (h.trans hname)
      simp at hlength

theorem lastName_idQualname_iff {symbol : Symbol} (hfeed : '\n' ∉ symbol.idQualname) :
    lastName (splitOrdinal symbol.idQualname).1 = symbol.name ↔ symbol.LeadsBack := by
  by_cases hzero : symbol.duplicateIndex = 0
  · have hid : symbol.idQualname = symbol.owner ++ symbol.name := by
      rw [Symbol.idQualname, if_pos hzero, qualname_eq_owner]
    rw [hid] at hfeed ⊢
    by_cases hends : EndsInOrdinal symbol.name
    · refine ⟨fun h => ?_, fun h => absurd hends (h.unnumbered hzero)⟩
      obtain ⟨base, digits, hname, hne, hlength, hdigits⟩ := hends
      rw [hname, ← List.append_assoc, splitOrdinal_append hne hlength hdigits, ← hname] at h
      exact absurd h (lastName_ne_of_shorter hname hne hdigits)
    · rw [splitOrdinal_eq_self hfeed (fun h => hends (endsInOrdinal_owner_append h)),
        ← qualname_eq_owner, lastName_qualname_iff]
      exact ⟨fun h => ⟨h.1, h.2, fun _ => hends, by rw [hzero]; decide⟩, fun h => ⟨h.dot, h.name_ne⟩⟩
  · have hid : symbol.idQualname = symbol.qualname ++ '#' :: Nat.toDigits 10 (symbol.duplicateIndex + 1) := by
      rw [Symbol.idQualname, if_neg hzero]
    have hdigits : ∀ c ∈ Nat.toDigits 10 (symbol.duplicateIndex + 1), isAsciiDigit c = true :=
      fun c hc => isAsciiDigit_of_mem_toDigits hc
    have hlength : (Nat.toDigits 10 (symbol.duplicateIndex + 1)).length ≤ ordinalMaxDigits ↔
        symbol.duplicateIndex + 1 < 10 ^ ordinalMaxDigits :=
      Nat.length_toDigits_le_iff (by decide) (by decide)
    by_cases hshort : symbol.duplicateIndex + 1 < 10 ^ ordinalMaxDigits
    · rw [hid, splitOrdinal_append Nat.toDigits_ne_nil (hlength.mpr hshort) hdigits,
        lastName_qualname_iff]
      exact ⟨fun h => ⟨h.1, h.2, fun h => absurd h hzero, hshort⟩, fun h => ⟨h.dot, h.name_ne⟩⟩
    · refine ⟨fun h => ?_, fun h => absurd h.ordinal hshort⟩
      have hends : ¬EndsInOrdinal symbol.idQualname := by
        rintro ⟨base, digits, htext, -, hlength', hdigits'⟩
        rw [hid] at htext
        have hsplit := congrArg (rsplitOnce '#') htext
        rw [rsplitOnce_append (hash_notMem_toDigits _),
          rsplitOnce_append fun hmem => (digit_ne (hdigits' _ hmem)).2.1 rfl] at hsplit
        obtain ⟨-, rfl⟩ := Prod.mk.inj (Option.some.inj hsplit)
        exact hshort (hlength.mp hlength')
      rw [splitOrdinal_eq_self hfeed hends, hid, qualname_eq_owner, List.append_assoc] at h
      refine absurd h (lastName_ne_of_longer ?_ (List.cons_ne_nil _ _))
      simp [dot_notMem_toDigits]

/-! ## Looking up an id -/

/-- The code files of a scan: one at each path, each with the ordinals of its symbols. -/
structure Scanned (files : List FileFacts) : Prop where
  paths : (files.map (·.path)).Nodup
  code : ∀ file ∈ files, inNameGraph file = true
  symbols : ∀ file ∈ files, ∃ given, file.symbols = disambiguate given

theorem nodup_disambiguate (symbols : List Symbol) : (disambiguate symbols).Nodup := by
  rw [List.nodup_iff_getElem?_ne_getElem?]
  intro i j hij hj heq
  have hat : (disambiguate symbols)[j]? = some (disambiguate symbols)[j] := List.getElem?_eq_getElem hj
  have hsame := disambiguate_distinct (heq.trans hat) hat rfl rfl
  omega

theorem Scanned.nodup_definitions {files : List FileFacts} (h : Scanned files) (name : Text) :
    (definitions files name).Nodup := by
  refine List.nodup_flatMap.mpr ⟨fun file hfile => ?_, ?_⟩
  · obtain ⟨given, hgiven⟩ := h.symbols file (List.mem_of_mem_filter hfile)
    refine List.Nodup.map (fun symbol other heq => (Definition.mk.inj heq).2) ?_
    rw [hgiven]
    exact (nodup_disambiguate given).filter _
  · have hpaths : files.Pairwise fun file other => file.path ≠ other.path :=
      List.pairwise_map.mp h.paths
    refine (hpaths.sublist List.filter_sublist).imp fun hne => ?_
    intro definition hfile hother
    obtain ⟨symbol, -, rfl⟩ := List.mem_map.mp hfile
    obtain ⟨other, -, hsame⟩ := List.mem_map.mp hother
    exact hne (congrArg (·.file.path) hsame).symm

theorem mem_definitions {files : List FileFacts} {name : Text} {definition : Definition} :
    definition ∈ definitions files name ↔ definition.file ∈ files ∧
      inNameGraph definition.file = true ∧ definition.symbol ∈ definition.file.symbols ∧
      definition.symbol.name = name := by
  obtain ⟨file, symbol⟩ := definition
  simp [definitions]
  tauto

theorem Scanned.definition_unique {files : List FileFacts} (h : Scanned files) {name : Text}
    {definition other : Definition} (hdefinition : definition ∈ definitions files name)
    (hother : other ∈ definitions files name) (hpath : other.file.path = definition.file.path)
    (hid : other.symbol.idQualname = definition.symbol.idQualname) : other = definition := by
  obtain ⟨hfile, -, hsymbol, hname⟩ := mem_definitions.mp hdefinition
  obtain ⟨hfile', -, hsymbol', hname'⟩ := mem_definitions.mp hother
  have hsame : other.file = definition.file := List.inj_on_of_nodup_map h.paths hfile' hfile hpath
  obtain ⟨given, hgiven⟩ := h.symbols _ hfile
  obtain ⟨hqualname, hindex⟩ := idQualname_inj_of_name (hname'.trans hname.symm) hid
  rw [hsame, hgiven] at hsymbol'
  rw [hgiven] at hsymbol
  obtain ⟨i, hi⟩ := List.mem_iff_getElem?.mp hsymbol
  obtain ⟨j, hj⟩ := List.mem_iff_getElem?.mp hsymbol'
  have hposition := disambiguate_distinct hj hi hqualname hindex
  rw [hposition, hi] at hj
  cases definition
  cases other
  exact congrArg₂ Definition.mk hsame (Option.some.inj hj).symm

/-- An id finds its own definition, and no other, exactly when the name leads back. -/
theorem Scanned.byStableId_iff {files : List FileFacts} (h : Scanned files) {file : FileFacts}
    {symbol : Symbol} (hfile : file ∈ files) (hsymbol : symbol ∈ file.symbols)
    (hfeed : '\n' ∉ symbol.idQualname) :
    byStableId files (.of file.language file.path symbol) = ⟨[⟨file, symbol⟩], true, .stableId⟩ ↔
      symbol.LeadsBack := by
  rw [← lastName_idQualname_iff hfeed]
  constructor
  · intro hfound
    have hmem : (⟨file, symbol⟩ : Definition) ∈
        (byStableId files (.of file.language file.path symbol)).definitions := by
      rw [hfound]
      exact List.mem_singleton_self _
    have hall : (⟨file, symbol⟩ : Definition) ∈
        definitions files (lastName (splitOrdinal symbol.idQualname).1) := by
      unfold byStableId at hmem
      dsimp only [StableId.of] at hmem
      split_ifs at hmem
      · exact hmem
      · exact List.mem_of_mem_filter hmem
    exact (mem_definitions.mp hall).2.2.2.symm
  · intro hname
    have hmem : (⟨file, symbol⟩ : Definition) ∈ definitions files symbol.name :=
      mem_definitions.mpr ⟨hfile, h.code file hfile, hsymbol, rfl⟩
    have hinFile : (definitions files symbol.name).filter
        (StableId.of file.language file.path symbol).names = [⟨file, symbol⟩] := by
      refine List.perm_singleton.mp ((List.perm_ext_iff_of_nodup ((h.nodup_definitions _).filter _)
        (List.nodup_singleton _)).mpr fun definition => ?_)
      simp only [StableId.names, List.mem_filter, Bool.and_eq_true, decide_eq_true_eq,
        List.mem_singleton]
      constructor
      · rintro ⟨hother, hpath, hid⟩
        exact h.definition_unique hmem hother hpath hid
      · rintro rfl
        exact ⟨hmem, rfl, rfl⟩
    have hlast : lastName (splitOrdinal (StableId.of file.language file.path symbol).qualname).1 =
        symbol.name := hname
    simp [byStableId, hlast, hinFile]

end Agentless.Graph
