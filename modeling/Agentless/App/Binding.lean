import Agentless.Graph.Lookup
import Agentless.Library.Lines

/-!
# Targets and what they bind to

A printed id comes back through two readers: `bind` looks it up in the name index, and `span` finds
the symbol in its file. The index is keyed by names and the file is searched by whole qualified
names, so the two agree where the name leads back and no earlier symbol spells the same id.
-/

namespace Agentless.App

open Find Text Syntax Agentless.Graph

inductive BindingStatus where
  | bound
  | ambiguous
  | notFound
deriving DecidableEq, Repr

structure TargetBinding where
  status : BindingStatus
  form : TargetForm
  definitions : Nat
  candidates : List Text
  omitted : Nat
deriving DecidableEq, Repr

/-- The definitions a target names, best first, the text that ranks them and the binding. -/
structure Bound where
  definitions : List Definition
  key : Text
  form : TargetForm
  binding : TargetBinding
deriving DecidableEq, Repr

/-! ## Binding -/

/-- A definition whose qualified name is the target comes first, then the path and the line
decide. -/
def rankLe (target : Text) (x y : Definition) : Bool :=
  ((compare (decide (x.symbol.qualname ≠ target)) (decide (y.symbol.qualname ≠ target))).then
    ((compare x.file.path y.file.path).then (compare x.symbol.line y.symbol.line))).isLE

def rankCandidates (found : List Definition) (target : Text) : List Definition :=
  found.mergeSort (rankLe target)

def exactCount (ranked : List Definition) (target : Text) : Nat :=
  (ranked.takeWhile (·.symbol.qualname = target)).length

/-- A target that names a file lists the definitions of that file first. -/
def fileFirst (target : Target) (ranked : List Definition) : List Definition :=
  match target with
  | .id id _ => ranked.filter (·.file.path = id.path) ++ ranked.filter (·.file.path ≠ id.path)
  | _ => ranked

def unbound (target : Target) (form : TargetForm) (text : Text) (candidates : List Definition)
    (limit : Nat) : Bound :=
  let ids := (fileFirst target candidates).map fun definition =>
    stableId definition.file.language definition.file.path definition.symbol
  ⟨[], text, form, ⟨.notFound, form, 0, ids.take limit, ids.length - limit⟩⟩

section Bind

variable (fromPath : Text → Option Language) (belowRoot : Text → Option Text)

/-- Where the path that a target starts with ends. -/
def pathEnd (text : Text) : Nat :=
  match splitOnce qualnameSeparator text with
  | some (path, _) => path.length
  | none =>
    match pathLine fromPath text with
    | some (path, _) => path.length
    | none => text.length

/-- A path written from the root or as an absolute path reads as the path below the root. -/
def rooted (text : Text) : Text :=
  if "./".toList.isPrefixOf text || text.head? = some '/' then
    let end' := pathEnd fromPath text
    match belowRoot (text.take end') with
    | some below => below ++ text.drop end'
    | none => text
  else text

def bind (files : List FileFacts) (text : Text) (limit : Nat) : Bound :=
  let target := parseTarget fromPath (rooted fromPath belowRoot text)
  let lookup := lookupTarget files target
  let key := match target with
    | .named name => name
    | _ => text
  let ranked := rankCandidates lookup.definitions key
  let exact := exactCount ranked key
  let named := (match target with
    | .named _ => true
    | _ => false) && !lookup.isScoped && 0 < exact
  let kept := if named then ranked.take exact else ranked
  if !(lookup.isScoped || named) || kept = [] then unbound target lookup.form text kept limit
  else
    let status := if kept.length = 1 then BindingStatus.bound else .ambiguous
    ⟨kept, key, lookup.form, ⟨status, lookup.form, kept.length, [], 0⟩⟩

end Bind

/-! ## Expanding -/

structure ParsedFile where
  language : Language
  source : Text
  symbols : List Symbol
deriving DecidableEq, Repr

structure SymbolSpan where
  symbol : Symbol
  language : Language
  path : Text
  startLine : Nat
  endLine : Nat
  source : Text
deriving DecidableEq, Repr

inductive Missed where
  | undefined (dataKey : Bool) (path qualname : Text)
  | otherLanguage (langPrefix path : Text) (language : Language) (id : StableId)
deriving DecidableEq, Repr

/-- Only a text that is no id, or whose path starts with `:`, can read as a `path::name`. -/
def parsedId (fromPath : Text → Option Language) (raw : Text) : Except StableIdError StableId :=
  let pathName (refused : StableIdError) :=
    match pathNameId fromPath raw with
    | some id => Except.ok id
    | none => .error refused
  match StableId.parse raw with
  | .ok id => if id.path.head? = some ':' then pathName (.malformed raw) else .ok id
  | .error refused => pathName refused

/-- The count of lines, as a 32-bit number. -/
def lineCount (text : Text) : Nat :=
  let trailing := text = [] || text.getLast? = some '\n'
  min ((splitLines text).length - trailing.toNat) (2 ^ 32 - 1)

def span (parsed : StableId) (file : ParsedFile) : Except Missed SymbolSpan :=
  match file.symbols.find? (·.idQualname = parsed.qualname) with
  | none => .error (.undefined (!joinsNameGraph file.language) parsed.path parsed.qualname)
  | some symbol =>
    if file.language.idPrefix ≠ parsed.langPrefix then
      .error (.otherLanguage parsed.langPrefix parsed.path file.language
        (.of file.language parsed.path symbol))
    else
      .ok ⟨symbol, file.language, parsed.path, symbol.line,
        min (lineCount file.source) symbol.endLine, file.source⟩

/-! ## Printed ids -/

section Printed

variable (fromPath : Text → Option Language) (belowRoot : Text → Option Text)

/-- The text of a definition's id parses to that id, finds that definition alone and binds to it,
and shows its symbol when it is expanded. -/
structure BindsBack (files : List FileFacts) (file : FileFacts) (symbol : Symbol) (source : Text)
    (limit : Nat) : Prop where
  parsed : parseTarget fromPath (stableId file.language file.path symbol) =
    .id (.of file.language file.path symbol) .stableId
  found : lookupTarget files (parseTarget fromPath (stableId file.language file.path symbol)) =
    ⟨[⟨file, symbol⟩], true, .stableId⟩
  bound : bind fromPath belowRoot files (stableId file.language file.path symbol) limit =
    ⟨[⟨file, symbol⟩], stableId file.language file.path symbol, .stableId,
      ⟨.bound, .stableId, 1, [], 0⟩⟩
  expanded : ∃ shown, (parsedId fromPath (stableId file.language file.path symbol)).map
    (span · ⟨file.language, source, file.symbols⟩) = .ok (.ok shown) ∧ shown.symbol = symbol

variable {fromPath belowRoot}
variable {files : List FileFacts} {file : FileFacts} {symbol : Symbol}

theorem rooted_stableId (language : Language) (path : Text) (symbol : Symbol) :
    rooted fromPath belowRoot (stableId language path symbol) = stableId language path symbol := by
  have hhead : ∃ c rest, language.idPrefix = c :: rest ∧ c ≠ '.' ∧ c ≠ '/' := by
    cases language <;> exact ⟨_, _, rfl, by decide, by decide⟩
  obtain ⟨c, rest, hpre, hdot, hslash⟩ := hhead
  have htext : stableId language path symbol =
      c :: (rest ++ ':' :: (path ++ "::".toList ++ symbol.idQualname)) := by
    rw [stableId, hpre]
    rfl
  rw [htext, rooted, if_neg]
  simp [List.isPrefixOf, hdot.symm, hslash]

theorem parseTarget_stableId (h : Printable file.language file.path symbol) :
    parseTarget fromPath (stableId file.language file.path symbol) =
      .id (.of file.language file.path symbol) .stableId := by
  rw [parseTarget, h.parse]
  exact if_neg h.head_ne

theorem parsedId_stableId (h : Printable file.language file.path symbol) :
    parsedId fromPath (stableId file.language file.path symbol) =
      .ok (.of file.language file.path symbol) := by
  rw [parsedId, h.parse]
  exact if_neg h.head_ne

/-- An id that finds one definition binds to it. -/
theorem bind_stableId {definition : Definition} (limit : Nat)
    (h : Printable file.language file.path symbol)
    (hfound : byStableId files (.of file.language file.path symbol) =
      ⟨[definition], true, .stableId⟩) :
    bind fromPath belowRoot files (stableId file.language file.path symbol) limit =
      ⟨[definition], stableId file.language file.path symbol, .stableId,
        ⟨.bound, .stableId, 1, [], 0⟩⟩ := by
  simp [bind, rooted_stableId, parseTarget_stableId h, lookupTarget, hfound, rankCandidates]

/-- Expanding an id shows the first symbol of the file that spells it. -/
theorem span_stableId_iff (source : Text) :
    (∃ shown, span (.of file.language file.path symbol) ⟨file.language, source, file.symbols⟩ =
      .ok shown ∧ shown.symbol = symbol) ↔
      file.symbols.find? (·.idQualname = symbol.idQualname) = some symbol := by
  change _ ↔ file.symbols.find? (·.idQualname = (StableId.of file.language file.path symbol).qualname) =
    some symbol
  rw [span]
  cases file.symbols.find? (·.idQualname = (StableId.of file.language file.path symbol).qualname) with
  | none => simp
  | some first => simp [StableId.of]

/-- The first symbol with a property is the one at `position` when no earlier one has it. -/
theorem find?_eq_some_iff_first {symbols : List Symbol} (hnodup : symbols.Nodup) {p : Symbol → Bool}
    {position : Nat} (hat : symbols[position]? = some symbol) (hp : p symbol = true) :
    symbols.find? p = some symbol ↔
      ∀ j earlier, j < position → symbols[j]? = some earlier → p earlier = false := by
  obtain ⟨hlt, hget⟩ := List.getElem?_eq_some_iff.mp hat
  rw [List.find?_eq_some_iff_getElem]
  constructor
  · rintro ⟨-, i, hi, hi', hbefore⟩ j earlier hj hearlier
    have hposition : i = position := hnodup.getElem_inj_iff.mp (hi'.trans hget.symm)
    obtain ⟨hlt', rfl⟩ := List.getElem?_eq_some_iff.mp hearlier
    simpa using hbefore j (hposition ▸ hj)
  · intro hbefore
    refine ⟨hp, position, hlt, hget, fun j hj => ?_⟩
    rw [hbefore j _ hj (List.getElem?_eq_getElem _)]
    rfl

/-- A printed id binds back exactly when its symbol's name leads back, and no earlier symbol of the
file spells the same id. -/
theorem bindsBack_iff (source : Text) (limit : Nat) (h : Scanned files) (hfile : file ∈ files)
    {position : Nat} (hat : file.symbols[position]? = some symbol)
    (hprint : Printable file.language file.path symbol) :
    BindsBack fromPath belowRoot files file symbol source limit ↔
      symbol.LeadsBack ∧ ∀ j earlier, j < position → file.symbols[j]? = some earlier →
        earlier.idQualname ≠ symbol.idQualname := by
  have hfeed : '\n' ∉ symbol.idQualname := by
    intro hmem
    have hcontrol := hprint.control '\n' (by simp [stableId, hmem])
    exact absurd hcontrol (by decide)
  have hfound := h.byStableId_iff hfile (List.mem_of_getElem? hat) hfeed
  have hnodup : file.symbols.Nodup := by
    obtain ⟨given, hgiven⟩ := h.symbols file hfile
    rw [hgiven]
    exact nodup_disambiguate given
  have hfirst := find?_eq_some_iff_first (p := (·.idQualname = symbol.idQualname)) hnodup hat
    (decide_eq_true rfl)
  constructor
  · intro hback
    refine ⟨hfound.mp ?_, ?_⟩
    · have := hback.found
      rwa [parseTarget_stableId hprint] at this
    · obtain ⟨shown, hshown, hsymbol⟩ := hback.expanded
      rw [parsedId_stableId hprint] at hshown
      have hfind := (span_stableId_iff source).mp ⟨shown, Except.ok.inj hshown, hsymbol⟩
      intro j earlier hj hearlier
      simpa using hfirst.mp hfind j earlier hj hearlier
  · rintro ⟨hleads, hearliest⟩
    have hlookup := hfound.mpr hleads
    obtain ⟨shown, hshown, hsymbol⟩ := (span_stableId_iff source).mpr
      (hfirst.mpr fun j earlier hj hearlier => by simpa using hearliest j earlier hj hearlier)
    refine ⟨parseTarget_stableId hprint, ?_, bind_stableId limit hprint hlookup, shown, ?_, hsymbol⟩
    · rw [parseTarget_stableId hprint, lookupTarget, hlookup]
    · rw [parsedId_stableId hprint]
      exact congrArg Except.ok hshown

end Printed

/-- The file `m.lua` with one function. -/
def luaFile (name : Text) : FileFacts := ⟨"m.lua".toList, .lua, [⟨name, 1, 3, 1, [], [], 0⟩], []⟩

theorem scanned_luaFile (name : Text) : Scanned [luaFile name] where
  paths := by simp
  code := by simp [luaFile, inNameGraph, joinsNameGraph]
  symbols := by
    intro file hfile
    obtain rfl := List.mem_singleton.mp hfile
    exact ⟨(luaFile name).symbols, by simp [luaFile, disambiguate, lineOrder, countStep, Symbol.numbered]⟩

theorem control_of_all {text : Text} (h : text.all (fun c => !isControl c) = true) :
    ∀ c ∈ text, isControl c = false := by
  simpa using h

/-- The function `M.pick` of `m.lua` is looked up under `pick`, which nothing is named. -/
theorem bindsBack_misses_dot :
    let symbol : Symbol := ⟨"M.pick".toList, 1, 3, 1, [], [], 0⟩
    Scanned [luaFile symbol.name] ∧ Printable .lua "m.lua".toList symbol ∧
      ¬BindsBack (fun _ => some .lua) (fun _ => none) [luaFile symbol.name] (luaFile symbol.name)
        symbol "function M.pick()\n  return 1\nend\n".toList 10 := by
  refine ⟨scanned_luaFile _, ⟨by decide, by decide, by decide, by decide, by decide,
    control_of_all (by decide), by decide⟩, ?_⟩
  intro h
  exact absurd h.found (by decide)

/-- The function `pick` of `m.lua` binds back. -/
theorem bindsBack_iff_plain :
    BindsBack (fun _ => some .lua) (fun _ => none) [luaFile "pick".toList] (luaFile "pick".toList)
      ⟨"pick".toList, 1, 3, 1, [], [], 0⟩ "function pick()\n  return 1\nend\n".toList 10 := by
  refine (bindsBack_iff _ _ (scanned_luaFile _) (List.mem_singleton_self _) (List.getElem?_cons_zero)
    ⟨by decide, by decide, by decide, by decide, by decide,
      control_of_all (by decide), by decide⟩).mpr ⟨⟨.inl (by decide), by decide, fun _ => ?_, by decide⟩, ?_⟩
  · rintro ⟨base, digits, hname, -⟩
    have hhash : '#' ∈ "pick".toList := by
      change "pick".toList = _ at hname
      rw [hname]
      simp
    exact absurd hhash (by decide)
  · intro j earlier hj
    omega

end Agentless.App
