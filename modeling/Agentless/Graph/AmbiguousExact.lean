import Agentless.Graph.Symbols
import Agentless.Library.Sequence

/-!
# Where ambiguous edges lead

1. A name that resolves as ambiguous has the candidates of the file's language family.
2. The candidates stored for a name are those of the first link that was ambiguous.
3. So the edges of an ambiguous reference lead to its own candidates exactly when that first link
   is in a file of the same family.
-/

namespace Agentless.Graph

open Text Syntax Std

/-! ## Ambiguous resolutions -/

section Resolving

variable {scopes : Scopes}

theorem boundHere_tier {found : List Definition} {name path : Text} {resolution : Resolution}
    (h : boundHere scopes found name path = some resolution) : resolution.tier ≠ .ambiguous := by
  unfold boundHere at h
  dsimp only at h
  split at h
  · obtain rfl := Option.some.inj h
    simp
  · split at h
    · simp at h
    · split at h
      · obtain rfl := Option.some.inj h
        simp
      · simp at h

/-- A name is ambiguous when several definitions of the family have it. -/
theorem resolve_ambiguous {name path : Text} {resolution : Resolution}
    (h : resolve scopes name path = some resolution) (htier : resolution.tier = .ambiguous) :
    resolution.candidates = nameOnly scopes name (scopes.languageOf path) ∧
      resolution.candidates ≠ [] := by
  unfold resolve at h
  split at h
  · rename_i found hbound
    obtain rfl := Option.some.inj h
    exact absurd htier (boundHere_tier hbound)
  · generalize throughImports scopes name path = followed at h
    dsimp only at h
    split at h
    · obtain rfl := Option.some.inj h
      simp at htier
    · split at h
      · simp at h
      · obtain rfl := Option.some.inj h
        simp at htier
      · rename_i hzero hone
        obtain rfl := Option.some.inj h
        refine ⟨rfl, fun hnil => hzero ?_⟩
        simpa using hnil

theorem resolveModuleAttribute_tier {name path qualifier : Text} {resolution : Resolution}
    (h : resolveModuleAttribute scopes name path qualifier = some resolution) :
    resolution.tier ≠ .ambiguous := by
  unfold resolveModuleAttribute at h
  generalize follow scopes = reached at h
  split at h
  · simp at h
  · dsimp only at h
    obtain ⟨-, h⟩ := Option.ite_none_right_eq_some.mp h
    obtain rfl := Option.some.inj h
    simp

/-- A qualified occurrence is ambiguous only when its bare name is. -/
theorem resolveSite_ambiguous {reference : Ref} {path : Text} {resolution : Resolution}
    (h : resolveSite scopes reference path = some resolution)
    (htier : resolution.tier = .ambiguous) :
    resolve scopes reference.name path = some resolution := by
  unfold resolveSite at h
  split at h
  · exact absurd htier (resolveModuleAttribute_tier h)
  · split at h
    · unfold resolveQualified at h
      generalize follow scopes = reached at h
      split at h
      · simp at h
      · exact h
      · dsimp only at h
        split_ifs at h
        · exact h
        · obtain rfl := Option.some.inj h
          simp at htier
        · obtain rfl := Option.some.inj h
          simp at htier
    · exact h

theorem family_eq_rust_iff (language : Language) : language.family = .rust ↔ language = .rust := by
  cases language <;> decide

/-- What a name alone can mean depends on the family of the file only. -/
theorem nameOnly_congr {name : Text} {language language' : Language}
    (h : language.family = language'.family) :
    nameOnly scopes name (some language) = nameOnly scopes name (some language') := by
  have hrust : some language ≠ some Language.rust ↔ some language' ≠ some Language.rust := by
    rw [ne_eq, ne_eq, Option.some.injEq, Option.some.injEq, ← family_eq_rust_iff,
      ← family_eq_rust_iff language', h]
  simp only [nameOnly, h]
  refine List.filter_congr fun entry _ => ?_
  simp only [bareNameReaches, hrust]

theorem family_of_mem_nameOnly {name : Text} {language : Language} {entry : Definition}
    (h : entry ∈ nameOnly scopes name (some language)) :
    entry.file.language.family = language.family := by
  simp only [nameOnly, List.mem_filter] at h
  simpa using h.1.2

theorem languageOf_isSome {file : FileFacts} (h : file ∈ scopes.files) :
    ∃ language, scopes.languageOf file.path = some language := by
  have hheld : scopes.files.zipIdx.filter (fun other => other.1.path = file.path) ≠ [] := by
    obtain ⟨index, hindex⟩ := List.mem_iff_getElem?.mp h
    refine List.ne_nil_of_mem (a := (file, index)) (List.mem_filter.mpr ⟨?_, by simp⟩)
    exact List.mk_mem_zipIdx_iff_getElem?.mpr hindex
  obtain ⟨⟨other, at_⟩, hlast⟩ := Option.isSome_iff_exists.mp (List.getLast?_isSome.mpr hheld)
  have hother := (List.mem_filter.mp (List.mem_of_getLast? hlast)).1
  have hat : scopes.files[at_]? = some other := List.mk_mem_zipIdx_iff_getElem?.mp hother
  exact ⟨other.language, by simp [Scopes.languageOf, Scopes.position, hlast, hat]⟩

end Resolving

/-! ## Endpoints -/

theorem mem_distinctEndpoints {resolution : Resolution} {endpoint : Endpoint} :
    endpoint ∈ distinctEndpoints resolution ↔
      endpoint ∈ resolution.candidates.map Definition.endpoint := by
  have hfold (endpoints : List Endpoint) (candidates : List Definition) :
      endpoint ∈ candidates.foldl (fun endpoints candidate =>
          if endpoints.contains candidate.endpoint then endpoints
          else endpoints ++ [candidate.endpoint]) endpoints ↔
        endpoint ∈ endpoints ∨ endpoint ∈ candidates.map Definition.endpoint := by
    induction candidates generalizing endpoints with
    | nil => simp
    | cons candidate candidates ih =>
      rw [List.foldl_cons, ih]
      split
      · rename_i hheld
        rw [List.contains_iff_mem] at hheld
        grind
      · simp only [List.mem_append, List.map_cons, List.mem_cons, List.not_mem_nil, or_false]
        tauto
  rw [distinctEndpoints, hfold]
  simp

theorem idPrefix_injective {language language' : Language}
    (h : language.idPrefix = language'.idPrefix) : language = language' := by
  cases language <;> cases language' <;> first | rfl | exact absurd h (by decide)

theorem language_of_node {candidate candidate' : Definition}
    (h : candidate.endpoint.node = candidate'.endpoint.node) :
    candidate.file.language = candidate'.file.language := by
  have hcolon (language : Language) : ∀ c ∈ language.idPrefix, (c == ':') = false := by
    intro c hc
    simp only [beq_eq_false_iff_ne, ne_eq]
    rintro rfl
    exact Language.colon_notMem_idPrefix language hc
  exact idPrefix_injective (Sequence.append_inj_of_head (hcolon _) (hcolon _) (by simp) (by simp) h).1

/-! ## Links and what they store -/

def Link.isAmbiguous (link : Link) (name : Text) : Bool :=
  link.name = name && link.resolution.tier = .ambiguous

/-- The first of the links that spells `name` ambiguously. -/
def firstAmbiguous (links : List Link) (name : Text) : Option Link :=
  links.find? fun link => link.isAmbiguous name

/-- What the parts hold of the links so far: each ambiguous reference comes from one of them, and
the candidates of a name are those of the first. -/
structure Linked (parts : Parts) (links : List Link) : Prop where
  ambiguous : ∀ reference ∈ parts.ambiguous, ∃ link ∈ links,
    link.isAmbiguous reference.name ∧ link.source = reference.source
  stored : ∀ name, (parts.candidateNames[name]?).bind (parts.candidates[·]?) =
    (firstAmbiguous links name).map fun link => (name, distinctEndpoints link.resolution)
  bound : ∀ (name : Text) at_, parts.candidateNames[name]? = some at_ → at_ < parts.candidates.length

theorem firstAmbiguous_concat (links : List Link) (link : Link) (name : Text) :
    firstAmbiguous (links ++ [link]) name =
      (firstAmbiguous links name).or (if link.isAmbiguous name then some link else none) := by
  simp [firstAmbiguous, List.find?_append, List.find?_singleton]

theorem Linked.contains_iff {parts : Parts} {links : List Link} (h : Linked parts links)
    (name : Text) :
    parts.candidateNames.contains name = (firstAmbiguous links name).isSome := by
  have hstored := congrArg Option.isSome (h.stored name)
  rw [Option.isSome_map] at hstored
  rw [← hstored, TreeMap.contains_eq_isSome_getElem?]
  cases hname : parts.candidateNames[name]? with
  | none => rfl
  | some at_ => simp [h.bound name at_ hname]

theorem Linked.of_unambiguous {parts : Parts} {links : List Link} (h : Linked parts links)
    {link : Link} (htier : link.resolution.tier ≠ .ambiguous) (edges : List SymbolEdge) :
    Linked { parts with edges := edges } (links ++ [link]) where
  ambiguous reference hreference := by
    obtain ⟨other, hother, hsame⟩ := h.ambiguous reference hreference
    exact ⟨other, List.mem_append_left _ hother, hsame⟩
  stored name := by
    rw [firstAmbiguous_concat, if_neg (by simp [Link.isAmbiguous, htier]), Option.or_none]
    exact h.stored name
  bound := h.bound

theorem Linked.ambiguous_concat {parts : Parts} {links : List Link} (h : Linked parts links)
    {link : Link} (htier : link.resolution.tier = .ambiguous) :
    ∀ reference ∈ parts.ambiguous ++ [⟨link.source, link.name, link.relation⟩],
      ∃ other ∈ links ++ [link], other.isAmbiguous reference.name ∧
        other.source = reference.source := by
  intro reference hreference
  rcases List.mem_append.mp hreference with hold | hnew
  · obtain ⟨other, hother, hsame⟩ := h.ambiguous reference hold
    exact ⟨other, List.mem_append_left _ hother, hsame⟩
  · obtain rfl := List.mem_singleton.mp hnew
    exact ⟨link, by simp, by simp [Link.isAmbiguous, htier], rfl⟩

theorem Linked.link {parts : Parts} {links : List Link} (h : Linked parts links) (link : Link) :
    Linked (parts.link link) (links ++ [link]) := by
  unfold Parts.link
  split
  · rename_i htier
    exact h.of_unambiguous htier _
  · rename_i htier
    have htier : link.resolution.tier = .ambiguous := not_not.mp htier
    have hambiguous := h.ambiguous_concat htier
    have hother {name : Text} (hname : link.name ≠ name) : ¬ link.isAmbiguous name = true := by
      simp [Link.isAmbiguous, hname]
    dsimp only
    split
    · -- the name is stored already, by an earlier link
      rename_i hheld
      refine ⟨hambiguous, fun name => ?_, h.bound⟩
      rw [firstAmbiguous_concat]
      by_cases hname : link.name = name
      · rw [hname, h.contains_iff] at hheld
        obtain ⟨first, hfirst⟩ := Option.isSome_iff_exists.mp hheld
        rw [hfirst, Option.some_or, ← hfirst]
        exact h.stored name
      · rw [if_neg (hother hname), Option.or_none]
        exact h.stored name
    · -- the first ambiguous link of the name stores its candidates
      rename_i hheld
      refine ⟨hambiguous, fun name => ?_, fun name at_ hat => ?_⟩
      · rw [firstAmbiguous_concat]
        by_cases hname : link.name = name
        · have hnone : firstAmbiguous links name = none := by
            rw [h.contains_iff, hname] at hheld
            simpa using hheld
          have hlink : link.isAmbiguous name = true := by simp [Link.isAmbiguous, hname, htier]
          subst hname
          simp [hnone, hlink]
        · have hcompare : ¬ compare link.name name = .eq := fun heq =>
            hname (Std.compare_eq_iff_eq.mp heq)
          have hkept : ∀ at_, parts.candidateNames[name]? = some at_ →
              (parts.candidates ++ [(link.name, distinctEndpoints link.resolution)])[at_]? =
                parts.candidates[at_]? := fun at_ hat =>
            List.getElem?_append_left (h.bound name at_ hat)
          rw [if_neg (hother hname), Option.or_none, ← h.stored name, TreeMap.getElem?_insert,
            if_neg hcompare]
          cases hat : parts.candidateNames[name]? with
          | none => rfl
          | some at_ => exact hkept at_ hat
      · rw [TreeMap.getElem?_insert] at hat
        rw [List.length_append, List.length_singleton]
        split at hat
        · simp at hat
          omega
        · have := h.bound name at_ hat
          omega

theorem Linked.foldl_link {parts : Parts} {links : List Link} (h : Linked parts links)
    (more : List Link) : Linked (more.foldl Parts.link parts) (links ++ more) := by
  induction more generalizing parts links with
  | nil => simpa using h
  | cons link more ih => simpa using ih (h.link link)

section Graph

variable (scopes : Scopes)

/-- The links of one file, in the order they are made. -/
def fileLinks (file : FileFacts) : List Link :=
  if inNameGraph file then symbolLinks scopes file else []

/-- Every link of a scan, in the order they are made. -/
def allLinks : List Link := scopes.files.flatMap (fileLinks scopes)

theorem Linked.addFile {parts : Parts} {links : List Link} (h : Linked parts links)
    (position : Nat) (file : FileFacts) :
    Linked (parts.addFile scopes position file) (links ++ fileLinks scopes file) := by
  have himports : Linked (parts.importEdges scopes position file) links :=
    ⟨h.ambiguous, h.stored, h.bound⟩
  unfold Parts.addFile fileLinks
  dsimp only
  split
  · exact himports.foldl_link _
  · simpa using himports

/-- The built graph holds what its links say. -/
theorem build_linked :
    ∃ parts, SymbolGraph.build scopes = parts.finish ∧ Linked parts (allLinks scopes) := by
  refine ⟨_, rfl, ?_⟩
  have hfold (files : List (FileFacts × Nat)) {parts : Parts} {links : List Link}
      (h : Linked parts links) :
      Linked (files.foldl (fun parts file => Parts.addFile scopes parts file.2 file.1) parts)
        (links ++ (files.map Prod.fst).flatMap (fileLinks scopes)) := by
    induction files generalizing parts links with
    | nil => simpa using h
    | cons file files ih => simpa using ih (h.addFile scopes file.2 file.1)
  have hempty : Linked {} [] := ⟨by simp, by simp [firstAmbiguous], by simp⟩
  simpa [allLinks] using hfold scopes.files.zipIdx hempty

theorem siteSource_path (file : FileFacts) (line : Nat) : (siteSource file line).path = file.path := by
  unfold siteSource
  split <;> rfl

theorem mem_allLinks {link : Link} (h : link ∈ allLinks scopes) :
    (∃ file ∈ scopes.files, link.source.path = file.path) ∧
      (link.resolution.tier = .ambiguous →
        resolve scopes link.name link.source.path = some link.resolution) := by
  obtain ⟨file, hfile, hlink⟩ := List.mem_flatMap.mp h
  unfold fileLinks at hlink
  split at hlink
  · rcases List.mem_append.mp hlink with hsite | hbase
    · obtain ⟨⟨reference, found⟩, hfound, rfl⟩ := List.mem_map.mp hsite
      obtain ⟨spelled, -, hspelled⟩ := List.mem_filterMap.mp hfound
      obtain ⟨-, hspelled⟩ := Option.ite_none_left_eq_some.mp hspelled
      obtain ⟨resolution, hresolved, hpair⟩ := Option.map_eq_some_iff.mp hspelled
      obtain ⟨rfl, rfl⟩ := Prod.mk.inj hpair
      refine ⟨⟨file, hfile, siteSource_path file _⟩, fun htier => ?_⟩
      dsimp only
      rw [siteSource_path]
      exact resolveSite_ambiguous hresolved htier
    · obtain ⟨symbol, -, hbase⟩ := List.mem_flatMap.mp hbase
      obtain ⟨base, -, hbase⟩ := List.mem_filterMap.mp hbase
      obtain ⟨-, hbase⟩ := Option.ite_none_left_eq_some.mp hbase
      obtain ⟨resolution, hresolved, rfl⟩ := Option.map_eq_some_iff.mp hbase
      exact ⟨⟨file, hfile, rfl⟩, fun _ => hresolved⟩
  · simp at hlink

theorem mem_sortedDistinct {α : Type} [DecidableEq α] {cmp : α → α → Ordering} {items : List α}
    {item : α} : item ∈ sortedDistinct cmp items ↔ item ∈ items := by
  rw [sortedDistinct, Sequence.mem_destutter_ne, List.mem_insertionSort]

/-- The endpoints of what `name` resolves to in the file at `path`. -/
def candidateEndpoints (name path : Text) : List Endpoint :=
  ((resolve scopes name path).elim [] Resolution.candidates).map Definition.endpoint

/-- The two files are of one language family. -/
def SameFamily (path path' : Text) : Prop :=
  (scopes.languageOf path).map Language.family = (scopes.languageOf path').map Language.family

/-- The candidates of an ambiguous link are those of its family, and there are some. -/
theorem ambiguous_candidates {link : Link} (h : link ∈ allLinks scopes) {name : Text}
    (hlink : link.isAmbiguous name) :
    ∃ language, scopes.languageOf link.source.path = some language ∧
      link.resolution.candidates = nameOnly scopes name (some language) ∧
      link.resolution.candidates ≠ [] ∧
      candidateEndpoints scopes name link.source.path =
        link.resolution.candidates.map Definition.endpoint := by
  obtain ⟨rfl, htier⟩ : link.name = name ∧ link.resolution.tier = .ambiguous := by
    simpa [Link.isAmbiguous] using hlink
  obtain ⟨⟨file, hfile, hpath⟩, hresolved⟩ := mem_allLinks scopes h
  obtain ⟨language, hlanguage⟩ := languageOf_isSome hfile
  rw [← hpath] at hlanguage
  obtain ⟨hcandidates, hne⟩ := resolve_ambiguous (hresolved htier) htier
  rw [hlanguage] at hcandidates
  exact ⟨language, hlanguage, hcandidates, hne, by rw [candidateEndpoints, hresolved htier]; rfl⟩

theorem mem_targets {graph : SymbolGraph} {reference : AmbiguousReference} {target : Endpoint} :
    target ∈ (graph.ambiguousEdges reference).map SymbolEdge.target ↔
      target ∈ graph.candidatesOf reference.name ∧ target.node ≠ reference.source.node := by
  simp only [SymbolGraph.ambiguousEdges, SymbolEdge.new, List.mem_map, List.mem_filterMap,
    Option.ite_none_right_eq_some, Option.some.injEq]
  constructor
  · rintro ⟨edge, ⟨endpoint, hmem, hne, rfl⟩, rfl⟩
    exact ⟨hmem, Ne.symm hne⟩
  · rintro ⟨hmem, hne⟩
    exact ⟨_, ⟨target, hmem, Ne.symm hne, rfl⟩, rfl⟩

/-- Families without a common node cannot both be the target's own node, so their candidates
differ as targets. -/
theorem family_of_same_targets {first own : List Definition} {node : Text}
    (hfirst : first ≠ []) (hown : own ≠ [])
    (h : ∀ target : Endpoint,
      (target ∈ first.map Definition.endpoint ∧ target.node ≠ node) ↔
        (target ∈ own.map Definition.endpoint ∧ target.node ≠ node)) :
    ∃ x ∈ first, ∃ y ∈ own, x.file.language = y.file.language := by
  obtain ⟨x, hx⟩ := List.exists_mem_of_ne_nil _ hfirst
  obtain ⟨y, hy⟩ := List.exists_mem_of_ne_nil _ hown
  by_cases hnode : x.endpoint.node = node
  · by_cases hnode' : y.endpoint.node = node
    · exact ⟨x, hx, y, hy, language_of_node (hnode.trans hnode'.symm)⟩
    · obtain ⟨hmem, -⟩ := (h y.endpoint).mpr ⟨List.mem_map_of_mem hy, hnode'⟩
      obtain ⟨z, hz, heq⟩ := List.mem_map.mp hmem
      exact ⟨z, hz, y, hy, language_of_node (congrArg Endpoint.node heq)⟩
  · obtain ⟨hmem, -⟩ := (h x.endpoint).mp ⟨List.mem_map_of_mem hx, hnode⟩
    obtain ⟨z, hz, heq⟩ := List.mem_map.mp hmem
    exact ⟨x, hx, z, hz, language_of_node (congrArg Endpoint.node heq.symm)⟩

/-- The edges of an ambiguous reference lead to the candidates of its name in its own file
exactly when the first link that spelled the name ambiguously is in a file of its family. -/
theorem ambiguousEdges_exact_iff {reference : AmbiguousReference}
    (h : reference ∈ (SymbolGraph.build scopes).ambiguous) :
    (∀ target,
      target ∈ ((SymbolGraph.build scopes).ambiguousEdges reference).map SymbolEdge.target ↔
        target ∈ candidateEndpoints scopes reference.name reference.source.path ∧
          target.node ≠ reference.source.node) ↔
    ∃ first, firstAmbiguous (allLinks scopes) reference.name = some first ∧
      SameFamily scopes first.source.path reference.source.path := by
  obtain ⟨parts, hbuild, hlinked⟩ := build_linked scopes
  rw [hbuild] at h ⊢
  obtain ⟨link, hlink, hname, hsource⟩ := hlinked.ambiguous reference (mem_sortedDistinct.mp h)
  obtain ⟨first, hfirst⟩ : ∃ first, firstAmbiguous (allLinks scopes) reference.name = some first :=
    Option.isSome_iff_exists.mp (List.find?_isSome.mpr ⟨link, hlink, hname⟩)
  obtain ⟨language, hlanguage, hcandidates, hne, hendpoints⟩ :=
    ambiguous_candidates scopes hlink hname
  have hfirstName : first.isAmbiguous reference.name :=
    List.find?_some (p := fun link : Link => link.isAmbiguous reference.name) hfirst
  obtain ⟨language', hlanguage', hcandidates', hne', -⟩ :=
    ambiguous_candidates scopes (List.mem_of_find?_eq_some hfirst) hfirstName
  have hstored (target : Endpoint) : target ∈ parts.finish.candidatesOf reference.name ↔
      target ∈ first.resolution.candidates.map Definition.endpoint := by
    have hheld : (parts.finish.candidateNames[reference.name]?).bind
        (parts.finish.candidates[·]?) = some (reference.name, distinctEndpoints first.resolution) := by
      rw [← Option.map_some (f := fun link : Link =>
        (reference.name, distinctEndpoints link.resolution)), ← hfirst]
      exact hlinked.stored reference.name
    rw [SymbolGraph.candidatesOf, hheld]
    exact mem_distinctEndpoints
  rw [← hsource, hendpoints]
  simp only [mem_targets, hstored]
  constructor
  · intro hsame
    refine ⟨first, hfirst, ?_⟩
    rw [← hsource] at hsame
    obtain ⟨x, hx, y, hy, hxy⟩ := family_of_same_targets hne' hne hsame
    rw [hcandidates'] at hx
    rw [hcandidates] at hy
    rw [SameFamily, hlanguage, hlanguage', Option.map_some, Option.map_some,
      ← family_of_mem_nameOnly hx, ← family_of_mem_nameOnly hy, hxy]
  · rintro ⟨other, hother, hfamily⟩ target
    obtain rfl : first = other := Option.some.inj (hfirst.symm.trans hother)
    rw [SameFamily, hlanguage, hlanguage', Option.map_some, Option.map_some,
      Option.some.injEq] at hfamily
    rw [hcandidates, hcandidates', nameOnly_congr hfamily, hsource]

end Graph

/-- A file that defines `run` on its first line. -/
def definesRun (path : String) (language : Language) : FileFacts :=
  ⟨path.toList, language, [⟨"run".toList, 1, 1, 1, [], [], 0⟩], []⟩

/-- A file that spells `run` on its first line. -/
def spellsRun (path : String) (language : Language) : FileFacts :=
  ⟨path.toList, language, [], [⟨"run".toList, 1, .reference, []⟩]⟩

/-- Two Python files and two JavaScript files that define `run`, and one of each that spells
it. -/
def twoFamilies : Scopes where
  files := [definesRun "a.py" .python, definesRun "b.py" .python, spellsRun "c.py" .python,
    definesRun "d.js" .javascript, definesRun "e.js" .javascript, spellsRun "f.js" .javascript]
  perFile _ := {}

theorem ambiguousEdges_exact_iff_first_family :
    (∀ target, target ∈ ((SymbolGraph.build twoFamilies).ambiguousEdges
        ⟨fileEndpoint (spellsRun "c.py" .python) 1, "run".toList, .references⟩).map
          SymbolEdge.target ↔
        target ∈ candidateEndpoints twoFamilies "run".toList "c.py".toList ∧
          target.node ≠ "c.py".toList) ↔
    ∃ first, firstAmbiguous (allLinks twoFamilies) "run".toList = some first ∧
      SameFamily twoFamilies first.source.path "c.py".toList :=
  ambiguousEdges_exact_iff twoFamilies (by decide)

/-- The JavaScript reference leads to the Python definitions. -/
theorem ambiguousEdges_other_family :
    ∃ reference ∈ (SymbolGraph.build twoFamilies).ambiguous,
      reference.source.path = "f.js".toList ∧
      ∃ target ∈ ((SymbolGraph.build twoFamilies).ambiguousEdges reference).map SymbolEdge.target,
        target ∉ candidateEndpoints twoFamilies reference.name reference.source.path := by
  refine ⟨⟨fileEndpoint (spellsRun "f.js" .javascript) 1, "run".toList, .references⟩,
    by decide, rfl, (Definition.mk (definesRun "a.py" .python)
      ⟨"run".toList, 1, 1, 1, [], [], 0⟩).endpoint, by decide, by decide⟩

end Agentless.Graph
