import Agentless.Io.ContainExact
import Agentless.Io.Txn
import Agentless.Library.Text

/-!
# Where the repository write writes

The write with the names that it uses: a target is what the base directory makes of a path, and its
staged file and its backup are created beside it, in the directory that holds the target. The
operating system may refuse any call and may hold any name; what it did is the list of the paths
that were created, renamed or removed.
-/

namespace Agentless.Io.Txn

open Posix StdPath Contain

/-! ## What the steps keep -/

section Keeps

variable {W Path Refusal : Type} {steps : Steps W Path}
  {base : Base Path Refusal}

/-- Steps that keep `inv` when they are used on targets and on the siblings that they made. -/
structure Keeps (steps : Steps W Path) (inv : W → Prop) (target sibling : Path → Prop) : Prop where
  stage : ∀ path bytes w, target path → inv w → inv (steps.stage path bytes w).2
  sibling_of_stage : ∀ path bytes w made, target path →
    (steps.stage path bytes w).1 = .ok made → sibling made
  reserve : ∀ path w, target path → inv w → inv (steps.reserve path w).2
  sibling_of_reserve : ∀ path w made, target path →
    (steps.reserve path w).1 = .ok made → sibling made
  rename : ∀ source path w, target source ∨ sibling source → target path ∨ sibling path →
    inv w → inv (steps.rename source path w).2
  remove : ∀ path w, sibling path → inv w → inv (steps.remove path w).2

namespace Keeps

variable {inv : W → Prop} {target sibling : Path → Prop}
  (h : Keeps steps inv target sibling) {w : W} {staged : List (Staged Path)}
include h

theorem discard {paths : List Path} (hpaths : ∀ path ∈ paths, sibling path) (hw : inv w) :
    inv (discard steps paths w).2 := by
  induction paths generalizing w with
  | nil => exact hw
  | cons path paths ih =>
    have hrest := fun other hother => hpaths other (List.mem_cons_of_mem _ hother)
    have hstep := h.remove path w (hpaths path List.mem_cons_self) hw
    grind [Txn.discard]

theorem discardStaged (hstaged : ∀ one ∈ staged, target one.target ∧ sibling one.staging)
    (hw : inv w) : inv (discardStaged steps staged w).2 := by
  refine h.discard ?_ hw
  simpa using fun one hone => (hstaged one hone).2

theorem stagePath {path : Text} (bytes : Bytes)
    (hpath : ∀ made, base.containedPath path = .ok made → target made) (hw : inv w) :
    inv (stagePath steps base path bytes w).2 ∧
      ∀ one, (stagePath steps base path bytes w).1 = .ok one →
        target one.target ∧ sibling one.staging := by
  unfold Txn.stagePath
  cases hcontained : base.containedPath path with
  | error refusal => exact ⟨hw, by simp⟩
  | ok made =>
    have htarget := hpath made hcontained
    have hstage := h.stage made bytes w htarget hw
    have hsibling := fun staging => h.sibling_of_stage made bytes w staging htarget
    grind [Txn.stageOne]

theorem stageFrom {files : List (Text × Bytes)}
    (hfiles : ∀ file ∈ files, ∀ path, base.containedPath file.1 = .ok path → target path)
    (hstaged : ∀ one ∈ staged, target one.target ∧ sibling one.staging) (hw : inv w) :
    inv (stageFrom steps base files staged w).2 ∧
      ∀ all, (stageFrom steps base files staged w).1 = .ok all →
        ∀ one ∈ all, target one.target ∧ sibling one.staging := by
  induction files generalizing staged w with
  | nil => exact ⟨hw, by simpa [Txn.stageFrom] using hstaged⟩
  | cons file files ih =>
    have hrest := fun other hother => hfiles other (List.mem_cons_of_mem _ hother)
    have hstep := h.stagePath file.2 (hfiles file List.mem_cons_self) hw
    unfold Txn.stageFrom
    rcases hresult : Txn.stagePath steps base file.1 file.2 w with ⟨result, w'⟩
    rw [hresult] at hstep
    cases result with
    | error error => exact ⟨h.discardStaged hstaged hstep.1, by simp⟩
    | ok one =>
      refine ih hrest (fun other hother => ?_) hstep.1
      rcases List.mem_append.mp hother with hother | hother
      · exact hstaged other hother
      · exact List.mem_singleton.mp hother ▸ hstep.2 one rfl

theorem reserveFrom {rest : List (Staged Path)} {backups : List Path}
    (hstaged : ∀ one ∈ staged, target one.target ∧ sibling one.staging)
    (hrest : ∀ one ∈ rest, target one.target) (hbackups : ∀ path ∈ backups, sibling path)
    (hw : inv w) {result : Except (WriteFailure Path Refusal) (List Path)} {w' : W}
    (hresult : reserveFrom steps staged rest backups w = (result, w')) :
    inv w' ∧ ∀ all, result = .ok all → ∀ path ∈ all, sibling path := by
  induction rest generalizing backups w with
  | nil =>
    cases hresult
    exact ⟨hw, fun all hall => by cases hall; exact hbackups⟩
  | cons one rest ih =>
    have hone := hrest one List.mem_cons_self
    have hstep := h.reserve one.target w hone hw
    have hsibling := h.sibling_of_reserve one.target w
    unfold Txn.reserveFrom at hresult
    rcases hreserve : steps.reserve one.target w with ⟨reserved, w₁⟩
    rw [hreserve] at hstep hsibling hresult
    cases reserved with
    | error reason =>
      have hdiscarded := h.discard hbackups (h.discardStaged hstaged hstep)
      cases hresult
      exact ⟨hdiscarded, by simp⟩
    | ok backup =>
      refine ih (fun other hother => hrest other (List.mem_cons_of_mem _ hother)) ?_ hstep hresult
      intro path hpath
      rcases List.mem_append.mp hpath with hpath | hpath
      · exact hbackups path hpath
      · exact List.mem_singleton.mp hpath ▸ hsibling backup hone rfl

theorem restore {pairs : List (Path × Path)}
    (hpairs : ∀ pair ∈ pairs, sibling pair.1 ∧ target pair.2) (hw : inv w) :
    inv (restore steps pairs w).2 := by
  induction pairs generalizing w with
  | nil => exact hw
  | cons pair pairs ih =>
    have hrest := fun other hother => hpairs other (List.mem_cons_of_mem _ hother)
    have hpair := hpairs pair List.mem_cons_self
    have hstep := h.rename pair.1 pair.2 w (.inr hpair.1) (.inl hpair.2) hw
    grind [Txn.restore]

variable [DecidableEq Path] {backups : List Path} {completed : List (Path × Path)}

theorem undo (base : Base Path Refusal) (position : Nat) (reason : Text)
    (hstaged : ∀ one ∈ staged, target one.target ∧ sibling one.staging)
    (hbackups : ∀ path ∈ backups, sibling path)
    (hcompleted : ∀ pair ∈ completed, sibling pair.1 ∧ target pair.2) (hw : inv w) :
    inv (undo steps base staged backups completed position reason w).2 := by
  have hrolled : inv (Txn.rollBack steps completed w).2 :=
    h.restore (by simpa using hcompleted) hw
  have hdropped : ∀ one ∈ staged.drop position, target one.target ∧ sibling one.staging :=
    fun one hone => hstaged one (List.mem_of_mem_drop hone)
  have hleft := h.discardStaged hdropped hrolled
  exact h.discard (fun path hpath => hbackups path (List.mem_of_mem_filter hpath)) hleft

theorem replaceFrom (base : Base Path Refusal) {rest : List (Staged Path × Path)} (position : Nat)
    (hstaged : ∀ one ∈ staged, target one.target ∧ sibling one.staging)
    (hbackups : ∀ path ∈ backups, sibling path)
    (hrest : ∀ pair ∈ rest, (target pair.1.target ∧ sibling pair.1.staging) ∧ sibling pair.2)
    (hcompleted : ∀ pair ∈ completed, sibling pair.1 ∧ target pair.2) (hw : inv w) :
    inv (replaceFrom steps base staged backups rest position completed w).2 := by
  induction rest generalizing position completed w with
  | nil => exact hw
  | cons pair rest ih =>
    obtain ⟨one, backup⟩ := pair
    obtain ⟨⟨htarget, hstaging⟩, hbackup⟩ := hrest _ List.mem_cons_self
    have hmore : ∀ pair ∈ completed ++ [(backup, one.target)], sibling pair.1 ∧ target pair.2 := by
      intro pair hpair
      rcases List.mem_append.mp hpair with hpair | hpair
      · exact hcompleted pair hpair
      · exact List.mem_singleton.mp hpair ▸ ⟨hbackup, htarget⟩
    have hfirst := h.rename one.target backup w (.inl htarget) (.inr hbackup) hw
    unfold Txn.replaceFrom
    rcases hmove : steps.rename one.target backup w with ⟨moved, w₁⟩
    rw [hmove] at hfirst
    cases moved with
    | error reason => exact h.undo base position reason hstaged hbackups hcompleted hfirst
    | ok done =>
      have hsecond := h.rename one.staging one.target w₁ (.inr hstaging) (.inl htarget) hfirst
      dsimp only
      rcases hmove' : steps.rename one.staging one.target w₁ with ⟨moved, w₂⟩
      rw [hmove'] at hsecond
      cases moved with
      | error reason => exact h.undo base position reason hstaged hbackups hmore hsecond
      | ok done =>
        exact ih _ (fun other hother => hrest other (List.mem_cons_of_mem _ hother)) hmore hsecond

theorem writeWith_of_stageAll {contents : List (Text × Bytes)}
    (hw : inv (stageAll steps base (fileMap contents) w).2)
    (hstaged : ∀ staged, (stageAll steps base (fileMap contents) w).1 = .ok staged →
      ∀ one ∈ staged, target one.target ∧ sibling one.staging) :
    inv (writeWith steps base contents w).2 := by
  unfold Txn.writeWith
  rcases hstage : Txn.stageAll steps base (fileMap contents) w with ⟨result, w₁⟩
  rw [hstage] at hw hstaged
  cases result with
  | error failure => exact hw
  | ok staged =>
    have hheld := hstaged staged rfl
    dsimp only
    rcases hreserved : Txn.reserveAll steps staged w₁ with ⟨result, w₂⟩
    have hreserve := h.reserveFrom hheld (fun one hone => (hheld one hone).1) (by simp) hw hreserved
    cases result with
    | error failure => exact hreserve.1
    | ok backups =>
      have hbackups := hreserve.2 backups rfl
      have hreplace : inv (Txn.replaceFrom steps base staged backups (staged.zip backups) 0 [] w₂).2 := by
        refine h.replaceFrom base 0 hheld hbackups (fun pair hpair => ?_) (by simp) hreserve.1
        exact ⟨hheld _ (List.of_mem_zip hpair).1, hbackups _ (List.of_mem_zip hpair).2⟩
      dsimp only
      unfold Txn.replaceAll
      rcases hreplaced : Txn.replaceFrom steps base staged backups (staged.zip backups) 0 [] w₂ with
        ⟨result, w₃⟩
      rw [hreplaced] at hreplace
      cases result with
      | error failure => exact hreplace
      | ok done => exact h.discard hbackups hreplace

/-- What every step keeps, the write keeps. -/
theorem writeWith {contents : List (Text × Bytes)}
    (hcontents : ∀ file ∈ fileMap contents, ∀ path,
      base.containedPath file.1 = .ok path → target path) (hw : inv w) :
    inv (writeWith steps base contents w).2 := by
  have hnone : ∀ one ∈ ([] : List (Staged Path)), target one.target ∧ sibling one.staging := by simp
  have hstage := h.stageFrom hcontents hnone hw
  exact h.writeWith_of_stageAll hstage.1 hstage.2

end Keeps

end Keeps

/-! ## Siblings -/

/-- What the operating system answers to the `n`-th call: the reason with which it fails, if it
does, whether the name of a file to create is taken, and the bytes of its random source. -/
structure Os where
  fails : Nat → Option Text
  taken : Nat → Bool
  random : Nat → Nat → UInt8

/-- The number of calls so far, and the paths that they created, renamed or removed. -/
structure Calls where
  count : Nat := 0
  touched : List Bytes := []

def stagingSuffix : Bytes := utf8 ".agentless-mcp-staged".toList

def backupSuffix : Bytes := utf8 ".agentless-mcp-backup".toList

def nameCharacters : Bytes := utf8 "abcdefghijklmnopqrstuvwxyz0123456789_".toList

def nameLength : Nat := 8

def maxNameAttempts : Nat := 100

def noUsableName : Text := "No usable temporary file name found".toList

def busy : Text := "Device or resource busy".toList

/-- The name `.<name>.` with which the names of the hidden siblings of a file start. -/
def siblingPrefix (name : Bytes) : Bytes := dot ++ name ++ dot

def siblingParts (target : Bytes) : Bytes × Bytes :=
  ((StdPath.parent target).getD [slash], siblingPrefix ((StdPath.fileName target).getD []))

section Named

variable (os : Os)

def call (paths : List Bytes) (w : Calls) : Except Text Unit × Calls :=
  match os.fails w.count with
  | some reason => (.error reason, { w with count := w.count + 1 })
  | none => (.ok (), ⟨w.count + 1, w.touched ++ paths⟩)

def randomName (random : Nat → UInt8) : Bytes :=
  (List.range nameLength).map fun i =>
    nameCharacters.getD ((random i).toNat % nameCharacters.length) 0

def siblingName (start suffix : Bytes) (w : Calls) : Except Text Bytes × Calls :=
  match call os [] w with
  | (.error reason, w') => (.error reason, w')
  | (.ok (), w') => (.ok (start ++ randomName (os.random w.count) ++ suffix), w')

/-- The exclusive creation of a sibling: a taken name is skipped. -/
def createSibling (directory start suffix : Bytes) : Nat → Calls → Except Text Bytes × Calls
  | 0, w => (.error noUsableName, w)
  | attempts + 1, w =>
    match siblingName os start suffix w with
    | (.error reason, w) => (.error reason, w)
    | (.ok name, w) =>
      let path := join directory name
      if os.taken w.count then
        createSibling directory start suffix attempts { w with count := w.count + 1 }
      else
        match call os [path] w with
        | (.error reason, w) => (.error reason, w)
        | (.ok (), w) => (.ok path, w)

/-- The mode, the write, the flush and the close touch no name, so they are one call here. -/
def stageFile (target : Bytes) (w : Calls) : Except Text Bytes × Calls :=
  let (directory, start) := siblingParts target
  match createSibling os directory start stagingSuffix maxNameAttempts w with
  | (.error reason, w) => (.error reason, w)
  | (.ok staging, w) =>
    match call os [] w with
    | (.ok (), w) => (.ok staging, w)
    | (.error reason, w) => (.error reason, (call os [staging] w).2)

/-- The steps with the names that they use. The root directory cannot be renamed. -/
def named : Steps Calls Bytes where
  stage target _ w := stageFile os target w
  reserve target w :=
    createSibling os (siblingParts target).1 (siblingParts target).2 backupSuffix maxNameAttempts w
  rename source target w :=
    if source = [slash] ∨ target = [slash] then (.error busy, { w with count := w.count + 1 })
    else call os [source, target] w
  remove path w := call os [path] w

end Named

/-- The base directory `base` of a host, with the text that shows a file name. -/
def baseAt (host : Host) (base : Bytes) (shown : Bytes → Text) : Base Bytes Contain.Refusal where
  containedPath path := containedPath host base (utf8 path)
  fileName target := (StdPath.fileName target).map shown

/-! ## Inside the base -/

/-- The path of a place below `root`, and not of `root` itself. -/
def Below (root : Location) (path : Bytes) : Prop :=
  ∃ place, path = render place ∧ root <+: place ∧ place ≠ root

theorem slash_notMem_randomName (random : Nat → UInt8) : slash ∉ randomName random := by
  have hcharacters : ∀ i < nameCharacters.length, nameCharacters.getD i 0 ≠ slash := by
    decide
  intro h
  obtain ⟨i, -, hi⟩ := List.mem_map.mp h
  exact hcharacters _ (Nat.mod_lt _ (by decide)) hi

theorem exists_sibling {name suffix : Bytes} (hname : slash ∉ name) (hsuffix : slash ∉ suffix)
    (random : Nat → UInt8) :
    ∃ sibling : Name, sibling.bytes = siblingPrefix name ++ randomName random ++ suffix := by
  have hlength : 8 < (siblingPrefix name ++ randomName random ++ suffix).length := by
    simp only [siblingPrefix, randomName, nameLength, List.length_append, List.length_map,
      List.length_range, List.length_singleton]
    omega
  refine ⟨⟨_, ?_, ?_, ?_, ?_⟩, rfl⟩
  · intro h
    simp [h] at hlength
  · intro h
    simp [h] at hlength
  · intro h
    simp [h] at hlength
  · have hrandom := slash_notMem_randomName random
    have hdot : slash ∉ dot := by decide
    simp only [siblingPrefix, List.mem_append, not_or]
    exact ⟨⟨⟨⟨hdot, hname⟩, hdot⟩, hrandom⟩, hsuffix⟩

theorem siblingParts_render_concat (place : Location) (name : Name) :
    siblingParts (render (place ++ [name])) = (render place, siblingPrefix name.bytes) := by
  rw [siblingParts, parent_render_concat, fileName_render_concat]
  rfl

/-- A target that the write can have: a place below the base, or the root directory when it is the
base. -/
def Target (root : Location) (path : Bytes) : Prop :=
  Below root path ∨ root = [] ∧ path = [slash]

theorem Target.sibling {root : Location} {target suffix : Bytes} (h : Target root target)
    (hsuffix : slash ∉ suffix) (random : Nat → UInt8) :
    Below root (join (siblingParts target).1
      ((siblingParts target).2 ++ randomName random ++ suffix)) := by
  rcases h with ⟨place, rfl, hpre, hne⟩ | ⟨rfl, rfl⟩
  · rcases place.eq_nil_or_concat with rfl | ⟨place, name, rfl⟩
    · exact absurd (List.prefix_nil.mp hpre).symm hne
    · rw [List.concat_eq_append] at hpre hne ⊢
      obtain ⟨sibling, hsibling⟩ := exists_sibling name.slash_notMem hsuffix random
      rw [siblingParts_render_concat, ← hsibling, join_render]
      have hroot : root <+: place :=
        (List.prefix_concat_iff.mp hpre).resolve_left (Ne.symm hne)
      refine ⟨place ++ [sibling], rfl, hroot.trans (List.prefix_append _ _), ?_⟩
      rintro rfl
      simpa using hroot.length_le
  · obtain ⟨sibling, hsibling⟩ := exists_sibling List.not_mem_nil hsuffix random
    have hparts : siblingParts [slash] = (render [], siblingPrefix []) := by decide
    rw [hparts, ← hsibling, join_render]
    exact ⟨[sibling], rfl, List.nil_prefix, by simp⟩

theorem createSibling_spec (os : Os) {directory start suffix : Bytes} {P : Bytes → Prop}
    (hP : ∀ random, P (join directory (start ++ randomName random ++ suffix))) (attempts : Nat)
    (w : Calls) :
    ((∀ path ∈ w.touched, P path) →
      ∀ path ∈ (createSibling os directory start suffix attempts w).2.touched, P path) ∧
    ∀ made, (createSibling os directory start suffix attempts w).1 = .ok made → P made := by
  induction attempts generalizing w with
  | zero => exact ⟨id, by simp [createSibling]⟩
  | succ attempts ih =>
    have hname := hP (os.random w.count)
    unfold createSibling siblingName call
    grind

theorem touched_call (os : Os) {paths : List Bytes} {P : Bytes → Prop} {w : Calls}
    (hpaths : ∀ path ∈ paths, P path) (hw : ∀ path ∈ w.touched, P path) :
    ∀ path ∈ (call os paths w).2.touched, P path := by
  unfold call
  split
  · exact hw
  · simpa [or_imp, forall_and] using ⟨hw, hpaths⟩

theorem stageFile_spec (os : Os) {target : Bytes} {P : Bytes → Prop}
    (hP : ∀ random, P (join (siblingParts target).1
      ((siblingParts target).2 ++ randomName random ++ stagingSuffix))) (w : Calls) :
    ((∀ path ∈ w.touched, P path) → ∀ path ∈ (stageFile os target w).2.touched, P path) ∧
    ∀ made, (stageFile os target w).1 = .ok made → P made := by
  obtain ⟨hcreate, hmade⟩ := createSibling_spec os hP maxNameAttempts w
  unfold stageFile
  dsimp only
  rcases hcreated : createSibling os (siblingParts target).1 (siblingParts target).2 stagingSuffix
    maxNameAttempts w with ⟨result, w₁⟩
  rw [hcreated] at hcreate hmade
  cases result with
  | error reason => exact ⟨hcreate, by simp⟩
  | ok staging =>
    have hstaging := hmade staging rfl
    have hwritten (hw : ∀ path ∈ w.touched, P path) : ∀ path ∈ (call os [] w₁).2.touched, P path :=
      touched_call os (by simp) (hcreate hw)
    dsimp only
    rcases hwrite : call os [] w₁ with ⟨written, w₂⟩
    rw [hwrite] at hwritten
    cases written with
    | ok done => exact ⟨hwritten, fun made hmade => by cases hmade; exact hstaging⟩
    | error reason =>
      exact ⟨fun hw => touched_call os (by simpa using hstaging) (hwritten hw), by simp⟩

theorem Target.eq_slash_or_below {root : Location} {path : Bytes}
    (h : Target root path ∨ Below root path) : path = [slash] ∨ Below root path := by
  rcases h with (hbelow | ⟨-, hslash⟩) | hbelow
  · exact .inr hbelow
  · exact .inl hslash
  · exact .inr hbelow

/-- The steps touch only places below the base. -/
theorem named_keeps (os : Os) (root : Location) :
    Keeps (named os) (fun w => ∀ path ∈ w.touched, Below root path) (Target root) (Below root) where
  stage target bytes w htarget hw := (stageFile_spec os (htarget.sibling (by decide)) w).1 hw
  sibling_of_stage target bytes w made htarget hmade :=
    (stageFile_spec os (htarget.sibling (by decide)) w).2 made hmade
  reserve target w htarget hw :=
    (createSibling_spec os (htarget.sibling (by decide)) maxNameAttempts w).1 hw
  sibling_of_reserve target w made htarget hmade :=
    (createSibling_spec os (htarget.sibling (by decide)) maxNameAttempts w).2 made hmade
  rename source target w hsource htarget hw := by
    -- Only the root directory can be a target that is not below the base, and it never moves.
    rcases Target.eq_slash_or_below hsource with rfl | hsource
    · simpa [named] using hw
    · rcases Target.eq_slash_or_below htarget with rfl | htarget
      · simpa [named] using hw
      · unfold named
        dsimp only
        split_ifs
        · exact hw
        · exact touched_call os (by simpa using ⟨hsource, htarget⟩) hw
  remove path w hpath hw := touched_call os (by simpa using hpath) hw

section Touched

variable (os : Os) {w : Calls} {path : Bytes}

theorem mem_touched_call (paths : List Bytes) (hw : path ∈ w.touched) :
    path ∈ (call os paths w).2.touched := by
  unfold call
  split
  · exact hw
  · exact List.mem_append_left _ hw

theorem mem_touched_createSibling (directory start suffix : Bytes) (attempts : Nat)
    (hw : path ∈ w.touched) :
    path ∈ (createSibling os directory start suffix attempts w).2.touched := by
  induction attempts generalizing w with
  | zero => exact hw
  | succ attempts ih =>
    unfold createSibling siblingName call
    grind

theorem mem_touched_stageFile (target : Bytes) (hw : path ∈ w.touched) :
    path ∈ (stageFile os target w).2.touched := by
  have hcreate := mem_touched_createSibling os (siblingParts target).1 (siblingParts target).2
    stagingSuffix maxNameAttempts hw
  unfold stageFile
  grind [mem_touched_call]

theorem named_keeps_touched (path : Bytes) :
    Keeps (named os) (fun w => path ∈ w.touched) (fun _ => True) (fun _ => True) where
  stage target _ _ _ hw := mem_touched_stageFile os target hw
  sibling_of_stage _ _ _ _ _ _ := trivial
  reserve _ _ _ hw := mem_touched_createSibling os _ _ _ _ hw
  sibling_of_reserve _ _ _ _ _ := trivial
  rename source target w _ _ hw := by
    unfold named
    dsimp only
    split_ifs
    · exact hw
    · exact mem_touched_call os _ hw
  remove _ _ _ hw := mem_touched_call os _ hw

end Touched

/-! ## The write -/

/-- An operating system that refuses nothing. -/
def willing : Os := ⟨fun _ => none, fun _ => false, fun _ _ => 0⟩

/-- The sibling that `willing` stages a target in. -/
def willingSibling (target : Bytes) : Bytes :=
  join (siblingParts target).1 ((siblingParts target).2 ++ randomName (fun _ => 0) ++ stagingSuffix)

theorem stage_willing (target bytes : Bytes) (w : Calls) :
    (named willing).stage target bytes w =
      (.ok (willingSibling target), ⟨w.count + 3, w.touched ++ [willingSibling target]⟩) := by
  simp [named, stageFile, maxNameAttempts, createSibling, siblingName, call, willing,
    willingSibling]

theorem mem_touched_stageFrom {base : Base Bytes Contain.Refusal} {files : List (Text × Bytes)}
    {file : Text × Bytes} {target : Bytes} (hfile : file ∈ files)
    (hfiles : ∀ other ∈ files, ∃ path, base.containedPath other.1 = .ok path)
    (htarget : base.containedPath file.1 = .ok target) (staged : List (Staged Bytes)) (w : Calls) :
    willingSibling target ∈ (stageFrom (named willing) base files staged w).2.touched := by
  induction files generalizing staged w with
  | nil => cases hfile
  | cons first files ih =>
    have hrest := fun other hother => hfiles other (List.mem_cons_of_mem _ hother)
    obtain ⟨path, hpath⟩ := hfiles first List.mem_cons_self
    rw [stageFrom, stagePath, hpath]
    dsimp only [stageOne]
    rw [stage_willing]
    dsimp only
    rcases List.mem_cons.mp hfile with rfl | hfile
    · obtain rfl : path = target := Except.ok.inj (hpath.symm.trans htarget)
      have hnone : ∀ one ∈ staged ++ [⟨willingSibling path, path⟩], True ∧ True := by simp
      exact ((named_keeps_touched willing _).stageFrom (fun _ _ _ _ => trivial) hnone
        (by simp)).1
    · exact ih hfile hrest _ _

/-- A path that resolves to a base other than the root directory is staged outside the base. -/
theorem not_below_willingSibling {root : Location} (hne : root ≠ []) :
    ¬ Below root (willingSibling (render root)) := by
  rintro ⟨place, hplace, hpre, hother⟩
  rcases root.eq_nil_or_concat with rfl | ⟨parent, name, rfl⟩
  · exact hne rfl
  · rw [List.concat_eq_append] at hplace hpre hother
    have hsuffix : slash ∉ stagingSuffix := by decide
    obtain ⟨sibling, hsibling⟩ := exists_sibling name.slash_notMem hsuffix fun _ => 0
    rw [willingSibling, siblingParts_render_concat, ← hsibling, join_render] at hplace
    obtain rfl := render_injective hplace
    exact hother (hpre.eq_of_length (by simp)).symm

section Below

variable {host : Host} {base : Bytes} {root : Location}

theorem eq_or_below_of_containedPath (hroot : resolve host base = .ok (render root))
    {path target : Bytes} (h : containedPath host base path = .ok target) :
    target = render root ∨ Below root target := by
  obtain ⟨base', place, hbase, rfl, hpre⟩ := containedPath_eq_ok h
  obtain rfl := render_injective (Except.ok.inj (hroot.symm.trans hbase))
  by_cases hplace : place = root
  · exact .inl (by rw [hplace])
  · exact .inr ⟨place, rfl, hpre, hplace⟩

variable {contents : List (Text × Bytes)} (shown : Bytes → Text)

theorem touched_below (hroot : resolve host base = .ok (render root))
    (h : root = [] ∨ ∀ file ∈ contents, containedPath host base (utf8 file.1) ≠ .ok (render root))
    (os : Os) :
    ∀ path ∈ (writeWith (named os) (baseAt host base shown) contents {}).2.touched,
      Below root path := by
  refine (named_keeps os root).writeWith (fun file hfile target htarget => ?_) (by simp)
  obtain ⟨file', hfile', hsame⟩ := List.mem_map.mp (mem_fileMap.mp (List.mem_map_of_mem hfile))
  rcases eq_or_below_of_containedPath hroot htarget with rfl | hbelow
  · rcases h with rfl | hne
    · exact .inr ⟨rfl, rfl⟩
    · exact absurd (hsame ▸ htarget) (hne file' hfile')
  · exact .inl hbelow

theorem willingSibling_mem_touched
    (hcontents : ∀ file ∈ contents, ∃ target, containedPath host base (utf8 file.1) = .ok target)
    {file : Text × Bytes} (hfile : file ∈ contents) {target : Bytes}
    (htarget : containedPath host base (utf8 file.1) = .ok target) :
    willingSibling target ∈
      (writeWith (named willing) (baseAt host base shown) contents {}).2.touched := by
  obtain ⟨file', hfile', hsame⟩ := List.mem_map.mp (mem_fileMap.mpr (List.mem_map_of_mem hfile))
  refine (named_keeps_touched willing _).writeWith_of_stageAll ?_ fun _ _ _ _ => ⟨trivial, trivial⟩
  refine mem_touched_stageFrom hfile' (fun other hother => ?_) (hsame ▸ htarget) [] {}
  obtain ⟨other', hother', heq⟩ := List.mem_map.mp (mem_fileMap.mp (List.mem_map_of_mem hother))
  exact heq ▸ hcontents other' hother'

/-- On contents of which no path is refused, everything that the write creates, renames or removes
lies below the resolved base, whatever the operating system answers, exactly when no path resolves
to the base itself or the base is the root directory. -/
theorem writeWith_below_iff (hroot : resolve host base = .ok (render root))
    (hcontents : ∀ file ∈ contents, ∃ target, containedPath host base (utf8 file.1) = .ok target) :
    (∀ os, ∀ path ∈ (writeWith (named os) (baseAt host base shown) contents {}).2.touched,
      Below root path) ↔
    root = [] ∨ ∀ file ∈ contents, containedPath host base (utf8 file.1) ≠ .ok (render root) := by
  refine ⟨fun h => ?_, touched_below shown hroot⟩
  rw [or_iff_not_imp_left]
  intro hne file hfile htarget
  exact not_below_willingSibling hne
    (h willing _ (willingSibling_mem_touched shown hcontents hfile htarget))

/-- A host with the one directory `/r`. -/
def oneDirectory : Host where
  tree :=
    { entries := [([⟨utf8 "r".toList, by decide, by decide, by decide, by decide⟩], .directory)]
      directory_of_entry := by decide }
  limit := 40
  cwd := none
  directory_of_cwd := by simp

/-- A directory cannot be renamed to the name of a file, and everything else goes well. -/
def keepsDirectory : Os :=
  { willing with fails := fun n => if n = 5 then some "Not a directory".toList else none }

/-- The empty path is accepted as the base itself, and its sibling is made beside the base. -/
theorem writeWith_emptyPath_outside :
    (writeWith (named keepsDirectory) (baseAt oneDirectory (utf8 "/r".toList) fun _ => [])
      [([], [])] {}).1 = .error ⟨.restored [] "Not a directory".toList, []⟩ ∧
    ¬ ∀ path ∈ (writeWith (named keepsDirectory) (baseAt oneDirectory (utf8 "/r".toList) fun _ => [])
      [([], [])] {}).2.touched,
      Below [⟨utf8 "r".toList, by decide, by decide, by decide, by decide⟩] path := by
  refine ⟨by decide, fun h => ?_⟩
  obtain ⟨place, hplace, hpre, -⟩ :=
    h (utf8 "/.r.aaaaaaaa.agentless-mcp-staged".toList) (by decide)
  have hstarts := startsWith_render.mpr hpre
  rw [← hplace] at hstarts
  revert hstarts
  decide

theorem writeWith_below_iff_oneFile :
    containedPath oneDirectory (utf8 "/r".toList) (utf8 "a".toList) = .ok (utf8 "/r/a".toList) ∧
      ∀ os, ∀ path ∈ (writeWith (named os) (baseAt oneDirectory (utf8 "/r".toList) fun _ => [])
        [("a".toList, [])] {}).2.touched,
        Below [⟨utf8 "r".toList, by decide, by decide, by decide, by decide⟩] path := by
  have htarget : containedPath oneDirectory (utf8 "/r".toList) (utf8 "a".toList) =
      .ok (utf8 "/r/a".toList) := by
    decide
  refine ⟨htarget, (writeWith_below_iff (fun _ => []) (by decide) ?_).mpr (.inr ?_)⟩
  · intro file hfile
    obtain rfl := List.mem_singleton.mp hfile
    exact ⟨_, htarget⟩
  · decide

end Below

end Agentless.Io.Txn
