import Agentless.Hook.SearchGate
import Agentless.Json.WriteRead
import Agentless.Library.Sequence

/-!
# The search gate over every interleaving

Whatever the order in which the calls of any number of hook runs interleave, a marker is there exactly
when a mark of its session put it there. A check whose look at the directory does not fail denies a
search only when no mark of its session had succeeded by the time of that look, and every check that
denies has shown that a mark can succeed.
-/

namespace Agentless.Hook.Search

open Json

variable {φ : Type}

abbrev Call := Σ request : FileCall, request.Answer

abbrev Calls := Program.History FileCall.Answer

/-! ## What a run may call -/

/-- What is assumed of the digest: no two ids share one, and it is no hidden name. -/
structure Digest (sha256Hex : Bytes → Text) : Prop where
  injective : Function.Injective sha256Hex
  shown : ∀ bytes, ∃ c rest, sha256Hex bytes = c :: rest ∧ c ≠ '.'

def Hidden (name : Text) : Prop := name.head? = some '.'

section Contracts

variable (f64 : F64 φ) (sha256Hex : Bytes → Text)

def objectOf (stdin : Option Bytes) : Option (Fields φ) :=
  match parsed f64 stdin with
  | .ok (.value (.object fields)) => some fields
  | _ => none

def sessionOf (stdin : Option Bytes) : Option CodePointString :=
  (objectOf f64 stdin).bind fun fields => textField fields "session_id".toList

/-- The reason that the payload of a mark has to unlock its session. -/
def unlocksFor (stdin : Option Bytes) : Option Text :=
  (objectOf f64 stdin).bind fun fields =>
    unlockReason (asText (get fields "tool_name".toList)) (asText (operationOf fields))

/-- The marker of the session of a payload. -/
def MarkerOf (stdin : Option Bytes) (name : Text) : Prop :=
  ∃ session, sessionOf f64 stdin = some session ∧ path sha256Hex session = .ok name

/-- What a run may call: a check looks at its marker and writes its probe, and a mark writes hidden
files and renames one to the marker of its session. -/
def Allows : Job φ → FileCall → Prop
  | _, .createDir | _, .isPrivate | _, .append _ => True
  | .check _ stdin _, .stat name => MarkerOf f64 sha256Hex stdin name
  | .check gate _ _, .createNew name => name = probeName gate.pid
  | .check gate _ _, .write name _ => name = probeName gate.pid
  | .check gate _ _, .remove name => name = probeName gate.pid
  | .check _ _ _, _ => False
  | .mark _ _, .createNamed start => Hidden start
  | .mark _ _, .write name _ => Hidden name
  | .mark _ _, .remove name => Hidden name
  | .mark _ stdin, .rename source target =>
    Hidden source ∧ MarkerOf f64 sha256Hex stdin target ∧ (unlocksFor f64 stdin).isSome
  | .mark _ _, _ => False

/-- A name that the system chose starts as it was asked to. -/
def Admits : (call : FileCall) → call.Answer → Prop
  | .createNamed start, answer => ∀ name, answer = some name → start <+: name
  | _, _ => True

/-- A look that sees no marker: the directory is not one to trust, or the marker is not in it. -/
inductive Unseen (name : Text) : Call → Prop where
  | untrusted (answer : Except Unread Bool) (h : answer ≠ .ok true) : Unseen name ⟨.isPrivate, answer⟩
  | absent : Unseen name ⟨.stat name, .ok false⟩

/-- The calls that a deny rests on. -/
structure Grounds (gate : Gate φ) (stdin : Option Bytes) (name : Text) (calls : Calls) : Prop where
  marker : MarkerOf f64 sha256Hex stdin name
  looked : ∃ look ∈ calls, Unseen name look
  trusted : (⟨.isPrivate, .ok true⟩ : Call) ∈ calls
  created : (⟨.createNew (probeName gate.pid), true⟩ : Call) ∈ calls
  written : (⟨.write (probeName gate.pid) [], true⟩ : Call) ∈ calls
  removed : (⟨.remove (probeName gate.pid), some true⟩ : Call) ∈ calls

def Ends : Job φ → Calls → Nat → Prop
  | .check gate stdin _, calls, code => code = DENY → ∃ name, Grounds f64 sha256Hex gate stdin name calls
  | .mark _ _, _, _ => True

end Contracts

section Rules

variable {f64 : F64 φ} {sha256Hex : Bytes → Text} {job : Job φ} {α β : Type}

/-- The calls of a program are allowed, and its value fits the calls when there is one. -/
def Ensures (f64 : F64 φ) (sha256Hex : Bytes → Text) (job : Job φ) (post : Calls → α → Prop)
    (program : Hooked α) (calls : Calls) : Prop :=
  Program.Verified Admits (fun _ => Allows f64 sha256Hex job)
    (fun calls result => ∀ value, result = .ok value → post calls value) program calls

variable {post : Calls → β → Prop} {calls : Calls}

theorem Ensures.bind (middle : Calls → α → Prop) {program : Hooked α} {next : α → Hooked β}
    (h : Ensures f64 sha256Hex job middle program calls)
    (hnext : ∀ calls value, middle calls value → Ensures f64 sha256Hex job post (next value) calls) :
    Ensures f64 sha256Hex job post (program >>= next) calls := by
  refine Program.Verified.bind h ?_
  rintro calls (stop | value) hresult
  · exact fun value hvalue => nomatch hvalue
  · exact hnext calls value (hresult value rfl)

theorem Ensures.pure {value : β} (h : post calls value) :
    Ensures f64 sha256Hex job post (pure value) calls := by
  intro value' hvalue
  cases hvalue
  exact h

theorem Ensures.throw : Ensures f64 sha256Hex job post (throw .suppressed) calls :=
  fun _ hvalue => nomatch hvalue

theorem Ensures.known {held : Except Suppressed β} (h : ∀ value, held = .ok value → post calls value) :
    Ensures f64 sha256Hex job post (known held) calls := h

theorem Ensures.lift {program : Steps β}
    (h : Program.Verified Admits (fun _ => Allows f64 sha256Hex job) post program calls) :
    Ensures f64 sha256Hex job post (ExceptT.lift program) calls := by
  refine Program.Verified.bind h ?_
  intro calls value hvalue value' hvalue'
  cases hvalue'
  exact hvalue

theorem Ensures.mono {middle : Calls → β → Prop} {program : Hooked β}
    (h : Ensures f64 sha256Hex job middle program calls)
    (himp : ∀ calls value, middle calls value → post calls value) :
    Ensures f64 sha256Hex job post program calls :=
  Program.Verified.mono h fun calls _ hresult value hvalue =>
    himp calls value (hresult value hvalue)

end Rules

/-! ## What each part calls -/

section Parts

variable {f64 : F64 φ} {sha256Hex : Bytes → Text}

/-- A part keeps the calls before it. -/
def Extends {α : Type} (calls : Calls) : Calls → α → Prop := fun after _ => calls ⊆ after

theorem appendEntry_ensures (job : Job φ) (gate : Gate φ) (entry : Entry φ) (calls : Calls) :
    Ensures f64 sha256Hex job (Extends calls) (appendEntry f64 gate entry) calls := by
  unfold appendEntry
  split_ifs
  · refine Ensures.bind (Extends calls) (Ensures.lift ⟨by cases job <;> trivial, ?_⟩) ?_
    · intro answer _
      exact List.subset_append_left _ _
    · intro after done hafter
      cases done
      · exact Ensures.throw
      · exact Ensures.pure hafter
  · exact Ensures.pure (List.Subset.refl _)

section Check

variable {gate : Gate φ} {stdin : Option Bytes} {stderrWorks : Bool}

/-- A check looked for its marker and saw none. -/
def Unmarked (f64 : F64 φ) (sha256Hex : Bytes → Text) (stdin : Option Bytes) (name : Text)
    (calls : Calls) : Prop :=
  MarkerOf f64 sha256Hex stdin name ∧ ∃ look ∈ calls, Unseen name look

theorem existsMarker_ensures {session : CodePointString} (h : sessionOf f64 stdin = some session)
    (calls : Calls) :
    Ensures f64 sha256Hex (.check gate stdin stderrWorks)
      (fun after found => found = false → ∃ name, Unmarked f64 sha256Hex stdin name after)
      (existsMarker sha256Hex session) calls := by
  refine Ensures.bind (fun _ name => path sha256Hex session = .ok name)
    (Ensures.known fun name hname => hname) ?_
  intro before name hname
  have hmarker : MarkerOf f64 sha256Hex stdin name := ⟨session, h, hname⟩
  refine Ensures.bind (fun after found => found = false → ∃ look ∈ after, Unseen name look)
    (Ensures.lift ⟨trivial, ?_⟩) ?_
  · intro answer _ hanswer
    exact ⟨_, List.mem_append_right _ List.mem_cons_self, .untrusted answer (of_decide_eq_false hanswer)⟩
  · intro after found hunseen
    cases found
    · exact Ensures.pure fun _ => ⟨name, hmarker, hunseen rfl⟩
    · refine ⟨hmarker, fun answer _ value hvalue => ?_⟩
      rintro rfl
      refine ⟨name, hmarker, _, List.mem_append_right _ List.mem_cons_self, ?_⟩
      rw [hvalue]
      exact .absent

theorem storageReady_ensures (calls : Calls) :
    Ensures f64 sha256Hex (.check gate stdin stderrWorks) (fun after ready => calls ⊆ after ∧
        (ready = true → (⟨.isPrivate, .ok true⟩ : Call) ∈ after ∧
          (⟨.createNew (probeName gate.pid), true⟩ : Call) ∈ after ∧
          (⟨.write (probeName gate.pid) [], true⟩ : Call) ∈ after ∧
          (⟨.remove (probeName gate.pid), some true⟩ : Call) ∈ after))
      (liftM (storageReady gate.pid)) calls := by
  apply Ensures.lift
  refine ⟨trivial, fun made _ => ?_⟩
  cases made
  · exact ⟨List.subset_append_left _ _, nofun⟩
  refine ⟨trivial, fun answer _ => ?_⟩
  rcases answer with reason | _ | _
  · exact ⟨by simp, nofun⟩
  · exact ⟨by simp, nofun⟩
  refine ⟨rfl, fun created _ => ?_⟩
  cases created
  · exact ⟨by simp, nofun⟩
  refine ⟨rfl, fun written _ => ?_⟩
  cases written
  · exact ⟨by simp, nofun⟩
  refine ⟨rfl, fun removed _ => ⟨by simp, ?_⟩⟩
  simp +contextual

/-- A deny has its grounds. -/
def Grounded (f64 : F64 φ) (sha256Hex : Bytes → Text) (gate : Gate φ) (stdin : Option Bytes)
    (calls : Calls) (verdict : Verdict) : Prop :=
  verdict.denied = true → ∃ name, Grounds f64 sha256Hex gate stdin name calls

theorem grounded_allowed (reason : String) (calls : Calls) :
    Grounded f64 sha256Hex gate stdin calls (allowed reason) := nofun

/-- A search that is not marked is denied only when a marker can be written. -/
theorem denied_ensures {name : Text} {calls : Calls} (h : Unmarked f64 sha256Hex stdin name calls)
    (reason : String) :
    Ensures f64 sha256Hex (.check gate stdin stderrWorks) (Grounded f64 sha256Hex gate stdin)
      (do
        if !(← storageReady gate.pid) then return allowed "marker_storage_unavailable"
        return denied reason) calls := by
  refine Ensures.bind _ (storageReady_ensures calls) ?_
  rintro after ready ⟨hafter, hready⟩
  cases ready
  · exact Ensures.pure (grounded_allowed _ _)
  · obtain ⟨htrusted, hcreated, hwritten, hremoved⟩ := hready rfl
    obtain ⟨look, hlook, hunseen⟩ := h.2
    exact Ensures.pure fun _ =>
      ⟨name, h.1, ⟨look, hafter hlook, hunseen⟩, htrusted, hcreated, hwritten, hremoved⟩

theorem decideNative_ensures {session : CodePointString} (h : sessionOf f64 stdin = some session)
    (fields : Fields φ) (tool : Text) (calls : Calls) :
    Ensures f64 sha256Hex (.check gate stdin stderrWorks) (Grounded f64 sha256Hex gate stdin)
      (decideNative sha256Hex gate fields session tool) calls := by
  unfold decideNative
  generalize (if tool = "Glob".toList then "glob_before_structure"
    else "broad_grep_before_structure") = reason
  dsimp only
  split
  · exact Ensures.pure (grounded_allowed _ _)
  refine Ensures.bind _ (existsMarker_ensures h calls) ?_
  intro before found hfound
  cases found
  swap
  · exact Ensures.pure (grounded_allowed _ _)
  obtain ⟨name, hname⟩ := hfound rfl
  rw [if_neg Bool.false_ne_true]
  split_ifs
  · refine Ensures.bind (fun after _ => before = after) (Ensures.known fun _ _ => rfl) ?_
    rintro _ exact rfl
    cases exact
    · exact denied_ensures hname reason
    · exact Ensures.pure (grounded_allowed _ _)
  · exact denied_ensures hname reason

theorem decideShell_ensures {session : CodePointString} (h : sessionOf f64 stdin = some session)
    (fields : Fields φ) (calls : Calls) :
    Ensures f64 sha256Hex (.check gate stdin stderrWorks) (Grounded f64 sha256Hex gate stdin)
      (decideShell sha256Hex gate fields session) calls := by
  unfold decideShell
  dsimp only
  split
  · exact Ensures.pure (grounded_allowed _ _)
  refine Ensures.bind _ (existsMarker_ensures h calls) ?_
  intro before found hfound
  cases found
  swap
  · exact Ensures.pure (grounded_allowed _ _)
  obtain ⟨name, hname⟩ := hfound rfl
  refine Ensures.bind (fun after _ => before = after) (Ensures.known fun _ _ => rfl) ?_
  rintro _ cwd rfl
  refine Ensures.bind (fun after _ => before = after) (Ensures.known fun _ _ => rfl) ?_
  rintro _ broad rfl
  cases broad
  · exact Ensures.pure (grounded_allowed _ _)
  · exact denied_ensures hname _

theorem decide_ensures {fields : Fields φ} (h : objectOf f64 stdin = some fields) (calls : Calls) :
    Ensures f64 sha256Hex (.check gate stdin stderrWorks) (Grounded f64 sha256Hex gate stdin)
      (decide sha256Hex gate fields) calls := by
  unfold decide
  cases hsession : textField fields "session_id".toList with
  | none => exact Ensures.pure (grounded_allowed _ _)
  | some session =>
    have hof : sessionOf f64 stdin = some session := by rw [sessionOf, h]; exact hsession
    dsimp only
    split_ifs
    · exact Ensures.throw
    split
    · exact Ensures.pure (grounded_allowed _ _)
    split_ifs
    · exact decideShell_ensures hof fields calls
    · exact decideNative_ensures hof fields _ calls
    · exact Ensures.pure (grounded_allowed _ _)

theorem checked_ensures :
    Ensures f64 sha256Hex (.check gate stdin stderrWorks) (Grounded f64 sha256Hex gate stdin)
      (checked f64 sha256Hex gate stdin) [] := by
  unfold checked
  refine Ensures.bind (fun _ payload => parsed f64 stdin = .ok payload)
    (Ensures.known fun _ hpayload => hpayload) ?_
  intro calls payload hpayload
  split
  · rename_i fields
    have hof : objectOf f64 stdin = some fields := by rw [objectOf, hpayload]
    refine Ensures.bind _ (decide_ensures hof calls) ?_
    intro before verdict hverdict
    refine Ensures.bind _ (appendEntry_ensures _ gate _ before) ?_
    intro after _ hafter
    refine Ensures.pure fun hdenied => ?_
    obtain ⟨name, hname⟩ := hverdict hdenied
    obtain ⟨look, hlook, hunseen⟩ := hname.looked
    exact ⟨name, hname.marker, ⟨look, hafter hlook, hunseen⟩, hafter hname.trusted,
      hafter hname.created, hafter hname.written, hafter hname.removed⟩
  · refine Ensures.bind _ (appendEntry_ensures _ gate _ calls) ?_
    intro after _ _
    exact Ensures.pure (grounded_allowed _ _)

end Check

theorem gateCheck_verified (gate : Gate φ) (stdin : Option Bytes) (stderrWorks : Bool) :
    Program.Verified Admits (fun _ => Allows f64 sha256Hex (.check gate stdin stderrWorks))
      (Ends f64 sha256Hex (.check gate stdin stderrWorks))
      (gateCheck f64 sha256Hex gate stdin stderrWorks) [] := by
  refine Program.Verified.bind checked_ensures ?_
  rintro calls (stop | verdict) hverdict
  · exact fun hcode => nomatch hcode
  · intro hcode
    apply hverdict verdict rfl
    by_contra hallowed
    rw [if_neg hallowed] at hcode
    exact nomatch hcode

section Mark

variable {gate : Gate φ} {stdin : Option Bytes}

theorem hidden_siblingPrefix (name : Text) : Hidden (siblingPrefix name) := rfl

theorem Hidden.of_start {start name : Text} (h : Hidden start) (hstarts : start <+: name) :
    Hidden name := by
  obtain ⟨rest, rfl⟩ := hstarts
  cases start with
  | nil => cases h
  | cons c start => exact h

/-- A replacement writes a hidden file and renames it to the marker. -/
theorem replaceFile_verified {target : Text} (htarget : MarkerOf f64 sha256Hex stdin target)
    (hunlocks : (unlocksFor f64 stdin).isSome) (bytes : Bytes) (calls : Calls) :
    Program.Verified Admits (fun _ => Allows f64 sha256Hex (.mark gate stdin)) (fun _ _ => True)
      (replaceFile target bytes) calls := by
  refine ⟨trivial, fun made _ => ?_⟩
  cases made
  · trivial
  refine ⟨hidden_siblingPrefix target, fun created hcreated => ?_⟩
  cases created with
  | none => trivial
  | some temporary =>
    have hhidden := (hidden_siblingPrefix target).of_start (hcreated temporary rfl)
    refine ⟨hhidden, fun written _ => ?_⟩
    cases written
    · exact ⟨hhidden, fun _ _ => trivial⟩
    · refine ⟨⟨hhidden, htarget, hunlocks⟩, fun renamed _ => ?_⟩
      cases renamed
      · exact ⟨hhidden, fun _ _ => trivial⟩
      · trivial

def Anything {α : Type} : Calls → α → Prop := fun _ _ => True

theorem Ensures.orSuppressed {program : Steps Bool} {calls : Calls} {job : Job φ}
    (h : Program.Verified Admits (fun _ => Allows f64 sha256Hex job) Anything program calls) :
    Ensures f64 sha256Hex job Anything (orSuppressed program) calls := by
  refine Ensures.bind _ (Ensures.lift h) fun after done _ => ?_
  cases done
  · exact Ensures.throw
  · exact Ensures.pure trivial

theorem writeMarker_ensures {session : CodePointString} (h : sessionOf f64 stdin = some session)
    (hunlocks : (unlocksFor f64 stdin).isSome) (reason : Text) (tool : JsonValue φ) (calls : Calls) :
    Ensures f64 sha256Hex (.mark gate stdin) Anything
      (writeMarker f64 sha256Hex session reason tool) calls := by
  refine Ensures.bind _ (Ensures.orSuppressed ⟨trivial, fun _ _ => trivial⟩) fun calls _ _ => ?_
  refine Ensures.bind (fun _ name => path sha256Hex session = .ok name)
    (Ensures.known fun name hname => hname) fun calls name hname => ?_
  refine Ensures.bind _ (Ensures.orSuppressed ⟨trivial, fun _ _ => trivial⟩) fun calls _ _ => ?_
  exact Ensures.orSuppressed (replaceFile_verified ⟨session, h, hname⟩ hunlocks _ calls)

theorem marked_ensures : Ensures f64 sha256Hex (.mark gate stdin) Anything
    (marked f64 sha256Hex gate stdin) [] := by
  unfold marked
  refine Ensures.bind (fun _ payload => parsed f64 stdin = .ok payload)
    (Ensures.known fun _ hpayload => hpayload) ?_
  intro calls payload hpayload
  split
  · exact Ensures.pure trivial
  · rename_i fields
    have hfields : objectOf f64 stdin = some fields := by rw [objectOf, hpayload]
    split
    · exact Ensures.pure trivial
    · rename_i session hsession
      have hof : sessionOf f64 stdin = some session := by rw [sessionOf, hfields]; exact hsession
      dsimp only
      split_ifs
      · exact Ensures.throw
      split
      · exact (appendEntry_ensures _ gate _ calls).mono fun _ _ _ => trivial
      · rename_i reason hreason
        have hunlocks : (unlocksFor f64 stdin).isSome := by
          rw [unlocksFor, hfields]
          exact Option.isSome_of_mem hreason
        refine Ensures.bind _ (writeMarker_ensures hof hunlocks _ _ calls) fun calls _ _ => ?_
        exact (appendEntry_ensures _ gate _ calls).mono fun _ _ _ => trivial
  · exact Ensures.throw

end Mark

/-- Each run makes only the calls that it may, and a check that denies has its grounds. -/
theorem program_verified (job : Job φ) :
    Program.Verified Admits (fun _ => Allows f64 sha256Hex job) (Ends f64 sha256Hex job)
      (job.program f64 sha256Hex) [] := by
  cases job with
  | check gate stdin stderrWorks => exact gateCheck_verified gate stdin stderrWorks
  | mark gate stdin => exact Program.Verified.bind marked_ensures fun _ _ _ => trivial

end Parts

/-! ## Runs of the hooks -/

/-- Each byte as a character, after one that is no digit of a digest. -/
def spelled (bytes : Bytes) : Text := 'x' :: bytes.map fun byte => Char.ofNat byte.toNat

theorem toNat_ofNat_byte (byte : UInt8) : (Char.ofNat byte.toNat).toNat = byte.toNat := by
  have hvalid : byte.toNat.isValidChar := .inl (by have := byte.toNat_lt; omega)
  rw [Char.ofNat, dif_pos hvalid]
  rfl

theorem spelled_injective : Function.Injective spelled := by
  intro bytes bytes' h
  have hbyte : Function.Injective fun byte : UInt8 => Char.ofNat byte.toNat := by
    intro byte byte' hbyte
    have hnat := congrArg Char.toNat hbyte
    rw [toNat_ofNat_byte, toNat_ofNat_byte] at hnat
    exact UInt8.toNat_inj.mp hnat
  exact hbyte.list_map (List.cons.inj h).2

/-- The SHA-256 of the ids of two sessions. -/
def sessionDigests : List (Bytes × Text) :=
  [(utf8 ['a'], "ca978112ca1bbdcafac231b39a23dc4da786eff8147c4e72b9807785afee48bb".toList),
    (utf8 ['b'], "3e23e8160039594a33894f6564e1b1348bbd7a0088d42c4acb73eeaed59c009d".toList)]

/-- A digest without collisions that is the SHA-256 of the two ids. -/
def sampleHex (bytes : Bytes) : Text := (sessionDigests.lookup bytes).getD (spelled bytes)

theorem digest_sampleHex : Digest sampleHex where
  injective := by
    refine Sequence.lookup_getD_injective spelled_injective (by decide +kernel) ?_
    intro entry hentry bytes heq
    have hheads : ∀ entry ∈ sessionDigests, entry.2.head? ≠ some 'x' := by decide +kernel
    exact hheads entry hentry (heq ▸ rfl)
  shown bytes := by
    unfold sampleHex
    cases hfound : sessionDigests.lookup bytes with
    | none => exact ⟨'x', _, rfl, by decide⟩
    | some digest =>
      have hheads : ∀ entry ∈ sessionDigests,
          ∃ c rest, entry.2 = c :: rest ∧ c ≠ '.' := by
        simp only [sessionDigests, List.forall_mem_cons]
        exact ⟨⟨'c', _, rfl, by decide⟩, ⟨'3', _, rfl, by decide⟩, List.forall_mem_nil _⟩
      obtain ⟨before, after, hentries, -⟩ := List.lookup_eq_some_iff.mp hfound
      exact hheads (bytes, digest) (hentries ▸ List.mem_append_right before List.mem_cons_self)

def quietGate : Gate Bytes := ⟨false, none, [], 7, fun _ => .ok none, fun _ => .ok false⟩

def globPayload : Bytes := utf8 ("\x7b\"session_id\":\"a\",\"tool_name\":\"Glob\"," ++
  "\"tool_input\":\x7b\"pattern\":\"*.rs\"\x7d\x7d").toList

def mapPayload : Bytes :=
  utf8 "\x7b\"session_id\":\"a\",\"tool_name\":\"mcp__agentless__repo_map\"\x7d".toList

abbrev GateTurn := Program.Turn (Job Bytes) Choice

abbrev GateSystem := Program.System Store (Job Bytes) FileCall FileCall.Answer Nat

/-- A check looks at the directory before a mark makes it, and goes on after the mark has ended. -/
def overtaken : List GateTurn :=
  [.start (.check quietGate (some globPayload) true), .perform 0 {},
    .start (.mark quietGate (some mapPayload))] ++
    List.replicate 6 (.perform 1 { random := ['r'] }) ++ List.replicate 5 (.perform 0 {})

/-- The events of the schedule, and the system after it. -/
def overtakenRun : List (Program.Event (Job Bytes) FileCall.Answer) × GateSystem :=
  Program.play handle (Job.program literals sampleHex) overtaken ⟨{}, []⟩

theorem overtaken_runs :
    Program.Runs handle (Job.program literals sampleHex) {} overtakenRun.1 overtakenRun.2 :=
  Program.Runs.empty.play overtaken

/-- The check denies although the marker of its session is there when it ends. -/
theorem overtaken_results :
    overtakenRun.2.processes.map (fun process => process.2.result?) = [some DENY, some ALLOW] ∧
      overtakenRun.2.state.files = [markerName sampleHex ['a']] := by
  decide +kernel

/-! ## Every run -/

/-- A marker was put in place. -/
def Placed (events : List (Program.Event (Job φ) FileCall.Answer)) (name : Text) : Prop :=
  ∃ id source, .performed id ⟨.rename source name, true⟩ ∈ events

def Renames (entry : Call) (name : Text) : Prop := ∃ source, entry = ⟨.rename source name, true⟩

theorem placed_started {events : List (Program.Event (Job φ) FileCall.Answer)} {id : Nat} {job : Job φ}
    {name : Text} : Placed (events ++ [.started id job]) name ↔ Placed events name := by
  simp [Placed]

theorem placed_performed {events : List (Program.Event (Job φ) FileCall.Answer)} {id : Nat}
    {entry : Call} {name : Text} :
    Placed (events ++ [.performed id entry]) name ↔ Placed events name ∨ Renames entry name := by
  simp only [Placed, Renames, List.mem_append, List.mem_singleton, Program.Event.performed.injEq]
  constructor
  · rintro ⟨other, source, hbefore | ⟨_, hentry⟩⟩
    · exact .inl ⟨other, source, hbefore⟩
    · exact .inr ⟨source, hentry.symm⟩
  · rintro (⟨other, source, hbefore⟩ | ⟨source, hentry⟩)
    · exact ⟨other, source, .inl hbefore⟩
    · exact ⟨id, source, .inr ⟨rfl, hentry.symm⟩⟩

section Handle

variable {choice : Choice} {store : Store} {call : FileCall}

theorem admits_handle (choice : Choice) (store : Store) (call : FileCall) :
    Admits call (handle choice store call).1 := by
  cases call with
  | createNamed start =>
    intro name hname
    dsimp only [handle] at hname
    split_ifs at hname
    cases hname
    exact List.prefix_append start choice.random
  | _ => trivial

/-- An absent directory has no files. -/
def Store.Sound (store : Store) : Prop := store.present = false → store.files = []

theorem sound_empty : Store.Sound {} := fun _ => rfl

theorem sound_handle (h : store.Sound) : (handle choice store call).2.Sound := by
  cases call <;> dsimp only [handle] <;> (try split_ifs) <;> grind [Store.Sound]

/-- A directory that is there stays, and stays as private as it is. -/
theorem kept_handle (h : store.present = true) :
    (handle choice store call).2.present = true ∧
      (handle choice store call).2.isPrivate = store.isPrivate := by
  cases call <;> dsimp only [handle] <;> (try split_ifs) <;> simp [h]

/-- A privacy test that does not fail tells what the directory is. -/
theorem tested_handle {found : Bool}
    (h : (⟨call, (handle choice store call).1⟩ : Call) = ⟨.isPrivate, .ok found⟩) :
    store.present = true ∧ store.isPrivate = found := by
  cases call with
  | isPrivate =>
    obtain hanswer := eq_of_heq (Sigma.mk.inj h).2
    dsimp only [handle] at hanswer
    split_ifs at hanswer with _ hpresent
    exact ⟨hpresent, Except.ok.inj hanswer⟩
  | _ => cases congrArg Sigma.fst h

theorem hidden_probeName (pid : Nat) : Hidden (probeName pid) := rfl

theorem Allows.hidden {f64 : F64 φ} {sha256Hex : Bytes → Text} {job : Job φ} {name : Text}
    (h : Allows f64 sha256Hex job call)
    (hcall : call = .createNew name ∨ call = .createNamed name ∨ call = .remove name ∨
      ∃ target, call = .rename name target) : Hidden name := by
  rcases hcall with rfl | rfl | rfl | ⟨target, rfl⟩ <;> cases job <;>
    first | exact h.1 | exact h | exact h ▸ hidden_probeName _ | cases h

theorem mem_handle {f64 : F64 φ} {sha256Hex : Bytes → Text} {job : Job φ} {name : Text}
    (hallowed : Allows f64 sha256Hex job call) (hname : ¬Hidden name) :
    name ∈ (handle choice store call).2.files ↔
      name ∈ store.files ∨ Renames ⟨call, (handle choice store call).1⟩ name := by
  have hne : ∀ other, Hidden other → name ≠ other := fun other hother heq => hname (heq ▸ hother)
  cases call with
  | createNew other =>
    have hother := hne other (hallowed.hidden (.inl rfl))
    dsimp only [handle]
    split_ifs <;> simp [Renames, hother]
  | createNamed start =>
    have hstart := hallowed.hidden (.inr (.inl rfl))
    have hother := hne _ (hstart.of_start (List.prefix_append start choice.random))
    dsimp only [handle]
    split_ifs <;> simp [Renames, hother]
  | rename source target =>
    have hsource := hne source (hallowed.hidden (.inr (.inr (.inr ⟨target, rfl⟩))))
    dsimp only [handle]
    split_ifs <;> simp [Renames, hsource, or_comm, eq_comm]
  | remove other =>
    have hother := hne other (hallowed.hidden (.inr (.inr (.inl rfl))))
    dsimp only [handle]
    split_ifs <;> simp [Renames, hother]
  | createDir | append line =>
    dsimp only [handle]
    split_ifs <;> simp [Renames]
  | _ => simp [handle, Renames]

end Handle

section Runs

variable {f64 : F64 φ} {sha256Hex : Bytes → Text} {initial : Store}
  {events : List (Program.Event (Job φ) FileCall.Answer)}
  {system : Program.System Store (Job φ) FileCall FileCall.Answer Nat}

/-- What a privacy test found holds from then on. -/
def Tested (events : List (Program.Event (Job φ) FileCall.Answer)) (store : Store) : Prop :=
  ∀ id found, .performed id ⟨.isPrivate, .ok found⟩ ∈ events →
    store.present = true ∧ store.isPrivate = found

/-- The names that are not hidden are those that were there and those that were put in place. -/
structure Settled (initial : Store) (events : List (Program.Event (Job φ) FileCall.Answer))
    (store : Store) : Prop where
  sound : store.Sound
  tested : Tested events store
  files : ∀ name, ¬Hidden name → (name ∈ store.files ↔ name ∈ initial.files ∨ Placed events name)

theorem tested_started {store : Store} {id : Nat} {job : Job φ} (h : Tested events store) :
    Tested (events ++ [.started id job]) store := by
  intro other found htest
  exact h other found ((List.mem_append.mp htest).resolve_right (by simp))

theorem tested_performed {store : Store} {id : Nat} {call : FileCall} {choice : Choice}
    (h : Tested events store) :
    Tested (events ++ [.performed id ⟨call, (handle choice store call).1⟩])
      (handle choice store call).2 := by
  intro other found htest
  have hfound : store.present = true ∧ store.isPrivate = found := by
    rcases List.mem_append.mp htest with hbefore | hnow
    · exact h other found hbefore
    · obtain ⟨-, hentry⟩ := Program.Event.performed.inj (List.mem_singleton.mp hnow)
      exact tested_handle hentry.symm
  obtain ⟨hpresent, hprivate⟩ := @kept_handle choice _ call hfound.1
  exact ⟨hpresent, hprivate.trans hfound.2⟩

theorem settled_of_runs (hinitial : initial.Sound)
    (h : Program.Runs handle (Job.program f64 sha256Hex) initial events system) :
    Settled initial events system.state := by
  apply h.invariant admits_handle program_verified (Settled initial)
  · exact ⟨hinitial, fun _ _ htest => (nomatch htest), fun name _ => by simp [Placed]⟩
  · rintro events store id job ⟨hsound, htested, hfiles⟩
    refine ⟨hsound, tested_started htested, fun name hname => ?_⟩
    rw [hfiles name hname, placed_started]
  · rintro events store id job call choice ⟨hsound, htested, hfiles⟩ _ hallowed
    refine ⟨sound_handle hsound, tested_performed htested, fun name hname => ?_⟩
    rw [mem_handle hallowed hname, hfiles name hname, placed_performed, or_assoc]

theorem markerName_injective (hdigest : Digest sha256Hex) {text text' : Text}
    (h : markerName sha256Hex text = markerName sha256Hex text') : text = text' :=
  utf8_injective (hdigest.injective (List.append_cancel_right h))

theorem path_inj (hdigest : Digest sha256Hex) {session session' : CodePointString} {name : Text}
    (h : path sha256Hex session = .ok name) (h' : path sha256Hex session' = .ok name) :
    session = session' := by
  unfold path at h h'
  split at h
  · rename_i text htext
    split at h'
    · rename_i text' htext'
      cases h
      obtain rfl := markerName_injective hdigest (Except.ok.inj h')
      have hbytes := CodePointString.asStr_eq_some_iff.mp htext
      have hbytes' := CodePointString.asStr_eq_some_iff.mp htext'
      cases session
      cases session'
      exact congrArg CodePointString.mk (hbytes.trans hbytes'.symm)
    · cases h'
  · cases h

theorem not_hidden_path (hdigest : Digest sha256Hex) {session : CodePointString} {name : Text}
    (h : path sha256Hex session = .ok name) : ¬Hidden name := by
  unfold path at h
  split at h
  · cases h
    rename_i text _
    obtain ⟨c, rest, hname, hc⟩ := hdigest.shown (utf8 text)
    simp [Hidden, markerName, hname, hc]
  · cases h

/-- A mark of the session with a call that localizes has put its marker in place. -/
def Unlocked (f64 : F64 φ) (sha256Hex : Bytes → Text)
    (events : List (Program.Event (Job φ) FileCall.Answer)) (session : CodePointString) : Prop :=
  ∃ id gate stdin source name, .started id (.mark gate stdin) ∈ events ∧
    sessionOf f64 stdin = some session ∧ (unlocksFor f64 stdin).isSome ∧
    path sha256Hex session = .ok name ∧ .performed id ⟨.rename source name, true⟩ ∈ events

theorem placed_iff_unlocked (hdigest : Digest sha256Hex)
    (h : Program.Runs handle (Job.program f64 sha256Hex) initial events system)
    {session : CodePointString} {name : Text} (hpath : path sha256Hex session = .ok name) :
    Placed events name ↔ Unlocked f64 sha256Hex events session := by
  constructor
  · rintro ⟨id, source, hrename⟩
    obtain ⟨job, hstarted, hallowed⟩ := h.caller admits_handle program_verified hrename
    cases job with
    | check gate stdin stderrWorks => cases hallowed
    | mark gate stdin =>
      obtain ⟨_, ⟨other, hof, hother⟩, hunlocks⟩ := hallowed
      obtain rfl := path_inj hdigest hother hpath
      exact ⟨id, gate, stdin, source, name, hstarted, hof, hunlocks, hpath, hrename⟩
  · rintro ⟨id, gate, stdin, source, other, _, _, _, hother, hrename⟩
    obtain rfl : name = other := Except.ok.inj (hpath.symm.trans hother)
    exact ⟨id, source, hrename⟩

/-- The schedule puts the marker of its session in place. -/
theorem overtaken_unlocked : Unlocked literals sampleHex overtakenRun.1 ⟨utf8 ['a']⟩ := by
  have hpath : path sampleHex ⟨utf8 ['a']⟩ = .ok (markerName sampleHex ['a']) := by decide +kernel
  rw [← placed_iff_unlocked digest_sampleHex overtaken_runs hpath]
  have hfiles := (settled_of_runs sound_empty overtaken_runs).files _
    (not_hidden_path digest_sampleHex hpath)
  rw [overtaken_results.2] at hfiles
  exact (hfiles.mp (List.mem_singleton_self _)).resolve_left List.not_mem_nil

theorem overtaken_denied :
    overtakenRun.2.processes[0]? = some (.check quietGate (some globPayload) true, .done DENY) := by
  have hstarted : .started 0 (.check quietGate (some globPayload) true) ∈ overtakenRun.1 :=
    List.mem_cons_self
  obtain ⟨current, hcurrent⟩ := overtaken_runs.started_iff.mp hstarted
  have hresult := congrArg (·[0]?) overtaken_results.1
  simp only [List.getElem?_map, hcurrent, Option.map_some, List.getElem?_cons_zero] at hresult
  rw [hcurrent, Program.result?_eq_some (Option.some.inj hresult)]

/-- A session's marker is there exactly when it was there at the start or a localizing call of that
session put it there. -/
theorem marker_iff_unlocked (hdigest : Digest sha256Hex) (hinitial : initial.Sound)
    (h : Program.Runs handle (Job.program f64 sha256Hex) initial events system)
    {session : CodePointString} {name : Text} (hpath : path sha256Hex session = .ok name) :
    name ∈ system.state.files ↔ name ∈ initial.files ∨ Unlocked f64 sha256Hex events session := by
  rw [(settled_of_runs hinitial h).files name (not_hidden_path hdigest hpath),
    placed_iff_unlocked hdigest h hpath]

theorem marker_iff_unlocked_overtaken :
    Program.Runs handle (Job.program literals sampleHex) {} overtakenRun.1 overtakenRun.2 ∧
      markerName sampleHex ['a'] ∈ overtakenRun.2.state.files ∧
      Unlocked literals sampleHex overtakenRun.1 ⟨utf8 ['a']⟩ ∧
      markerName sampleHex ['b'] ∉ overtakenRun.2.state.files ∧
      ¬Unlocked literals sampleHex overtakenRun.1 ⟨utf8 ['b']⟩ := by
  have ha := marker_iff_unlocked digest_sampleHex sound_empty overtaken_runs
    (show path sampleHex ⟨utf8 ['a']⟩ = .ok (markerName sampleHex ['a']) by decide +kernel)
  have hb := marker_iff_unlocked digest_sampleHex sound_empty overtaken_runs
    (show path sampleHex ⟨utf8 ['b']⟩ = .ok (markerName sampleHex ['b']) by decide +kernel)
  rw [overtaken_results.2] at ha hb ⊢
  have hmarked : markerName sampleHex ['a'] ∈ [markerName sampleHex ['a']] := List.mem_singleton_self _
  have hunmarked : markerName sampleHex ['b'] ∉ [markerName sampleHex ['a']] := by decide +kernel
  exact ⟨overtaken_runs, hmarked, (ha.mp hmarked).resolve_left List.not_mem_nil, hunmarked,
    fun hunlocked => hunmarked (hb.mpr (.inr hunlocked))⟩

/-- A look that saw no marker, in a run whose directory was found private once, either failed or was
made while there was no marker. -/
theorem absent_of_unseen (hinitial : initial.Sound)
    (h : Program.Runs handle (Job.program f64 sha256Hex) initial events system) {id : Nat} {name : Text}
    {look : Call} (hlook : .performed id look ∈ events) (hunseen : Unseen name look)
    (htrusted : .performed id ⟨.isPrivate, .ok true⟩ ∈ events) :
    ∃ before after reached, events = before ++ .performed id look :: after ∧
      Program.Runs handle (Job.program f64 sha256Hex) initial before reached ∧
      (∃ job current, reached.processes[id]? = some (job, current)) ∧
      (look = ⟨.isPrivate, .error .failed⟩ ∨
        (look = ⟨.isPrivate, .error .missing⟩ ∨ look = ⟨.stat name, .ok false⟩) ∧
          name ∉ reached.state.files) := by
  obtain ⟨before, after, reached, choice, rfl, hreached, hprocess, hanswer⟩ := h.exists_before hlook
  refine ⟨before, after, reached, rfl, hreached, hprocess, ?_⟩
  cases hunseen with
  | absent =>
    refine .inr ⟨.inr rfl, fun hname => ?_⟩
    dsimp only [handle] at hanswer
    split_ifs at hanswer
    have habsent := (Except.ok.inj hanswer).symm
    simp [hname] at habsent
  | untrusted answer huntrusted =>
    rcases answer with (_ | _) | seen
    · refine .inr ⟨.inl rfl, ?_⟩
      dsimp only [handle] at hanswer
      split_ifs at hanswer with hfails hpresent
      · cases hanswer
      · rw [(settled_of_runs hinitial hreached).sound (Bool.eq_false_of_not_eq_true hpresent)]
        exact List.not_mem_nil
    · exact .inl rfl
    · -- the directory would be one to trust and not one to trust
      have htested := (settled_of_runs hinitial h).tested
      have hfound := (htested id seen hlook).2.symm.trans (htested id true htrusted).2
      exact absurd (hfound ▸ rfl) huntrusted

/-- A check that denies has shown that a marker can be written. It could not read the directory when it
looked for its marker, or it looked before any mark unlocked its session. -/
theorem check_denies_locked (hdigest : Digest sha256Hex) (hinitial : initial.Sound)
    (h : Program.Runs handle (Job.program f64 sha256Hex) initial events system)
    {id : Nat} {gate : Gate φ} {stdin : Option Bytes} {stderrWorks : Bool}
    (hdenied : system.processes[id]? = some (.check gate stdin stderrWorks, .done DENY)) :
    ∃ session name before look after, sessionOf f64 stdin = some session ∧
      path sha256Hex session = .ok name ∧ events = before ++ .performed id look :: after ∧
      .started id (.check gate stdin stderrWorks) ∈ before ∧
      (look = ⟨.isPrivate, .error .failed⟩ ∨
        (look = ⟨.isPrivate, .error .missing⟩ ∨ look = ⟨.stat name, .ok false⟩) ∧
          name ∉ initial.files ∧ ¬Unlocked f64 sha256Hex before session) ∧
      .performed id ⟨.createNew (probeName gate.pid), true⟩ ∈ events ∧
      .performed id ⟨.write (probeName gate.pid) [], true⟩ ∈ events ∧
      .performed id ⟨.remove (probeName gate.pid), some true⟩ ∈ events := by
  obtain ⟨name, ⟨session, hof, hpath⟩, ⟨look, hlook, hunseen⟩, htrusted, hcreated, hwritten, hremoved⟩ :=
    h.verified admits_handle program_verified hdenied rfl
  obtain ⟨before, after, reached, rfl, hreached, ⟨job, current, hprocess⟩, hseen⟩ :=
    absent_of_unseen hinitial h (Program.mem_historyOf.mp hlook) hunseen
      (Program.mem_historyOf.mp htrusted)
  have hstarted := hreached.started_iff.mpr ⟨current, hprocess⟩
  obtain ⟨current', hcurrent'⟩ := h.started_iff.mp (List.mem_append_left _ hstarted)
  obtain rfl : job = .check gate stdin stderrWorks := by
    rw [hdenied] at hcurrent'
    exact (Prod.mk.inj (Option.some.inj hcurrent')).1.symm
  rw [(settled_of_runs hinitial hreached).files name (not_hidden_path hdigest hpath),
    placed_iff_unlocked hdigest hreached hpath, not_or] at hseen
  exact ⟨session, name, before, look, after, hof, hpath, rfl, hstarted, hseen,
    Program.mem_historyOf.mp hcreated, Program.mem_historyOf.mp hwritten,
    Program.mem_historyOf.mp hremoved⟩

theorem check_denies_locked_overtaken :
    Program.Runs handle (Job.program literals sampleHex) {} overtakenRun.1 overtakenRun.2 ∧
      Unlocked literals sampleHex overtakenRun.1 ⟨utf8 ['a']⟩ ∧
      ∃ session name before look after, sessionOf literals (some globPayload) = some session ∧
        path sampleHex session = .ok name ∧
        overtakenRun.1 = before ++ .performed 0 look :: after ∧
        .started 0 (.check quietGate (some globPayload) true) ∈ before ∧
        (look = ⟨.isPrivate, .error .failed⟩ ∨
          (look = ⟨.isPrivate, .error .missing⟩ ∨ look = ⟨.stat name, .ok false⟩) ∧
            name ∉ ({} : Store).files ∧ ¬Unlocked literals sampleHex before session) ∧
        .performed 0 ⟨.createNew (probeName 7), true⟩ ∈ overtakenRun.1 ∧
        .performed 0 ⟨.write (probeName 7) [], true⟩ ∈ overtakenRun.1 ∧
        .performed 0 ⟨.remove (probeName 7), some true⟩ ∈ overtakenRun.1 := by
  exact ⟨overtaken_runs, overtaken_unlocked,
    check_denies_locked digest_sampleHex sound_empty overtaken_runs overtaken_denied⟩

end Runs

/-! ## What a check can tell -/

/-- Two stores that the check of a payload cannot tell apart. -/
structure StoresAlike (f64 : F64 φ) (sha256Hex : Bytes → Text) (gate : Gate φ) (stdin : Option Bytes)
    (store store' : Store) : Prop where
  present : store.present = store'.present
  isPrivate : store.isPrivate = store'.isPrivate
  marker : ∀ name, MarkerOf f64 sha256Hex stdin name → (name ∈ store.files ↔ name ∈ store'.files)
  probe : probeName gate.pid ∈ store.files ↔ probeName gate.pid ∈ store'.files

theorem contains_congr {names names' : List Text} {name : Text} (h : name ∈ names ↔ name ∈ names') :
    names.contains name = names'.contains name := by
  rw [Bool.eq_iff_iff, List.contains_iff_mem, List.contains_iff_mem, h]

/-- A call of a check has one answer in stores that are alike, and leaves them alike. -/
theorem StoresAlike.handle {f64 : F64 φ} {sha256Hex : Bytes → Text} {gate : Gate φ} {stdin : Option Bytes}
    {stderrWorks : Bool} {store store' : Store} (h : StoresAlike f64 sha256Hex gate stdin store store')
    {call : FileCall} (hallowed : Allows f64 sha256Hex (.check gate stdin stderrWorks) call)
    (choice : Choice) :
    (handle choice store call).1 = (handle choice store' call).1 ∧
      StoresAlike f64 sha256Hex gate stdin (handle choice store call).2 (handle choice store' call).2 := by
  obtain ⟨hpresent, hprivate, hmarker, hprobe⟩ := h
  obtain ⟨present, isPrivate, files, log⟩ := store
  obtain ⟨present', isPrivate', files', log'⟩ := store'
  obtain rfl : present = present' := hpresent
  obtain rfl : isPrivate = isPrivate' := hprivate
  cases call with
  | createDir =>
    dsimp only [Search.handle]
    split_ifs <;> exact ⟨rfl, rfl, rfl, hmarker, hprobe⟩
  | isPrivate | write name bytes => exact ⟨rfl, rfl, rfl, hmarker, hprobe⟩
  | stat name =>
    refine ⟨?_, rfl, rfl, hmarker, hprobe⟩
    dsimp only [Search.handle]
    rw [contains_congr (hmarker name hallowed)]
  | createNew name =>
    cases hallowed
    dsimp only [Search.handle]
    rw [contains_congr hprobe]
    split_ifs
    · exact ⟨rfl, rfl, rfl, hmarker, hprobe⟩
    · refine ⟨rfl, rfl, rfl, fun name hname => ?_, by simp⟩
      rw [List.mem_cons, List.mem_cons, hmarker name hname]
  | remove name =>
    cases hallowed
    dsimp only [Search.handle]
    rw [contains_congr hprobe]
    split_ifs
    · exact ⟨rfl, rfl, rfl, hmarker, hprobe⟩
    · refine ⟨rfl, rfl, rfl, fun name hname => ?_, by simp⟩
      rw [List.mem_filter, List.mem_filter, hmarker name hname]
  | append line =>
    dsimp only [Search.handle]
    split_ifs <;> exact ⟨rfl, rfl, rfl, hmarker, hprobe⟩
  | createNamed start | rename source target => cases hallowed

/-- A check has the same exit code in stores that agree on the directory, on the marker of its own
session and on its own probe. -/
theorem gateCheck_congr {f64 : F64 φ} {sha256Hex : Bytes → Text} {gate : Gate φ}
    {stdin : Option Bytes} {store store' : Store}
    (h : StoresAlike f64 sha256Hex gate stdin store store') (stderrWorks : Bool) (choices : Nat → Choice) :
    (gateCheck f64 sha256Hex gate stdin stderrWorks).run handle choices store =
      (gateCheck f64 sha256Hex gate stdin stderrWorks).run handle choices store' :=
  Program.run_congr handle admits_handle
    (fun choice _ _ _ halike hallowed => halike.handle hallowed choice)
    (gateCheck_verified gate stdin stderrWorks) choices h

/-- The marker of another session. -/
def otherMarker : Store := { present := true, files := [markerName sampleHex ['b']], log := [[]] }

theorem gateCheck_congr_otherMarker :
    StoresAlike literals sampleHex quietGate (some globPayload) { present := true } otherMarker ∧
      (gateCheck literals sampleHex quietGate (some globPayload) true).run handle (fun _ => {})
        { present := true } =
      (gateCheck literals sampleHex quietGate (some globPayload) true).run handle (fun _ => {})
        otherMarker := by
  have halike : StoresAlike literals sampleHex quietGate (some globPayload) { present := true } otherMarker := by
    refine ⟨rfl, rfl, ?_, by decide⟩
    rintro name ⟨session, hof, hpath⟩
    have ha : sessionOf literals (some globPayload) = some ⟨utf8 ['a']⟩ := by decide +kernel
    rw [ha] at hof
    obtain rfl := Option.some.inj hof
    obtain rfl : markerName sampleHex ['a'] = name := Except.ok.inj (Eq.trans (by decide +kernel) hpath)
    decide
  exact ⟨halike, gateCheck_congr halike true _⟩

end Agentless.Hook.Search
