import Agentless.Library.Machine

/-!
# The captured tail of a test run

A test command writes into an unlinked file at the offset that it and its children share. While it
runs, the runner empties the file when it has grown past a ceiling; the next write then lands past
a hole of NUL bytes. At the end the runner reads the last bytes and strips the hole.
-/

namespace Agentless.Io.TestRun

open Machine

/-- How many times the cap a capture file may hold before the runner empties it. -/
def captureSlack : Nat := 8

def ceilingOf (maxCapture : Nat) : Nat := min (2 ^ 64 - 1) (max maxCapture 1 * captureSlack)

/-- The file, the offset that its writers share, the hole of the runner's last trim, and the size
that it read when it is about to empty the file. -/
structure Capture where
  file : Bytes
  offset : Nat
  hole : Nat
  sized : Option Nat
deriving DecidableEq, Repr

def initial : Capture := ⟨[], 0, 0, none⟩

/-- A write at an offset; what lies between the end of the file and the offset reads as NUL. -/
def writeAt (file : Bytes) (offset : Nat) (bytes : Bytes) : Bytes :=
  if bytes = [] then file
  else file.take offset ++ List.replicate (offset - file.length) 0 ++ bytes ++
    file.drop (offset + bytes.length)

/-- A write of the child, or one of the two parts of a trim. -/
inductive Step where
  | write (bytes : Bytes) (free : 0 ∉ bytes)
  | size
  | empty

/-- A trim reads the size, and empties the file when the bytes past the hole exceed the ceiling. The
child can write in between. -/
def step (ceiling : Nat) (capture : Capture) : Step → Option Capture
  | .write bytes _ => some { capture with
      file := writeAt capture.file capture.offset bytes
      offset := capture.offset + bytes.length }
  | .size =>
    if capture.sized.isSome then none
    else if capture.file.length - capture.hole ≤ ceiling then some capture
    else some { capture with sized := some capture.file.length }
  | .empty => capture.sized.map fun size => { capture with file := [], hole := size, sized := none }

/-- The last `limit` bytes of the file without leading NUL bytes, and the count that the marker
gives when there is one. -/
def tailParts (limit : Nat) (file : Bytes) : Option Nat × Bytes :=
  if file.length = 0 then (none, [])
  else
    let start := file.length - limit
    let live := (file.drop start).dropWhile (· == 0)
    if start = 0 then (none, live) else (some start, live)

/-- The text of the tail, where `fromUtf8Lossy` decodes its bytes. -/
def tail (fromUtf8Lossy : Bytes → Text) (limit : Nat) (file : Bytes) : Text :=
  match tailParts limit file with
  | (none, live) => fromUtf8Lossy live
  | (some start, live) => "[... ".toList ++ Nat.toDigits 10 start ++
    " earlier bytes dropped ...]\n".toList ++ fromUtf8Lossy live

/-! ## What was written -/

/-- The bytes written before the file was last emptied, and those written since. -/
def parted : List Step → Bytes × Bytes :=
  List.foldl (fun (lost, kept) step =>
    match step with
    | .write bytes _ => (lost, kept ++ bytes)
    | .size => (lost, kept)
    | .empty => (lost ++ kept, [])) ([], [])

def lost (steps : List Step) : Bytes := (parted steps).1

def kept (steps : List Step) : Bytes := (parted steps).2

def written (steps : List Step) : Bytes := lost steps ++ kept steps

/-- A tail is honest when it shows the end of what was written, within the limit, and its marker
counts exactly the bytes it does not show. -/
def Honest (limit : Nat) (written : Bytes) (shown : Option Nat × Bytes) : Prop :=
  ∃ dropped, written = dropped ++ shown.2 ∧ shown.2.length ≤ limit ∧
    shown.1 = if dropped = [] then none else some dropped.length

variable {ceiling limit : Nat} {capture : Capture} {steps : List Step}

@[simp] theorem lost_write (steps : List Step) (bytes : Bytes) (free : 0 ∉ bytes) :
    lost (steps ++ [.write bytes free]) = lost steps := by
  simp [lost, parted]

@[simp] theorem kept_write (steps : List Step) (bytes : Bytes) (free : 0 ∉ bytes) :
    kept (steps ++ [.write bytes free]) = kept steps ++ bytes := by
  simp [kept, parted]

@[simp] theorem lost_size (steps : List Step) : lost (steps ++ [.size]) = lost steps := by
  simp [lost, parted]

@[simp] theorem kept_size (steps : List Step) : kept (steps ++ [.size]) = kept steps := by
  simp [kept, parted]

@[simp] theorem lost_empty (steps : List Step) : lost (steps ++ [.empty]) = written steps := by
  simp [lost, written, kept, parted]

@[simp] theorem kept_empty (steps : List Step) : kept (steps ++ [.empty]) = [] := by
  simp [kept, parted]

theorem nul_notMem_kept (steps : List Step) : 0 ∉ kept steps := by
  induction steps using List.reverseRecOn with
  | nil => exact List.not_mem_nil
  | append_singleton steps last ih =>
    cases last with
    | write bytes free =>
      rw [kept_write]
      exact fun hmem => (List.mem_append.mp hmem).elim ih free
    | size => rwa [kept_size]
    | empty => simp

/-- What a file holds after it was emptied at an offset and more was written from there. -/
def heldAt (offset : Nat) (since : Bytes) : Bytes :=
  if since = [] then [] else List.replicate offset 0 ++ since

theorem writeAt_heldAt (offset : Nat) (since bytes : Bytes) :
    writeAt (heldAt offset since) (offset + since.length) bytes =
      heldAt offset (since ++ bytes) := by
  rw [writeAt]
  split_ifs with hbytes
  · rw [hbytes, List.append_nil]
  · have hafter : since ++ bytes ≠ [] := fun happend => hbytes (List.append_eq_nil_iff.mp happend).2
    rw [heldAt, heldAt, if_neg hafter]
    by_cases hsince : since = []
    · -- the first write since then: the hole opens in front of it
      simp [hsince]
    · -- a further write: it lands at the end of the file
      have hlength : (List.replicate offset (0 : UInt8) ++ since).length = offset + since.length := by
        simp
      rw [if_neg hsince, ← hlength, List.take_length, Nat.sub_self,
        List.drop_eq_nil_of_le (Nat.le_add_right ..)]
      simp

/-- The file holds a hole for what is lost, and what was written since it was last emptied. -/
theorem file_of_run (h : run (step ceiling) initial steps = some capture) :
    capture.file = heldAt (lost steps).length (kept steps) ∧
      capture.offset = (lost steps).length + (kept steps).length := by
  refine run_induction (fun steps capture =>
    capture.file = heldAt (lost steps).length (kept steps) ∧
      capture.offset = (lost steps).length + (kept steps).length) ⟨rfl, rfl⟩ ?_ h
  intro steps between last after _ hbetween hstep
  obtain ⟨hfile, hoffset⟩ := hbetween
  cases last with
  | write bytes free =>
    cases hstep
    rw [lost_write, kept_write, hfile, hoffset, List.length_append]
    exact ⟨writeAt_heldAt _ _ _, Nat.add_assoc _ _ _⟩
  | size =>
    rw [lost_size, kept_size]
    simp only [step] at hstep
    split at hstep
    · cases hstep
    · split at hstep <;> cases hstep <;> exact ⟨hfile, hoffset⟩
  | empty =>
    obtain ⟨size, -, rfl⟩ := Option.map_eq_some_iff.mp hstep
    rw [lost_empty, kept_empty]
    exact ⟨rfl, by simpa [written] using hoffset⟩

/-- The window opens in what was written since, or in the hole before it, which is stripped. -/
theorem tailParts_heldAt (offset : Nat) {since : Bytes} (hsince : since ≠ []) (hfree : 0 ∉ since) :
    tailParts limit (heldAt offset since) =
      let start := offset + since.length - limit
      (if start = 0 then none else some start, since.drop (start - offset)) := by
  have hlive (start : Nat) : ((List.replicate offset (0 : UInt8) ++ since).drop start).dropWhile
      (· == 0) = since.drop (start - offset) := by
    have hhead : (since.drop (start - offset)).dropWhile (· == 0) = since.drop (start - offset) := by
      refine List.dropWhile_eq_self_iff.mpr fun hlt hzero => hfree ?_
      exact List.mem_of_mem_drop (eq_of_beq hzero ▸ List.getElem_mem hlt)
    rw [List.drop_append, List.length_replicate, List.drop_replicate, List.dropWhile_append,
      List.dropWhile_replicate]
    simpa using hhead
  have hlength : (List.replicate offset (0 : UInt8) ++ since).length = offset + since.length := by
    simp
  have hpos : 0 < since.length := List.length_pos_iff.mpr hsince
  rw [heldAt, if_neg hsince, tailParts, hlength, if_neg (by omega)]
  simp only [hlive]
  split_ifs <;> rfl

theorem honest_heldAt_iff {before since : Bytes} (hfree : 0 ∉ since) :
    Honest limit (before ++ since) (tailParts limit (heldAt before.length since)) ↔
      before = [] ∨ since ≠ [] ∧ limit ≤ since.length := by
  by_cases hsince : since = []
  · subst hsince
    constructor
    · rintro ⟨dropped, hdropped, -, hmarked⟩
      obtain rfl : dropped = before := by simpa [tailParts, heldAt] using hdropped.symm
      refine .inl (by_contra fun hbefore => ?_)
      rw [if_neg hbefore] at hmarked
      cases hmarked
    · rintro (rfl | ⟨hne, -⟩)
      · exact ⟨[], rfl, Nat.zero_le _, rfl⟩
      · exact absurd rfl hne
  · rw [tailParts_heldAt _ hsince hfree]
    set start := before.length + since.length - limit with hstart
    have hsplit : before ++ since =
        (before ++ since.take (start - before.length)) ++ since.drop (start - before.length) := by
      rw [List.append_assoc, List.take_append_drop]
    have hlength : (before ++ since.take (start - before.length)).length =
        max before.length start := by
      rw [List.length_append, List.length_take]
      omega
    have hnil : before ++ since.take (start - before.length) = [] ↔
        max before.length start = 0 := by
      rw [← hlength, List.length_eq_zero_iff]
    have hmarked (marked : Option Nat) : Honest limit (before ++ since)
        (marked, since.drop (start - before.length)) ↔
          marked = if max before.length start = 0 then none
            else some (max before.length start) := by
      constructor
      · rintro ⟨dropped, hdropped, -, hcount⟩
        obtain rfl := List.append_cancel_right (hdropped.symm.trans hsplit)
        simpa only [hnil, hlength] using hcount
      · intro hcount
        refine ⟨_, hsplit, ?_, by simpa only [hnil, hlength] using hcount⟩
        rw [List.length_drop]
        omega
    have hbefore : before = [] ↔ before.length = 0 := List.length_eq_zero_iff.symm
    have hpos : 0 < since.length := List.length_pos_iff.mpr hsince
    simp only [hmarked, hbefore, ne_eq, hsince, not_false_eq_true, true_and]
    grind

/-- After a run, the tail is honest exactly when the runner never threw bytes away, or the child has
since written as much as the tail shows. -/
theorem tail_honest_iff (h : run (step (ceilingOf limit)) initial steps = some capture) :
    Honest limit (written steps) (tailParts limit capture.file) ↔
      lost steps = [] ∨ kept steps ≠ [] ∧ limit ≤ (kept steps).length := by
  rw [(file_of_run h).1]
  exact honest_heldAt_iff (nul_notMem_kept steps)

/-! A child writes nine bytes where the tail shows one, the runner empties the file, and the child
ends: the tail says nothing of what it wrote. -/
namespace LateTrim

def nineBytes : List Step := [.write (List.replicate 9 65) (by decide), .size, .empty]

def emptied : Capture := ⟨[], 9, 9, none⟩

theorem tail_not_honest : run (step (ceilingOf 1)) initial nineBytes = some emptied ∧
    tailParts 1 emptied.file = (none, []) ∧
    ¬ Honest 1 (written nineBytes) (tailParts 1 emptied.file) := by
  refine ⟨by decide, by decide, ?_⟩
  rintro ⟨dropped, hdropped, -, hmarked⟩
  have hnil : dropped = [] := by_contra fun hne => by
    rw [if_neg hne] at hmarked
    cases hmarked
  rw [hnil] at hdropped
  exact absurd hdropped (by decide)

theorem tail_honest_iff_nineBytes :
    Honest 1 (written nineBytes) (tailParts 1 emptied.file) ↔
      lost nineBytes = [] ∨ kept nineBytes ≠ [] ∧ 1 ≤ (kept nineBytes).length :=
  tail_honest_iff (by decide)

end LateTrim

end Agentless.Io.TestRun
