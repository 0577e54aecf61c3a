import Agentless.Library.Fallible
import Mathlib.Data.List.Range
import Mathlib.Data.Nat.Bitwise
import Mathlib.Data.Nat.Size

/-!
# The sampler of the report

The words of a Mersenne Twister, the bits and bounded values drawn from them, and the two draws of a
sample without replacement: from a pool whose last position takes the place of the drawn one, and
with a set of the positions that are drawn already.
-/

namespace Agentless.Hook

/-! ## The generator -/

namespace Twister

abbrev N : Nat := 624

def M : Nat := 397

def matrixA : UInt32 := 0x9908b0df

def upperMask : UInt32 := 0x80000000

def lowerMask : UInt32 := 0x7fffffff

end Twister

structure Twister where
  state : Vector UInt32 Twister.N
  index : Nat

namespace Twister

theorem mod_lt (i : Nat) : i % N < N := Nat.mod_lt i (by decide)

def twistAt (mt : Vector UInt32 N) (kk : Fin N) : Vector UInt32 N :=
  let y := (mt[kk] &&& upperMask) ||| (mt.get ⟨(kk + 1) % N, mod_lt _⟩ &&& lowerMask)
  let odd := if y &&& 1 = 1 then matrixA else 0
  mt.set kk (mt.get ⟨(kk + M) % N, mod_lt _⟩ ^^^ (y >>> 1) ^^^ odd)

def twist (twister : Twister) : Twister where
  state := (List.finRange N).foldl twistAt twister.state
  index := 0

def temper (y : UInt32) : UInt32 :=
  let y := y ^^^ (y >>> 11)
  let y := y ^^^ ((y <<< 7) &&& 0x9d2c5680)
  let y := y ^^^ ((y <<< 15) &&& 0xefc60000)
  y ^^^ (y >>> 18)

/-- The next word. A state whose words are all used is twisted first. -/
def nextU32 (twister : Twister) : UInt32 × Twister :=
  if h : twister.index < N then
    (temper (twister.state.get ⟨twister.index, h⟩), { twister with index := twister.index + 1 })
  else
    let twisted := twister.twist
    (temper (twisted.state.get ⟨0, by decide⟩), { twisted with index := 1 })

end Twister

/-! ## Draws -/

/-- A draw stops without a result when a loop does not end in its rounds, or at an index out of
range. -/
inductive Stop where
  | endless
  | outOfRange
  deriving DecidableEq, Repr

section Draw

variable {σ : Type} (nextU32 : σ → UInt32 × σ)

/-- The bits so far, with `left` more: 32-bit words from the least significant, the last one cut. -/
def bitsFrom (value left shift : Nat) (words : σ) : Nat × σ :=
  if left = 0 then (value, words)
  else
    let (word, words) := nextU32 words
    let taken := min left 32
    bitsFrom (value ||| (word.toNat >>> (32 - taken)) <<< shift) (left - taken) (shift + 32) words
  termination_by left
  decreasing_by omega

def bits (k : Nat) (words : σ) : Nat × σ := bitsFrom nextU32 0 k 0 words

/-- A value below `n`: draws of the bit length of `n` until one is below it. -/
def below (n : Nat) : (rounds : Nat) → σ → Except Stop (Nat × σ)
  | 0, _ => .error .endless
  | rounds + 1, words =>
    let (drawn, words) := bits nextU32 n.size words
    if drawn < n then .ok (drawn, words) else below n rounds words

/-- A pool, the positions drawn from it, and the words that are left. -/
structure Drawing (σ : Type) where
  pool : List Nat
  drawn : List Nat
  words : σ

/-- The `i`-th draw from a pool of `n`. -/
def poolDraw (rounds n : Nat) (drawing : Drawing σ) (i : Nat) : Except Stop (Drawing σ) := do
  let (j, words) ← below nextU32 (n - i) rounds drawing.words
  match drawing.pool[j]?, drawing.pool[n - i - 1]? with
  | some item, some last =>
    .ok { pool := drawing.pool.set j last, drawn := drawing.drawn ++ [item], words }
  | _, _ => .error .outOfRange

def poolSample (rounds n k : Nat) (words : σ) : Except Stop (List Nat) := do
  let drawing ← (List.range k).foldlM (poolDraw nextU32 rounds n)
    { pool := List.range n, drawn := [], words }
  return drawing.drawn

/-- Draws again while the position is selected. -/
def redraw (rounds n : Nat) (selected : List Nat) :
    (again : Nat) → Nat → σ → Except Stop (Nat × σ)
  | again, j, words =>
    if selected.contains j then
      match again with
      | 0 => .error .endless
      | again + 1 => do
        let (j, words) ← below nextU32 n rounds words
        redraw rounds n selected again j words
    else .ok (j, words)

/-- One draw from `n` besides the positions that are drawn. -/
def setDraw (rounds n : Nat) (drawn : List Nat × σ) : Except Stop (List Nat × σ) := do
  let (j, words) ← below nextU32 n rounds drawn.2
  let (j, words) ← redraw nextU32 rounds n drawn.1 rounds j words
  return (drawn.1 ++ [j], words)

def setSample (rounds n k : Nat) (words : σ) : Except Stop (List Nat) := do
  let drawn ← (List.range k).foldlM (fun drawn _ => setDraw nextU32 rounds n drawn) ([], words)
  return drawn.1

def smallSet : Nat := 21

def smallSample : Nat := 5

def maxUsize : Nat := 2 ^ 64 - 1

/-- The population size up to which the pool draw is used, from an estimate of `log4 (3 * k)`. -/
def setSize (estimate : Nat → Nat) (k : Nat) : Nat :=
  if k ≤ smallSample then smallSet
  else min (smallSet + min (4 ^ estimate k) maxUsize) maxUsize

/-- The positions of `k` items drawn without replacement from `n`, in draw order. -/
def sample (estimate : Nat → Nat) (rounds n k : Nat) (words : σ) : Except Stop (List Nat) :=
  if n ≤ setSize estimate k then poolSample nextU32 rounds n k words
  else setSample nextU32 rounds n k words

end Draw

def Twister.sample (estimate : Nat → Nat) (rounds n k : Nat) (twister : Twister) :
    Except Stop (List Nat) :=
  Hook.sample Twister.nextU32 estimate rounds n k twister

/-! ## What a draw gives -/

/-- The draw gives what it should or its loops do not end. No index is out of range. -/
def Gives {α : Type} (holds : α → Prop) : Except Stop α → Prop
  | .ok value => holds value
  | .error stop => stop = .endless

namespace Gives

variable {α β : Type} {holds : α → Prop} {draw : Except Stop α}

theorem bind {next : α → Except Stop β} {after : β → Prop} (h : Gives holds draw)
    (hnext : ∀ value, holds value → Gives after (next value)) : Gives after (draw >>= next) := by
  cases draw with
  | error stop => exact h
  | ok value => exact hnext value h

end Gives

section Exact

variable {σ : Type} {nextU32 : σ → UInt32 × σ}

/-- The drawn positions and the first ones of the pool are those below `n`, each once. -/
structure Pooled (n i : Nat) (drawing : Drawing σ) : Prop where
  length_pool : drawing.pool.length = n
  length_drawn : drawing.drawn.length = i
  perm : (drawing.drawn ++ drawing.pool.take (n - i)).Perm (List.range n)

/-- `k` distinct positions below `n`. -/
structure Distinct (n k : Nat) (drawn : List Nat) : Prop where
  length : drawn.length = k
  nodup : drawn.Nodup
  lt : ∀ position ∈ drawn, position < n

theorem Pooled.distinct {n k : Nat} {drawing : Drawing σ} (h : Pooled n k drawing) :
    Distinct n k drawing.drawn where
  length := h.length_drawn
  nodup := (h.perm.nodup_iff.mpr List.nodup_range).of_append_left
  lt _ hposition :=
    List.mem_range.mp (h.perm.subset (List.mem_append_left _ hposition))

end Exact

end Agentless.Hook
