import Agentless.Library.Utf8Read
import Agentless.Text.Quoted

/-!
# Decoding a file

The bytes of a file as UTF-8 text, or the span of the first sequence that is not UTF-8 and why it is
bad.
-/

namespace Agentless.Io.Decode

inductive Utf8Reason where
  | invalidStart | invalidContinuation | unexpectedEnd
deriving DecidableEq, Repr

def Utf8Reason.text : Utf8Reason → Text
  | invalidStart => "invalid start byte".toList
  | invalidContinuation => "invalid continuation byte".toList
  | unexpectedEnd => "unexpected end of data".toList

structure NotUtf8 where
  start : Nat
  stop : Nat
  reason : Utf8Reason
deriving DecidableEq, Repr

/-- The length of the bad sequence at the front: the beginning of a character as far as it goes. -/
def badLength (bytes : Bytes) : Nat :=
  if unfinished (bytes.take 3) then (bytes.take 3).length
  else if unfinished (bytes.take 2) then (bytes.take 2).length
  else 1

def notUtf8 (bytes : Bytes) : NotUtf8 :=
  let bad := (readUtf8 bytes).rest
  let start := bytes.length - bad.length
  if unfinished bad then ⟨start, bytes.length, .unexpectedEnd⟩
  else
    ⟨start, start + badLength bad,
      if bad.head?.any fun byte => 0xc2 ≤ byte && byte ≤ 0xf4 then .invalidContinuation
      else .invalidStart⟩

/-- One bad byte, or the span of a longer bad sequence. -/
def codecText (bytes : Bytes) (error : NotUtf8) : Text :=
  if error.stop = error.start + 1 then
    "'utf-8' codec can't decode byte 0x".toList ++
      CodePointString.hex 2 (bytes.getD error.start 0).toNat ++ " in position ".toList ++
      Nat.toDigits 10 error.start ++ ": ".toList ++ error.reason.text
  else
    "'utf-8' codec can't decode bytes in position ".toList ++ Nat.toDigits 10 error.start ++
      "-".toList ++ Nat.toDigits 10 (error.stop - 1) ++ ": ".toList ++ error.reason.text

def decodeStrict (bytes : Bytes) : Except NotUtf8 Text :=
  let read := readUtf8 bytes
  if read.rest = [] then .ok read.text else .error (notUtf8 bytes)

theorem decodeStrict_bad {bytes : Bytes} (h : (readUtf8 bytes).rest ≠ []) :
    decodeStrict bytes = .error (notUtf8 bytes) := by
  simp [decodeStrict, h]

end Agentless.Io.Decode
