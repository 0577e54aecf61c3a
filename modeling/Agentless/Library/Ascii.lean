import Agentless.Library.Text

/-!
# ASCII bytes by name

The bytes that the readers of UTF-8 text match on. Every byte of a character past U+007F is at
least 0x80, so none of these is part of another character.
-/

namespace Agentless.Ascii

abbrev tab : UInt8 := 0x09
abbrev newline : UInt8 := 0x0a
abbrev carriageReturn : UInt8 := 0x0d
abbrev space : UInt8 := 0x20
abbrev quote : UInt8 := 0x22
abbrev plus : UInt8 := 0x2b
abbrev comma : UInt8 := 0x2c
abbrev minus : UInt8 := 0x2d
abbrev point : UInt8 := 0x2e
abbrev slash : UInt8 := 0x2f
abbrev zero : UInt8 := 0x30
abbrev colon : UInt8 := 0x3a
abbrev upperE : UInt8 := 0x45
abbrev leftBracket : UInt8 := 0x5b
abbrev backslash : UInt8 := 0x5c
abbrev rightBracket : UInt8 := 0x5d
abbrev lowerB : UInt8 := 0x62
abbrev lowerE : UInt8 := 0x65
abbrev lowerF : UInt8 := 0x66
abbrev lowerN : UInt8 := 0x6e
abbrev lowerR : UInt8 := 0x72
abbrev lowerT : UInt8 := 0x74
abbrev lowerU : UInt8 := 0x75
abbrev leftBrace : UInt8 := 0x7b
abbrev rightBrace : UInt8 := 0x7d

def isDigit (byte : UInt8) : Bool := 0x30 ≤ byte && byte ≤ 0x39

/-- The value of a hexadecimal digit of either case. -/
def hexValue (byte : UInt8) : Option Nat :=
  if isDigit byte then some (byte.toNat - 0x30)
  else if 0x61 ≤ byte && byte ≤ 0x66 then some (byte.toNat - 0x61 + 10)
  else if 0x41 ≤ byte && byte ≤ 0x46 then some (byte.toNat - 0x41 + 10)
  else none

end Agentless.Ascii
