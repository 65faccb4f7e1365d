/-
Bytes and words in hexadecimal.

Every printed number has a fixed count of digits, two for a byte and four for a word,
and uses small letters.
-/
import Mos6502.Text.Basic

namespace Mos6502

/-- The hexadecimal digit of a number below sixteen. -/
def hexDigit (n : Nat) : Char :=
  if n < 10 then Char.ofNat (48 + n) else Char.ofNat (87 + n)

/-- A byte as two hexadecimal digits. -/
def hexByte (b : UInt8) : Text :=
  [hexDigit (b.toNat / 16), hexDigit (b.toNat % 16)]

/-- A word as four hexadecimal digits. -/
def hexWord (w : UInt16) : Text :=
  [hexDigit (w.toNat / 4096), hexDigit (w.toNat / 256 % 16),
   hexDigit (w.toNat / 16 % 16), hexDigit (w.toNat % 16)]

/-- A byte as eight binary digits. -/
def binaryByte (b : UInt8) : Text :=
  [7, 6, 5, 4, 3, 2, 1, 0].map fun i => if b.toNat.testBit i then '1' else '0'

theorem length_hexByte (b : UInt8) : (hexByte b).length = 2 := rfl

theorem length_hexWord (w : UInt16) : (hexWord w).length = 4 := rfl

end Mos6502
