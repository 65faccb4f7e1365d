/-
The flags, and the status byte that holds them.

Bit 5 of the byte belongs to no flag.  It reads as one, and what is written to it is lost.
-/
import Mos6502.Text.Basic

namespace Mos6502

/-- The seven flags. -/
structure Flags where
  negative : Bool
  overflow : Bool
  brk : Bool
  decimal : Bool
  interrupt : Bool
  zero : Bool
  carry : Bool
deriving DecidableEq, Repr

namespace Flags

/-- The status byte, from the highest bit down: negative, overflow, one, break, decimal,
interrupt, zero, carry. -/
def toByte (flags : Flags) : UInt8 :=
  0x20 ||| (if flags.negative then 0x80 else 0) ||| (if flags.overflow then 0x40 else 0) |||
    (if flags.brk then 0x10 else 0) ||| (if flags.decimal then 0x08 else 0) |||
    (if flags.interrupt then 0x04 else 0) ||| (if flags.zero then 0x02 else 0) |||
    (if flags.carry then 0x01 else 0)

/-- The flags in a status byte. -/
def ofByte (status : UInt8) : Flags where
  negative := status &&& 0x80 != 0
  overflow := status &&& 0x40 != 0
  brk := status &&& 0x10 != 0
  decimal := status &&& 0x08 != 0
  interrupt := status &&& 0x04 != 0
  zero := status &&& 0x02 != 0
  carry := status &&& 0x01 != 0

/-- The flags after a result: zero for a result of zero, negative for one with bit 7. -/
def ofResult (flags : Flags) (result : UInt8) : Flags :=
  { flags with negative := result &&& 0x80 != 0, zero := result == 0 }

/-- The letters of the flags that are set, in the order of the status byte. -/
def letters (flags : Flags) : Text :=
  [(flags.negative, 'N'), (flags.overflow, 'V'), (flags.brk, 'B'), (flags.decimal, 'D'),
   (flags.interrupt, 'I'), (flags.zero, 'Z'), (flags.carry, 'C')].filterMap fun f =>
    if f.1 then some f.2 else none

end Flags

end Mos6502
