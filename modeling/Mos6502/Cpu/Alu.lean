/-
Arithmetic on bytes.

Addition and subtraction take a carry and give one back, so that a row of bytes can be
added byte by byte.  Subtraction is addition of the complement, and its carry is set
when nothing was borrowed.

In decimal mode each half of a byte is a digit.  The sum of the low digits is corrected
by six when it passes nine, then the whole by sixty hexadecimal when it passes ninety-nine.
Overflow is taken from the sum before the second correction.  The rules are total: bytes
that hold no two digits have a sum too.
-/
namespace Mos6502

/-- A result with the flags that only addition and subtraction set. -/
structure Sum where
  value : UInt8
  carry : Bool
  overflow : Bool
deriving DecidableEq, Repr

/-- A shifted byte with the bit that fell out. -/
structure Shifted where
  value : UInt8
  carry : Bool
deriving DecidableEq, Repr

namespace Alu

/-- Binary addition. -/
def add (a m : UInt8) (carry : Bool) : Sum :=
  let total := a.toNat + m.toNat + carry.toNat
  let value := UInt8.ofNat total
  { value
    carry := 0xff < total
    overflow := (a ^^^ value) &&& (m ^^^ value) &&& 0x80 != 0 }

/-- Binary subtraction. -/
def subtract (a m : UInt8) (carry : Bool) : Sum :=
  add a (~~~m) carry

/-- Decimal addition. -/
def addDecimal (a m : UInt8) (carry : Bool) : Sum :=
  let low := a.toNat % 16 + m.toNat % 16 + carry.toNat
  let low := if 10 ≤ low then 16 + (low + 6) % 16 else low
  let total := low + a.toNat / 16 * 16 + m.toNat / 16 * 16
  let sameSign := (a ^^^ m) &&& 0x80 == 0
  if 0xa0 ≤ total then
    { value := UInt8.ofNat (total + 0x60), carry := true, overflow := sameSign && total < 0x180 }
  else
    { value := UInt8.ofNat total, carry := false, overflow := sameSign && 0x80 ≤ total }

/-- Decimal subtraction. -/
def subtractDecimal (a m : UInt8) (carry : Bool) : Sum :=
  let low := 15 + a.toNat % 16 + carry.toNat - m.toNat % 16
  let keeps := 16 ≤ low
  let lowDigit := if keeps then UInt8.ofNat low - 16 else UInt8.ofNat low - 6
  let high := (if keeps then 0x10 else 0) + 0xf0 + a.toNat / 16 * 16 - m.toNat / 16 * 16
  let otherSign := (a ^^^ m) &&& 0x80 != 0
  if 0x100 ≤ high then
    { value := UInt8.ofNat high + lowDigit, carry := true, overflow := otherSign && high < 0x180 }
  else
    { value := UInt8.ofNat high - 0x60 + lowDigit, carry := false
      overflow := otherSign && 0x80 ≤ high }

/-- One bit to the left; zero comes in. -/
def shiftLeft (v : UInt8) : Shifted :=
  ⟨v <<< 1, v &&& 0x80 != 0⟩

/-- One bit to the right; zero comes in. -/
def shiftRight (v : UInt8) : Shifted :=
  ⟨v >>> 1, v &&& 0x01 != 0⟩

/-- One bit to the left; the carry comes in. -/
def rotateLeft (v : UInt8) (carry : Bool) : Shifted :=
  ⟨v <<< 1 ||| (if carry then 0x01 else 0), v &&& 0x80 != 0⟩

/-- One bit to the right; the carry comes in. -/
def rotateRight (v : UInt8) (carry : Bool) : Shifted :=
  ⟨v >>> 1 ||| (if carry then 0x80 else 0), v &&& 0x01 != 0⟩

/-! ### Some sums -/

example : (addDecimal 0x58 0x46 false).value = 0x04 ∧
    (addDecimal 0x58 0x46 false).carry = true := by
  decide

example : (subtractDecimal 0x00 0x01 true).value = 0x99 ∧
    (subtractDecimal 0x00 0x01 true).carry = false := by
  decide

/-- A binary sum and its carry are the sum of the numbers. -/
theorem toNat_add (a m : UInt8) (carry : Bool) :
    (add a m carry).value.toNat + 256 * (add a m carry).carry.toNat =
      a.toNat + m.toNat + carry.toNat := by
  have ha := a.toNat_lt
  have hm := m.toNat_lt
  have hc : carry.toNat ≤ 1 := Bool.toNat_le carry
  simp only [add, UInt8.toNat_ofNat']
  by_cases h : 0xff < a.toNat + m.toNat + carry.toNat
  · rw [decide_eq_true h]
    simp only [Bool.toNat_true]
    omega
  · rw [decide_eq_false h]
    simp only [Bool.toNat_false]
    omega

end Alu

end Mos6502
