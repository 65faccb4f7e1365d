/-
Words and their two bytes.

A word lies in memory with its low byte first.  The offset of a branch is a byte that
counts from −128 to 127; `displacement` is the word to add for it, modulo 65536.
-/
namespace Mos6502

/-- The word with a low and a high byte. -/
def wordOf (low high : UInt8) : UInt16 :=
  UInt16.ofNat (256 * high.toNat + low.toNat)

/-- The low byte of a word. -/
def lowByte (w : UInt16) : UInt8 :=
  UInt8.ofNat (w.toNat % 256)

/-- The high byte of a word. -/
def highByte (w : UInt16) : UInt8 :=
  UInt8.ofNat (w.toNat / 256)

/-- The word that a branch offset adds to the address after the branch. -/
def displacement (offset : UInt8) : UInt16 :=
  if offset < 0x80 then offset.toUInt16 else offset.toUInt16 + 0xff00

/-- Where a branch at an address goes. -/
def branchTarget (address : UInt16) (offset : UInt8) : UInt16 :=
  address + 2 + displacement offset

theorem toNat_wordOf (low high : UInt8) :
    (wordOf low high).toNat = 256 * high.toNat + low.toNat := by
  have hl := low.toNat_lt
  have hh := high.toNat_lt
  rw [wordOf, UInt16.toNat_ofNat', Nat.mod_eq_of_lt (by omega)]

theorem toNat_lowByte (w : UInt16) : (lowByte w).toNat = w.toNat % 256 := by
  rw [lowByte, UInt8.toNat_ofNat', Nat.mod_eq_of_lt (by omega)]

theorem toNat_highByte (w : UInt16) : (highByte w).toNat = w.toNat / 256 := by
  have := w.toNat_lt
  rw [highByte, UInt8.toNat_ofNat', Nat.mod_eq_of_lt (by omega)]

/-- A word is made of its two bytes. -/
@[simp] theorem wordOf_lowByte_highByte (w : UInt16) : wordOf (lowByte w) (highByte w) = w := by
  apply UInt16.toNat_inj.mp
  rw [toNat_wordOf, toNat_lowByte, toNat_highByte]
  omega

@[simp] theorem lowByte_wordOf (low high : UInt8) : lowByte (wordOf low high) = low := by
  have := low.toNat_lt
  apply UInt8.toNat_inj.mp
  rw [toNat_lowByte, toNat_wordOf]
  omega

@[simp] theorem highByte_wordOf (low high : UInt8) : highByte (wordOf low high) = high := by
  have := low.toNat_lt
  apply UInt8.toNat_inj.mp
  rw [toNat_highByte, toNat_wordOf]
  omega

end Mos6502
