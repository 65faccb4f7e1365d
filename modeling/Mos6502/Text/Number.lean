/-
Numbers read from digits.

A number is written in base two, ten or sixteen with one or more digits and nothing
else: no sign, no separators.  Leading zeros are allowed in any amount, so the value
is computed without a bound and compared with the size of a word at the end.
-/
import Mos6502.Text.Basic

namespace Mos6502

/-- The value of a digit in the bases up to sixteen. -/
def digitValue (c : Char) : Nat :=
  if c.isDigit then c.toNat - 48
  else if 'a' ≤ c ∧ c ≤ 'f' then c.toNat - 87
  else if 'A' ≤ c ∧ c ≤ 'F' then c.toNat - 55
  else 16

/-- Whether a character is a digit of a base up to sixteen. -/
def isDigitOf (base : Nat) (c : Char) : Bool :=
  digitValue c < base

/-- The number that a row of digits denotes. -/
def denoted (base : Nat) (digits : Text) : Nat :=
  digits.foldl (fun n c => n * base + digitValue c) 0

/-- The word that a row of digits denotes: one digit at least, and a value that fits. -/
def word? (base : Nat) (digits : Text) : Option UInt16 :=
  if digits ≠ [] ∧ digits.all (isDigitOf base) ∧ denoted base digits ≤ 0xffff then
    some (UInt16.ofNat (denoted base digits))
  else none

theorem word?_eq_some_iff {base : Nat} {digits : Text} {w : UInt16} :
    word? base digits = some w ↔
      digits ≠ [] ∧ digits.all (isDigitOf base) = true ∧ denoted base digits = w.toNat := by
  unfold word?
  split
  · rename_i h
    obtain ⟨hne, hall, hle⟩ := h
    constructor
    · intro hw
      cases hw
      refine ⟨hne, hall, ?_⟩
      rw [UInt16.toNat_ofNat', Nat.mod_eq_of_lt (by omega)]
    · rintro ⟨-, -, hw⟩
      rw [hw, UInt16.ofNat_toNat]
  · rename_i h
    constructor
    · intro hw
      cases hw
    · rintro ⟨hne, hall, hw⟩
      have := w.toNat_lt
      exact absurd ⟨hne, hall, by omega⟩ h

end Mos6502
