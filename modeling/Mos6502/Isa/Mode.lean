/-
The addressing modes of the 6502.

A mode says how the bytes after an opcode name the operand.  All the rest of the
library needs from a mode on its own is how many of those bytes there are.
-/
namespace Mos6502

/-- How an instruction finds its operand. -/
inductive Mode where
  | implicit
  | accumulator
  | immediate
  | zeroPage
  | zeroPageX
  | zeroPageY
  | relative
  | absolute
  | absoluteX
  | absoluteY
  | indirect
  | indirectX
  | indirectY
deriving DecidableEq, Repr

namespace Mode

/-- The number of bytes that follow the opcode. -/
def operandLength : Mode → Nat
  | implicit | accumulator => 0
  | immediate | zeroPage | zeroPageX | zeroPageY | relative | indirectX | indirectY => 1
  | absolute | absoluteX | absoluteY | indirect => 2

/-- The number of bytes of a whole instruction, its opcode included. -/
def size (mode : Mode) : Nat :=
  mode.operandLength + 1

theorem operandLength_le (mode : Mode) : mode.operandLength ≤ 2 := by
  cases mode <;> decide

theorem size_pos (mode : Mode) : 0 < mode.size :=
  Nat.succ_pos _

/-- An instruction has at most three bytes. -/
theorem size_le (mode : Mode) : mode.size ≤ 3 :=
  Nat.succ_le_succ mode.operandLength_le

end Mode

end Mos6502
