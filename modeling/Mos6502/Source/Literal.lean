/-
Numeric literals.

A literal is a hexadecimal number after `$`, a binary number after `%`, or a decimal
number, and must fit a word.  Besides its value it carries whether it was written in
zero-page width, because that alone decides between the short and the long form of an
operand: for hexadecimal and binary the count of digits matters, for decimal the value.
-/
import Mos6502.Text.Number

namespace Mos6502

/-- A number in source text. -/
structure Literal where
  value : UInt16
  /-- Written with at most two hexadecimal or eight binary digits, or a decimal number
  of at most 255. -/
  short : Bool
deriving DecidableEq, Repr

namespace Literal

/-- Reads a whole text as a literal. -/
def parse? : Text → Option Literal
  | '$' :: digits => (word? 16 digits).map fun value => ⟨value, digits.length ≤ 2⟩
  | '%' :: digits => (word? 2 digits).map fun value => ⟨value, digits.length ≤ 8⟩
  | digits => (word? 10 digits).map fun value => ⟨value, value ≤ 0xff⟩

/-- The value as a byte, if it is one. -/
def byte? (literal : Literal) : Option UInt8 :=
  if literal.value ≤ 0xff then some literal.value.toUInt8 else none

/-- The value of a literal written in zero-page width. -/
def shortByte? (literal : Literal) : Option UInt8 :=
  if literal.short then literal.byte? else none

end Literal

end Mos6502
