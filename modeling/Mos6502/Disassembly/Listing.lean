/-
Instructions as text.

An instruction is written as the assembler reads it: the mnemonic in capitals, numbers in
hexadecimal with two or four digits, so that the width of the operand can be told, and a
branch with the address it goes to.
-/
import Mos6502.Disassembly.Instruction

namespace Mos6502

namespace Instruction

/-- A dollar sign and a byte. -/
def dollarByte (value : UInt8) : Text :=
  '$' :: hexByte value

/-- A dollar sign and a word. -/
def dollarWord (value : UInt16) : Text :=
  '$' :: hexWord value

/-- The operand as text; empty if there is none. -/
def operandText (i : Instruction) : Text :=
  if i.isData then dollarByte i.opcode
  else match i.mode, i.operand with
    | .accumulator, _ => ['A']
    | .immediate, [b] => '#' :: dollarByte b
    | .zeroPage, [b] => dollarByte b
    | .zeroPageX, [b] => dollarByte b ++ [',', 'X']
    | .zeroPageY, [b] => dollarByte b ++ [',', 'Y']
    | .relative, [b] => dollarWord (branchTarget i.address b)
    | .absolute, [l, h] => dollarWord (wordOf l h)
    | .absoluteX, [l, h] => dollarWord (wordOf l h) ++ [',', 'X']
    | .absoluteY, [l, h] => dollarWord (wordOf l h) ++ [',', 'Y']
    | .indirect, [l, h] => '(' :: dollarWord (wordOf l h) ++ [')']
    | .indirectX, [b] => '(' :: dollarByte b ++ [',', 'X', ')']
    | .indirectY, [b] => '(' :: dollarByte b ++ [')', ',', 'Y']
    | _, _ => []

/-- The instruction as text. -/
def text (i : Instruction) : Text :=
  if i.operandText = [] then i.name else i.name ++ ' ' :: i.operandText

end Instruction

/-- The heading of a listing. -/
def listingHeader : Text :=
  "Address  Hexdump   Dissassembly".toList

/-- A text filled up with blanks to a width. -/
def padRight (width : Nat) (text : Text) : Text :=
  text ++ List.replicate (width - text.length) ' '

/-- A line of a listing: the address, the bytes and the instruction. -/
def listingLine (i : Instruction) : Text :=
  Instruction.dollarWord i.address ++ List.replicate 4 ' ' ++
    padRight 10 (joinWith [' '] (i.bytes.map hexByte)) ++ i.text ++ ['\n']

/-- Instructions in three columns under a heading. -/
def listing (instructions : List Instruction) : Text :=
  listingHeader ++ '\n' :: List.replicate listingHeader.length '-' ++ '\n' ::
    instructions.flatMap listingLine

end Mos6502
