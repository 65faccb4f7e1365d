/-
Statements, and reading a line as one.

A line may carry a label and then one statement: an origin `* = address`, data
`DCB v, v, …`, or an instruction.  The operand of an instruction is kept as it was
written, less its blanks; which addressing form it has is decided when it is encoded.

A command ends at the first character that no word may hold, so the blank before an
operand that starts with such a character can be left out.
-/
import Mos6502.Isa.Mnemonic
import Mos6502.Source.Label
import Mos6502.Source.Literal
import Mos6502.Text.Blank

namespace Mos6502

/-- What a line asks for. -/
inductive Statement where
  /-- Nothing: a blank line, or a label alone. -/
  | empty
  /-- Go on at an address. -/
  | origin (address : UInt16)
  /-- Store bytes as they are. -/
  | data (bytes : List UInt8)
  /-- Store an instruction.  The operand holds no blanks. -/
  | instruction (mnemonic : Mnemonic) (operand : Text)
deriving DecidableEq, Repr

/-- A line that could be read. -/
structure Line where
  label : Option Text
  statement : Statement
deriving DecidableEq, Repr

/-- The bytes of a data statement: literals between commas, none above 255, at least
one.  Nothing between two commas is nothing. -/
def dataBytes? (operand : Text) : Option (List UInt8) :=
  let entries := ((pieces ',' operand).map trim).filter (· ≠ [])
  if entries = [] then none
  else entries.mapM fun entry => (Literal.parse? entry).bind Literal.byte?

/-- The address of an origin: hexadecimal after `$`, or decimal. -/
def originAddress? : Text → Option UInt16
  | '$' :: digits => word? 16 digits
  | digits => word? 10 digits

/-- The text after `* =`, for a text that starts with these two signs. -/
def originText? : Text → Option Text
  | '*' :: rest =>
    match trimLeft rest with
    | '=' :: value => some (trim value)
    | _ => none
  | _ => none

/-- Reads a statement from a text with no blanks in front.  There is none to read if the
text is neither an origin nor starts with a known command. -/
def Statement.parse? (text : Text) : Option Statement :=
  if text = [] then some .empty
  else match originText? text with
    | some value => (originAddress? value).map .origin
    | none =>
      let (command, rest) := splitWord text
      let operand := squeeze rest
      if sameLetters command ['d', 'c', 'b'] then (dataBytes? operand).map .data
      else (Mnemonic.ofText? command).map fun m => .instruction m operand

/-- Reads a line, or fails if it makes no sense. -/
def Line.parse? (line : Text) : Option Line :=
  let text := trim line
  match splitLabel? text with
  | some (name, rest) => (Statement.parse? (trimLeft rest)).map fun s => ⟨some name, s⟩
  | none => (Statement.parse? text).map fun s => ⟨none, s⟩

end Mos6502
