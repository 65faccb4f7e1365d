/-
Encoding one line.

The operand of an instruction is tried against the columns of its mnemonic, and the first
that it fits gives the opcode.  Lines are encoded twice.  When they are *sized*, labels
further down are not known yet: an unknown name gets a filler, and the distance of a
branch does not matter.  When they are *emitted*, every name must be known and every branch
must reach.  Whether an operand fits a column, and so how long the instruction is, comes
out the same both times.
-/
import Mos6502.Assembly.Error
import Mos6502.Assembly.Label
import Mos6502.Isa.Encoding
import Mos6502.Isa.Word
import Mos6502.Source.Statement

namespace Mos6502

/-- What lines are encoded for. -/
inductive Pass where
  | size
  | emit
deriving DecidableEq, Repr

/-- The address that stands in for a name that is not known yet. -/
def fillerAddress : UInt16 := 0xffff

namespace Operand

/-- The operand of a zero-page form. -/
def short? (operand : Text) : Option UInt8 :=
  (Literal.parse? operand).bind Literal.shortByte?

/-- The operand of an immediate form: a literal byte, or the low or the high byte of a
label.  An unknown label counts as zero. -/
def immediate? (labels : Labels) : Text → Option UInt8
  | '#' :: '<' :: name =>
    if isIdentifier name then some (lowByte ((labels.address? name).getD 0)) else none
  | '#' :: '>' :: name =>
    if isIdentifier name then some (highByte ((labels.address? name).getD 0)) else none
  | '#' :: value => (Literal.parse? value).bind Literal.byte?
  | _ => none

/-- An address: any literal, or a label. -/
def address? (labels : Labels) (pass : Pass) (operand : Text) : Option UInt16 :=
  match Literal.parse? operand with
  | some literal => some literal.value
  | none =>
    if isIdentifier operand then
      match labels.address? operand, pass with
      | some address, _ => some address
      | none, .size => some fillerAddress
      | none, .emit => none
    else none

/-- What is indexed: the operand without a comma and the register at its end. -/
def indexed? (register : Char) (operand : Text) : Option Text :=
  match operand.reverse with
  | r :: ',' :: base => if r.toLower = register then some base.reverse else none
  | _ => none

/-- What is between a bracket at the front and one at the end. -/
def bracketed? : Text → Option Text
  | '(' :: rest =>
    match rest.reverse with
    | ')' :: inner => some inner.reverse
    | _ => none
  | _ => none

/-- The two bytes of an address. -/
def wordBytes (w : UInt16) : List UInt8 :=
  [lowByte w, highByte w]

/-- How far a branch at an address has to go, from the instruction after it. -/
def distance (pc target : UInt16) : Int :=
  (target.toNat : Int) - ((pc.toNat : Int) + 2)

/-- The offset of a branch at an address to a target. -/
def offset (pc target : UInt16) : Except LineError (List UInt8) :=
  if -128 ≤ distance pc target ∧ distance pc target ≤ 127 then
    .ok [UInt8.ofInt (distance pc target)]
  else .error .branchRange

/-- The bytes of an operand in a column, if it fits. -/
def encode? (labels : Labels) (pass : Pass) (pc : UInt16) (operand : Text) :
    Column → Option (Except LineError (List UInt8))
  | .single => if operand = [] ∨ sameLetters operand ['a'] then some (.ok []) else none
  | .immediate => (immediate? labels operand).map fun b => .ok [b]
  | .zeroPage => (short? operand).map fun b => .ok [b]
  | .zeroPageX => ((indexed? 'x' operand).bind short?).map fun b => .ok [b]
  | .zeroPageY => ((indexed? 'y' operand).bind short?).map fun b => .ok [b]
  | .absolute => (address? labels pass operand).map fun w => .ok (wordBytes w)
  | .absoluteX =>
    ((indexed? 'x' operand).bind (address? labels pass)).map fun w => .ok (wordBytes w)
  | .absoluteY =>
    ((indexed? 'y' operand).bind (address? labels pass)).map fun w => .ok (wordBytes w)
  | .indirect =>
    ((bracketed? operand).bind (address? labels pass)).map fun w => .ok (wordBytes w)
  | .indirectX =>
    (((bracketed? operand).bind (indexed? 'x')).bind short?).map fun b => .ok [b]
  | .indirectY =>
    (((indexed? 'y' operand).bind bracketed?).bind short?).map fun b => .ok [b]
  | .branch => (address? labels pass operand).map fun target =>
    match pass with
    | .size => .ok [0]
    | .emit => offset pc target

end Operand

/-- The bytes of an instruction in one of its columns, if it has the column and the operand
fits. -/
def Mnemonic.encodeAs? (m : Mnemonic) (labels : Labels) (pass : Pass) (pc : UInt16)
    (operand : Text) (column : Column) : Option (Except LineError (List UInt8)) :=
  match m.opcode? column with
  | none => none
  | some opcode =>
    (Operand.encode? labels pass pc operand column).map fun bytes => bytes.map (opcode :: ·)

/-- The bytes of an instruction at an address. -/
def Mnemonic.encode (m : Mnemonic) (labels : Labels) (pass : Pass) (pc : UInt16)
    (operand : Text) : Except LineError (List UInt8) :=
  match Column.tried.findSome? (m.encodeAs? labels pass pc operand) with
  | some bytes => bytes
  | none => .error .malformed

/-- What a line does to the assembled program. -/
inductive Effect where
  | nothing
  /-- Goes on at an address. -/
  | origin (address : UInt16)
  /-- Adds bytes. -/
  | bytes (bytes : List UInt8)
deriving DecidableEq, Repr

/-- The effect of a statement at an address. -/
def Statement.effect (labels : Labels) (pass : Pass) (pc : UInt16) :
    Statement → Except LineError Effect
  | .empty => .ok .nothing
  | .origin address => .ok (.origin address)
  | .data bytes => .ok (.bytes bytes)
  | .instruction m operand => (m.encode labels pass pc operand).map .bytes

/-- The address after a line. -/
def Effect.next (pc : UInt16) : Effect → UInt16
  | .nothing => pc
  | .origin address => address
  | .bytes bs => pc + UInt16.ofNat bs.length

end Mos6502
