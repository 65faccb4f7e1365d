/-
Executing one instruction.

`step` takes the byte under the program counter.  It is the output pseudo-operation, or an
instruction that `execute` knows, or it cannot be executed.  In the last case only the program
counter moves, past the byte, and the state says nothing else of the attempt.

An instruction goes on from behind its opcode.  There is one handler for each mnemonic, and it
takes from there what its operand has, by the addressing mode or, where it has none, nothing.
-/
import Mos6502.Cpu.State

namespace Mos6502

/-- Why a byte could not be executed. -/
inductive Fault where
  /-- It is no documented opcode. -/
  | unknownOpcode (opcode : UInt8) (address : UInt16)
  /-- It is an instruction on interrupts, and there are none. -/
  | unimplemented (mnemonic : Mnemonic)
deriving DecidableEq, Repr

/-- A fault in words. -/
def Fault.message : Fault → String
  | unknownOpcode opcode address =>
    let place := String.ofList (hexWord address)
    s!"Address ${place} - unknown opcode ${String.ofList (hexByte opcode)}"
  | unimplemented mnemonic => s!"{String.ofList mnemonic.name}: Interrupts not implemented"

namespace Cpu

/-! ### Kinds of instructions

The opcode has been taken, and the program counter is behind it.
-/

/-- Takes an operand and does something with the address that it names. -/
def withAddress (s : Cpu) (mode : Mode) (act : Cpu → UInt16 → Cpu) : Cpu :=
  let (address, s) := s.operandAddress mode
  act s address

/-- Takes an operand and does something with the byte that it names. -/
def withValue (s : Cpu) (mode : Mode) (act : Cpu → UInt8 → Cpu) : Cpu :=
  let (value, s) := s.operandValue mode
  act s value

/-- Shifts the byte that an operand names.  The carry goes in, and what falls out becomes the
carry. -/
def shift (s : Cpu) (mode : Mode) (move : UInt8 → Bool → Shifted) : Cpu :=
  let (value, s) := s.modify mode fun s value =>
    let shifted := move value s.flags.carry
    (shifted.value, { s with flags := { s.flags with carry := shifted.carry } })
  s.result value

/-- Counts the byte that an operand names up or down. -/
def adjust (s : Cpu) (mode : Mode) (change : UInt8 → UInt8) : Cpu :=
  let (value, s) := s.modify mode fun s value => (change value, s)
  s.result value

/-- Takes an offset, and goes on that far behind it on a condition.  The offset counts from −128
to 127. -/
def branchIf (s : Cpu) (mode : Mode) (taken : Bool) : Cpu :=
  let (address, s) := s.operandAddress mode
  let offset := (s.memory.get address).toInt8.toInt16
  if taken then s.jump (s.pc + offset.toUInt16) else s

/-- Executes a known instruction. -/
def execute (s : Cpu) (op : Operation) : Cpu :=
  match op.mnemonic with
  | .adc => s.withValue op.mode fun s value =>
    s.accumulate (if s.flags.decimal then Alu.addDecimal s.a value s.flags.carry
      else Alu.add s.a value s.flags.carry)
  | .sbc => s.withValue op.mode fun s value =>
    s.accumulate (if s.flags.decimal then Alu.subtractDecimal s.a value s.flags.carry
      else Alu.subtract s.a value s.flags.carry)
  | .and => s.withValue op.mode fun s value => s.loadA (s.a &&& value)
  | .ora => s.withValue op.mode fun s value => s.loadA (s.a ||| value)
  | .eor => s.withValue op.mode fun s value => s.loadA (s.a ^^^ value)
  | .cmp => s.withValue op.mode fun s value => s.compare s.a value
  | .cpx => s.withValue op.mode fun s value => s.compare s.x value
  | .cpy => s.withValue op.mode fun s value => s.compare s.y value
  | .bit => s.withValue op.mode fun s value =>
    { s with flags := { s.flags with
        zero := s.a &&& value == 0
        negative := value &&& 0x80 != 0
        overflow := value &&& 0x40 != 0 } }
  | .asl => s.shift op.mode fun value _ => Alu.shiftLeft value
  | .lsr => s.shift op.mode fun value _ => Alu.shiftRight value
  | .rol => s.shift op.mode Alu.rotateLeft
  | .ror => s.shift op.mode Alu.rotateRight
  | .inc => s.adjust op.mode fun value => value + 1
  | .dec => s.adjust op.mode fun value => value - 1
  | .inx => s.loadX (s.x + 1)
  | .iny => s.loadY (s.y + 1)
  | .dex => s.loadX (s.x - 1)
  | .dey => s.loadY (s.y - 1)
  | .lda => s.withValue op.mode loadA
  | .ldx => s.withValue op.mode loadX
  | .ldy => s.withValue op.mode loadY
  | .sta => s.withAddress op.mode fun s address => s.store address s.a
  | .stx => s.withAddress op.mode fun s address => s.store address s.x
  | .sty => s.withAddress op.mode fun s address => s.store address s.y
  | .tax => s.loadX s.a
  | .tay => s.loadY s.a
  | .txa => s.loadA s.x
  | .tya => s.loadA s.y
  | .tsx => s.loadX s.sp
  | .txs => { s with sp := s.x }
  | .pha => s.push s.a
  | .php => s.push (s.status ||| 0x30)
  | .pla => s.drop.loadA s.top
  | .plp => s.drop.setStatus (s.top ||| 0x30)
  | .clc => { s with flags := { s.flags with carry := false } }
  | .sec => { s with flags := { s.flags with carry := true } }
  | .clv => { s with flags := { s.flags with overflow := false } }
  | .cld => { s with flags := { s.flags with decimal := false } }
  | .sed => { s with flags := { s.flags with decimal := true } }
  | .cli | .sei | .nop => s
  | .brk => s.raise .halt
  | .jmp => s.withAddress op.mode jump
  | .jsr => s.withAddress op.mode fun s address =>
    let back := s.pc - 1
    ((s.push (highByte back)).push (lowByte back)).jump address
  | .rts => s.drop.drop.jump (wordOf s.top s.drop.top + 1)
  | .rti =>
    let restored := s.drop.setStatus (s.top ||| 0x30)
    restored.drop.drop.jump (wordOf restored.top restored.drop.top)
  | .bpl => s.branchIf op.mode !s.flags.negative
  | .bmi => s.branchIf op.mode s.flags.negative
  | .bvc => s.branchIf op.mode !s.flags.overflow
  | .bvs => s.branchIf op.mode s.flags.overflow
  | .bcc => s.branchIf op.mode !s.flags.carry
  | .bcs => s.branchIf op.mode s.flags.carry
  | .bne => s.branchIf op.mode !s.flags.zero
  | .beq => s.branchIf op.mode s.flags.zero

/-- Executes the output pseudo-operation.  The byte after it chooses what to do: zero
prints the accumulator, and all others do nothing. -/
def executeOutput (s : Cpu) : Cpu :=
  let (choice, s) := s.fetchByte
  if choice = 0 then s.raise (.output s.a) else s

/-! ### One step -/

/-- Counts an executed instruction. -/
def count (s : Cpu) : Cpu :=
  { s with instructions := s.instructions + 1 }

/-- Executes the instruction under the program counter. -/
def step (s : Cpu) : Cpu × Option Fault :=
  let (opcode, behind) := s.fetchByte
  if opcode = outputOpcode then (behind.executeOutput.count, none)
  else match decode opcode with
    | none => (behind, some (.unknownOpcode opcode s.pc))
    | some op =>
      if op.mnemonic = .cli ∨ op.mnemonic = .sei then
        (behind, some (.unimplemented op.mnemonic))
      else ((behind.execute op).count, none)

/-- Executes instructions up to a number, or up to the first fault. -/
def steps : Nat → Cpu → Cpu × Option Fault
  | 0, s => (s, none)
  | n + 1, s =>
    match s.step with
    | (next, none) => steps n next
    | (next, some fault) => (next, some fault)

/-- The state after a number of steps, whatever came of them. -/
def reached : Nat → Cpu → Cpu
  | 0, s => s
  | n + 1, s => reached n s.step.1

end Cpu

end Mos6502
