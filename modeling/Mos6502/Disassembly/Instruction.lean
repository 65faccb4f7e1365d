/-
Instructions read back from bytes.

At the head of a list of bytes there is an instruction if the first byte is a documented
opcode and enough bytes follow it.  Any other byte stands for itself as a byte of data, so
a list of bytes can always be taken apart, and putting the parts together gives it back.
-/
import Mos6502.Isa.Encoding
import Mos6502.Isa.Word
import Mos6502.Text.Hex

namespace Mos6502

/-- An instruction at its address, or a byte of data. -/
structure Instruction where
  address : UInt16
  opcode : UInt8
  /-- What the opcode does; nothing for a byte of data. -/
  operation : Option Operation
  /-- The bytes after the opcode, as many as the mode asks for. -/
  operand : List UInt8
deriving DecidableEq, Repr

namespace Instruction

/-- A byte that stands for itself. -/
def data (address : UInt16) (value : UInt8) : Instruction :=
  ⟨address, value, none, []⟩

/-- Whether this is a byte of data. -/
def isData (i : Instruction) : Bool :=
  i.operation.isNone

/-- The mnemonic, or `DCB` for data. -/
def name (i : Instruction) : Text :=
  match i.operation with
  | some op => op.mnemonic.name
  | none => ['D', 'C', 'B']

/-- The addressing mode. -/
def mode (i : Instruction) : Mode :=
  match i.operation with
  | some op => op.mode
  | none => .implicit

/-- The number of bytes that the mode asks for. -/
def size (i : Instruction) : Nat :=
  i.mode.size

/-- The bytes as they are in memory. -/
def bytes (i : Instruction) : List UInt8 :=
  i.opcode :: i.operand

/-- The operand as a number. -/
def value? (i : Instruction) : Option UInt16 :=
  match i.operand with
  | [low] => some low.toUInt16
  | [low, high] => some (wordOf low high)
  | _ => none

/-- Where a branch goes. -/
def target? (i : Instruction) : Option UInt16 :=
  match i.mode, i.operand with
  | .relative, offset :: _ => some (branchTarget i.address offset)
  | _, _ => none

/-- The instruction at the head of some bytes, the first of which is at an address. -/
def decode? (address : UInt16) : List UInt8 → Option Instruction
  | [] => none
  | opcode :: rest =>
    match decode opcode with
    | none => none
    | some op =>
      let operand := rest.take op.mode.operandLength
      if operand.length = op.mode.operandLength then some ⟨address, opcode, some op, operand⟩
      else none

/-- The instruction or the byte of data at the head of a byte and those after it. -/
def head (address : UInt16) (first : UInt8) (rest : List UInt8) : Instruction :=
  (decode? address (first :: rest)).getD (data address first)

theorem size_pos (i : Instruction) : 0 < i.size :=
  i.mode.size_pos

/-- Takes bytes apart; `done` holds what came before them. -/
def disassembleFrom (address : UInt16) (done : Array Instruction) (bytes : List UInt8) :
    Array Instruction :=
  match bytes with
  | [] => done
  | first :: rest =>
    let i := head address first rest
    disassembleFrom (address + UInt16.ofNat i.size) (done.push i) ((first :: rest).drop i.size)
termination_by bytes.length
decreasing_by
  have := (head address first rest).size_pos
  simp only [List.length_drop, List.length_cons]
  omega

/-- The instructions and bytes of data that some bytes stand for. -/
def disassemble (address : UInt16) (bytes : List UInt8) : List Instruction :=
  (disassembleFrom address #[] bytes).toList

/-! ### Taking apart one by one -/

private theorem disassembleFrom_eq (address : UInt16) (done : Array Instruction)
    (bytes : List UInt8) :
    (disassembleFrom address done bytes).toList =
      done.toList ++ (disassembleFrom address #[] bytes).toList := by
  induction hn : bytes.length using Nat.strongRecOn generalizing address done bytes with
  | _ n ih =>
    match bytes with
    | [] => simp [disassembleFrom]
    | first :: rest =>
      have hpos := (head address first rest).size_pos
      have hlt : ((first :: rest).drop (head address first rest).size).length < n := by
        rw [← hn]
        simp only [List.length_drop, List.length_cons]
        omega
      rw [disassembleFrom, disassembleFrom]
      rw [ih _ hlt _ (done.push _) _ rfl, ih _ hlt _ (#[].push _) _ rfl]
      simp

@[simp] theorem disassemble_nil (address : UInt16) : disassemble address [] = [] := by
  simp [disassemble, disassembleFrom]

/-- The first instruction, then the rest behind it. -/
theorem disassemble_cons (address : UInt16) (first : UInt8) (rest : List UInt8) :
    disassemble address (first :: rest) =
      head address first rest ::
        disassemble (address + UInt16.ofNat (head address first rest).size)
          ((first :: rest).drop (head address first rest).size) := by
  rw [disassemble, disassembleFrom, disassembleFrom_eq]
  simp [disassemble]

end Instruction

end Mos6502
