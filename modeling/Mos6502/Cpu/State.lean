/-
The state of the processor, and what its instructions are made of.

An instruction takes the bytes of its operand itself, and the program counter moves past each byte
that is taken.  So how long an instruction is comes out of what it takes, and is no number that is
looked up.  The stack fills page one downwards; its pointer wraps, which raises a signal but does
no harm.
-/
import Mos6502.Cpu.Alu
import Mos6502.Cpu.Flags
import Mos6502.Isa.Encoding
import Mos6502.Memory.Basic

namespace Mos6502

/-- What a program does that the outside takes notice of. -/
inductive Signal where
  /-- A break was executed. -/
  | halt
  /-- The accumulator was printed. -/
  | output (value : UInt8)
  /-- A push wrapped the stack pointer from `$00` to `$FF`. -/
  | filled
  /-- A pull wrapped the stack pointer from `$FF` to `$00`. -/
  | emptied
deriving DecidableEq, Repr

/-- The processor with its memory. -/
structure Cpu where
  a : UInt8
  x : UInt8
  y : UInt8
  /-- The address of the next instruction. -/
  pc : UInt16
  /-- The place in page one where the next byte is pushed. -/
  sp : UInt8
  flags : Flags
  /-- How many instructions were executed since the last reset. -/
  instructions : Nat
  /-- Signals that nobody has taken yet, the earliest first. -/
  signals : List Signal
  memory : Memory

/-- The registers as numbers. -/
structure Registers where
  a : UInt8
  x : UInt8
  y : UInt8
  p : UInt8
  pc : UInt16
  sp : UInt8
deriving DecidableEq, Repr

namespace Registers

/-- The registers after a reset. -/
def initial : Registers where
  a := 0
  x := 0
  y := 0
  p := 0x30
  pc := startAddress
  sp := 0xff

/-- Whether all registers are as after a reset. -/
def isInitial (registers : Registers) : Bool :=
  registers == initial

/-- The registers in four lines, as a panel shows them. -/
def panel (r : Registers) : Text :=
  joinWith ['\n']
    ["A=$".toList ++ hexByte r.a ++ " X=$".toList ++ hexByte r.x ++ " Y=$".toList ++ hexByte r.y,
     "SP=$".toList ++ hexByte r.sp ++ " PC=$".toList ++ hexWord r.pc,
     "NV-BDIZC".toList,
     binaryByte r.p]

end Registers

namespace Cpu

/-! ### Starting and looking -/

/-- A processor with initial registers over a memory. -/
def ofMemory (memory : Memory) : Cpu where
  a := 0
  x := 0
  y := 0
  pc := startAddress
  sp := 0xff
  flags := Flags.ofByte 0x30
  instructions := 0
  signals := []
  memory

/-- Puts everything but the memory back to its initial value. -/
def reset (s : Cpu) : Cpu :=
  ofMemory s.memory

/-- The status byte. -/
def status (s : Cpu) : UInt8 :=
  s.flags.toByte

/-- The registers as numbers. -/
def registers (s : Cpu) : Registers :=
  ⟨s.a, s.x, s.y, s.status, s.pc, s.sp⟩

/-- The same state after its signals were taken. -/
def clearSignals (s : Cpu) : Cpu :=
  { s with signals := [] }

/-- Changes the memory. -/
def mapMemory (f : Memory → Memory) (s : Cpu) : Cpu :=
  { s with memory := f s.memory }

/-- A processor in short. -/
def summary (s : Cpu) : String :=
  "CPU \x7b a: " ++ toString s.a ++ ", x: " ++ toString s.x ++ ", y: " ++ toString s.y ++
    ", pc: " ++ toString s.pc ++ ", sp: " ++ toString s.sp ++ ", p: " ++ toString s.status ++
    ", .. \x7d"

/-- Goes to an address. -/
def jump (s : Cpu) (address : UInt16) : Cpu :=
  { s with pc := address }

/-! ### Taking bytes

What is taken comes with the state behind it.
-/

/-- The byte under the program counter. -/
def fetchByte (s : Cpu) : UInt8 × Cpu :=
  (s.memory.get s.pc, s.jump (s.pc + 1))

/-- The word under the program counter. -/
def fetchWord (s : Cpu) : UInt16 × Cpu :=
  let (low, s) := s.fetchByte
  let (high, s) := s.fetchByte
  (wordOf low high, s)

/-- A word in page zero; the byte after `$FF` is at `$00`. -/
def zeroPageWord (s : Cpu) (at_ : UInt8) : UInt16 :=
  wordOf (s.memory.get at_.toUInt16) (s.memory.get (at_ + 1).toUInt16)

/-- Takes an operand and gives the address that it names.  Indexing in page zero stays there. -/
def operandAddress (s : Cpu) : Mode → UInt16 × Cpu
  | .implicit | .accumulator => (s.pc, s)
  | .immediate | .relative => (s.pc, s.jump (s.pc + 1))
  | .zeroPage =>
    let (place, s) := s.fetchByte
    (place.toUInt16, s)
  | .zeroPageX =>
    let (place, s) := s.fetchByte
    ((place + s.x).toUInt16, s)
  | .zeroPageY =>
    let (place, s) := s.fetchByte
    ((place + s.y).toUInt16, s)
  | .absolute => s.fetchWord
  | .absoluteX =>
    let (address, s) := s.fetchWord
    (address + s.x.toUInt16, s)
  | .absoluteY =>
    let (address, s) := s.fetchWord
    (address + s.y.toUInt16, s)
  | .indirect =>
    let (pointer, s) := s.fetchWord
    (s.memory.word pointer, s)
  | .indirectX =>
    let (place, s) := s.fetchByte
    (s.zeroPageWord (place + s.x), s)
  | .indirectY =>
    let (place, s) := s.fetchByte
    (s.zeroPageWord place + s.y.toUInt16, s)

/-- Takes an operand and gives the byte that it names. -/
def operandValue (s : Cpu) : Mode → UInt8 × Cpu
  | .accumulator => (s.a, s)
  | mode =>
    let (address, s) := s.operandAddress mode
    (s.memory.get address, s)

/-! ### Parts of instructions -/

/-- Raises a signal. -/
def raise (s : Cpu) (signal : Signal) : Cpu :=
  { s with signals := s.signals ++ [signal] }

/-- Sets the zero and negative flags for a result. -/
def result (s : Cpu) (value : UInt8) : Cpu :=
  { s with flags := s.flags.ofResult value }

/-- Writes a byte to memory. -/
def store (s : Cpu) (address : UInt16) (value : UInt8) : Cpu :=
  { s with memory := s.memory.set address value }

/-- Loads the accumulator. -/
def loadA (s : Cpu) (value : UInt8) : Cpu :=
  { s with a := value }.result value

/-- Loads the index register X. -/
def loadX (s : Cpu) (value : UInt8) : Cpu :=
  { s with x := value }.result value

/-- Loads the index register Y. -/
def loadY (s : Cpu) (value : UInt8) : Cpu :=
  { s with y := value }.result value

/-- Takes over the result of an addition or subtraction. -/
def accumulate (s : Cpu) (sum : Sum) : Cpu :=
  { s with flags := { s.flags with carry := sum.carry, overflow := sum.overflow } }.loadA sum.value

/-- Takes an operand and changes the byte that it names, which is given then. -/
def modify (s : Cpu) (mode : Mode) (change : Cpu → UInt8 → UInt8 × Cpu) : UInt8 × Cpu :=
  if mode = .accumulator then
    let (value, s) := change s s.a
    (value, { s with a := value })
  else
    let (address, s) := s.operandAddress mode
    let (value, s) := change s (s.memory.get address)
    (value, s.store address value)

/-- Compares a register with an operand. -/
def compare (s : Cpu) (register value : UInt8) : Cpu :=
  { s with flags := { s.flags with carry := value ≤ register } }.result (register - value)

/-- The cell of page one that the stack pointer points to. -/
def stackAddress (pointer : UInt8) : UInt16 :=
  stackPage + pointer.toUInt16

/-- Pushes a byte. -/
def push (s : Cpu) (value : UInt8) : Cpu :=
  let pushed := s.store (stackAddress s.sp) value
  let raised := if s.sp = 0 then pushed.raise .filled else pushed
  { raised with sp := s.sp - 1 }

/-- The byte that is pulled next. -/
def top (s : Cpu) : UInt8 :=
  s.memory.get (stackAddress (s.sp + 1))

/-- Takes the top byte off the stack. -/
def drop (s : Cpu) : Cpu :=
  let raised := if s.sp = 0xff then s.raise .emptied else s
  { raised with sp := s.sp + 1 }

/-- Takes over a pulled status byte. -/
def setStatus (s : Cpu) (value : UInt8) : Cpu :=
  { s with flags := Flags.ofByte value }

/-! ### What the stack does -/

/-- The stack pointer is the low byte of an address in page one. -/
theorem toNat_stackAddress (pointer : UInt8) :
    (stackAddress pointer).toNat = 0x0100 + pointer.toNat := by
  have hlt := pointer.toNat_lt
  have hpage : stackPage.toNat = 0x0100 := rfl
  rw [stackAddress, UInt16.toNat_add, UInt8.toNat_toUInt16, hpage]
  omega

theorem stackAddress_inj {p q : UInt8} : stackAddress p = stackAddress q ↔ p = q := by
  rw [← UInt16.toNat_inj, toNat_stackAddress, toNat_stackAddress, Nat.add_right_inj,
    UInt8.toNat_inj]

theorem push_eq (s : Cpu) (value : UInt8) :
    s.push value =
      { s with
        memory := s.memory.set (stackAddress s.sp) value
        signals := s.signals ++ if s.sp = 0 then [.filled] else []
        sp := s.sp - 1 } := by
  unfold push
  by_cases h : s.sp = 0
  · simp only [h, if_true]
    rfl
  · simp only [h, if_false, List.append_nil]
    rfl

theorem drop_eq (s : Cpu) :
    s.drop =
      { s with
        signals := s.signals ++ if s.sp = 0xff then [.emptied] else []
        sp := s.sp + 1 } := by
  unfold drop
  by_cases h : s.sp = 0xff
  · simp only [h, if_true]
    rfl
  · simp only [h, if_false, List.append_nil]

end Cpu

end Mos6502
