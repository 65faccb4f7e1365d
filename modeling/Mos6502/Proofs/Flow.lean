/-
Where the processor goes on after an instruction.

The disassembler knows the length of an instruction, from a table, and its operand, and nothing
else of what it does.  The processor does not look at the table: each handler takes what it needs,
and the instruction is as long as that.  The two agree, so the disassembler can tell where the
processor goes on, but for what only the state can say: the flag that a branch goes by, the word
behind a pointer, and what was pushed before.

`Instruction.successor?` puts this together from the instruction that is read at the program
counter, and a step goes there (`instruction_tells_flow`), whatever it writes: a program may
change itself, but not the instruction that is being executed.
-/
import Mos6502.Proofs.Branching

namespace Mos6502

variable {memory : Memory} {address : UInt16} {op : Operation} {opcode : UInt8} {m : Mnemonic}
  {mode : Mode} {s : Cpu}

/-- The byte that is pulled off the stack as the `n`-th from now. -/
def Cpu.pulled (s : Cpu) (n : UInt8) : UInt8 :=
  s.memory.get (Cpu.stackAddress (s.sp + n))

/-- Where a state goes on after an instruction.  Jumps go to their operand or to the word that it
points to, a branch goes to its target if its flag is as it has to be, and returns go to a word off
the stack: to the address behind it from a subroutine, and from an interrupt to the word that lies
under the status byte.  Everything else goes on behind the instruction. -/
def Instruction.successor? (i : Instruction) (s : Cpu) : Option UInt16 :=
  i.operation.bind fun op =>
    match op.mnemonic with
    | .jmp => if op.mode = .indirect then i.value?.map s.memory.word else i.value?
    | .jsr => i.value?
    | .rts => some (wordOf (s.pulled 1) (s.pulled 2) + 1)
    | .rti => some (wordOf (s.pulled 2) (s.pulled 3))
    | m => if m.IsTaken s.flags then i.target? else some (i.address + UInt16.ofNat i.size)

/-! ### The instruction in memory -/

namespace Memory

/-- Three bytes from an opcode on hold its instruction, also across the end of memory. -/
theorem decode?_read (hdecode : decode (memory.get address) = some op) :
    Instruction.decode? address (memory.read address 3) =
      some ⟨address, memory.get address, some op,
        memory.read (address + 1) op.mode.operandLength⟩ := by
  have hread : memory.read address 3 = memory.get address :: memory.read (address + 1) 2 := by
    rw [show 3 = 1 + 2 from rfl, read_add]
    simp [read]
  have htake : (memory.read (address + 1) 2).take op.mode.operandLength =
      memory.read (address + 1) op.mode.operandLength := by
    rw [take_read, Nat.min_eq_left op.mode.operandLength_le]
  simp only [hread, Instruction.decode?, hdecode, htake, length_read, if_true]

end Memory

/-! ### The modes of jumps and calls -/

theorem mode_of_jump (h : decode opcode = some ⟨.jmp, mode⟩) :
    mode = .absolute ∨ mode = .indirect :=
  mode_of_decode (P := fun mode => mode = .absolute ∨ mode = .indirect) h (by decide)

theorem mode_of_call (h : decode opcode = some ⟨.jsr, mode⟩) : mode = .absolute :=
  mode_of_decode (P := fun mode => mode = .absolute) h (by decide)

/-! ### The program counter behind an instruction -/

namespace Cpu

/-- The instruction at the program counter. -/
def ahead (s : Cpu) (op : Operation) : Instruction :=
  ⟨s.pc, s.memory.get s.pc, some op, s.memory.read (s.pc + 1) op.mode.operandLength⟩

/-- Its operand, where it is a word. -/
theorem value?_ahead (s : Cpu) (op : Operation) (hlength : op.mode.operandLength = 2) :
    (s.ahead op).value? = some s.operandWord := by
  rw [Instruction.value?, ahead, hlength, Memory.read_two]
  rfl

/-- Its target, if it is a branch. -/
theorem target?_ahead (s : Cpu) (m : Mnemonic) :
    (s.ahead ⟨m, .relative⟩).target? = some (branchTarget s.pc s.operandByte) := by
  show ((s.memory.read (s.pc + 1) 1).head?.map (branchTarget s.pc)) = _
  simp [Memory.read, operandByte]

theorem successor?_ahead (hdecode : decode (s.memory.get s.pc) = some op) :
    (s.ahead op).successor? s = some (s.executed op).pc := by
  obtain ⟨m, mode⟩ := op
  cases m with
  | jmp =>
    rcases mode_of_jump hdecode with rfl | rfl
    · exact value?_ahead s ⟨.jmp, .absolute⟩ rfl
    · show Option.map s.memory.word (s.ahead ⟨.jmp, .indirect⟩).value? = _
      rw [value?_ahead s ⟨.jmp, .indirect⟩ rfl]
      rfl
  | jsr =>
    obtain rfl := mode_of_call hdecode
    exact value?_ahead s ⟨.jsr, .absolute⟩ rfl
  | rts =>
    simp only [executed, drop_eq, top]
    show some (wordOf _ (s.memory.get (stackAddress (s.sp + (1 + 1)))) + 1) = _
    rw [← UInt8.add_assoc]
    rfl
  | rti =>
    have htwo : s.sp + 2 = s.sp + 1 + 1 := by rw [UInt8.add_assoc]; rfl
    have hthree : s.sp + 3 = s.sp + 1 + 1 + 1 := by rw [UInt8.add_assoc, UInt8.add_assoc]; rfl
    show some (wordOf (s.memory.get (stackAddress (s.sp + 2)))
      (s.memory.get (stackAddress (s.sp + 3)))) = _
    rw [htwo, hthree]
    simp only [executed, drop_eq, top]
    rfl
  | bpl | bmi | bvc | bvs | bcc | bcs | bne | beq =>
    obtain rfl := mode_of_condition? rfl hdecode
    show (if Mnemonic.IsTaken _ s.flags then (s.ahead _).target? else some (s.pc + _)) = some _
    rw [target?_ahead]
    simp only [executed]
    split <;> rfl
  | asl | lsr | rol | ror | inc | dec => cases mode <;> rfl
  | pha | php | pla | plp =>
    simp only [executed, push_eq, drop_eq]
    rfl
  | _ => rfl

end Cpu

/--
**The instruction at the program counter tells where the processor goes on.**  A documented opcode,
but for those on interrupts, is read with the two bytes behind it as an instruction; the step
succeeds and goes on where that instruction says.  The output pseudo-operation has two bytes.
-/
theorem instruction_tells_flow (s : Cpu) :
    (∀ op, decode (s.memory.get s.pc) = some op → op.mnemonic ≠ .cli → op.mnemonic ≠ .sei →
        ∃ i next, Instruction.decode? s.pc (s.memory.read s.pc 3) = some i ∧
          i.operation = some op ∧ s.step = (next, none) ∧ i.successor? s = some next.pc) ∧
      (s.memory.get s.pc = outputOpcode →
        ∃ next, s.step = (next, none) ∧ next.pc = s.pc + 2) := by
  constructor
  · intro op hdecode hcli hsei
    exact ⟨s.ahead op, _, Memory.decode?_read hdecode, rfl, Cpu.step_of_decode hdecode hcli hsei,
      Cpu.successor?_ahead hdecode⟩
  · intro hopcode
    exact ⟨_, Cpu.stepped_iff.mp (.output hopcode), rfl⟩

/-- A call in the last two cells of memory, with the end of its operand in the first: `JSR $12FE`
goes on at its operand, not behind it.  The output pseudo-operation in the last cell goes on behind
the byte that chooses what to do, in the second. -/
theorem instruction_tells_flow_across_end :
    (∃ s : Cpu, s.pc = 0xfffe ∧ s.memory.read 0xfffe 3 = [0x20, 0xfe, 0x12] ∧
        ∃ i next, Instruction.decode? 0xfffe [0x20, 0xfe, 0x12] = some i ∧
          i.operation = some ⟨.jsr, .absolute⟩ ∧ i.value? = some 0x12fe ∧
          s.step = (next, none) ∧ i.successor? s = some next.pc) ∧
      ∃ s : Cpu, s.pc = 0xffff ∧ s.memory.get 0xffff = outputOpcode ∧
        ∃ next, s.step = (next, none) ∧ next.pc = 0x0001 := by
  constructor
  · let s : Cpu :=
      { Cpu.ofMemory (((Memory.empty.set 0xfffe 0x20).set 0xffff 0xfe).set 0x0000 0x12) with
        pc := 0xfffe }
    have hread : s.memory.read s.pc 3 = [0x20, 0xfe, 0x12] := by
      show (((Memory.empty.set 0xfffe 0x20).set 0xffff 0xfe).set 0x0000 0x12).read 0xfffe 3 = _
      simp [Memory.read, List.range_succ, Memory.get_set]
    have hopcode : s.memory.get s.pc = 0x20 := by
      show (((Memory.empty.set 0xfffe 0x20).set 0xffff 0xfe).set 0x0000 0x12).get 0xfffe = _
      simp [Memory.get_set]
    have hdecode : decode (s.memory.get s.pc) = some ⟨.jsr, .absolute⟩ := by
      rw [hopcode]
      decide +kernel
    obtain ⟨i, next, hi, hop, hstep, hflow⟩ :=
      (instruction_tells_flow s).1 ⟨.jsr, .absolute⟩ hdecode (by decide) (by decide)
    rw [hread] at hi
    have hvalue : (Instruction.decode? 0xfffe [0x20, 0xfe, 0x12]).bind Instruction.value? =
        some 0x12fe := by
      decide +kernel
    rw [show (0xfffe : UInt16) = s.pc from rfl, hi] at hvalue
    exact ⟨s, rfl, hread, i, next, hi, hop, hvalue, hstep, hflow⟩
  · let s : Cpu := { Cpu.ofMemory (Memory.empty.set 0xffff outputOpcode) with pc := 0xffff }
    have hopcode : s.memory.get s.pc = outputOpcode := by
      show (Memory.empty.set 0xffff outputOpcode).get 0xffff = _
      rw [Memory.get_set, if_pos rfl]
    obtain ⟨next, hstep, hpc⟩ := (instruction_tells_flow s).2 hopcode
    have hwrap : s.pc + 2 = 0x0001 := by
      show (0xffff : UInt16) + 2 = 0x0001
      decide
    exact ⟨s, rfl, hopcode, next, hstep, hpc.trans hwrap⟩

end Mos6502
