/-
What an instruction does, seen from its opcode.

A handler takes the bytes of its operand as it goes, so the state that it acts on is one that has
moved, and how far depends on what was taken.  Seen from the opcode the same is easier to say:
the operand is found first, the program counter is put behind the whole instruction, by the
length that its addressing mode has in the table, and then the instruction acts (`executed`).

That this is what a handler does is `execute_eq`, and it is all that the rest of the proofs need to
know of the handlers.  A mode takes as many bytes as the table says (`operandAddress_eq`), and the
handlers that take none belong to mnemonics whose opcodes have none.  A branch adds its offset to
a program counter that is behind it, with its sign, so it goes where the disassembler says.
-/
import Mathlib.Data.FinEnum
import Mos6502.Cpu.Step

namespace Mos6502

variable {opcode : UInt8} {m : Mnemonic} {mode : Mode} {op : Operation} {s : Cpu}

/-! ### Modes -/

/-- The mode of an opcode is the mode of one of the columns of its mnemonic. -/
theorem exists_column_of_decode (h : decode opcode = some ⟨m, mode⟩) :
    ∃ c ∈ m.encodings.map Prod.fst, c.mode m = mode := by
  obtain ⟨c, hmem, hmode⟩ := decode_eq_some_iff.mp h
  exact ⟨c, List.mem_map.mpr ⟨_, hmem, rfl⟩, hmode⟩

/-- What holds of all modes of a mnemonic holds of the one of its opcode. -/
theorem mode_of_decode {P : Mode → Prop} (h : decode opcode = some ⟨m, mode⟩)
    (hm : ∀ c ∈ m.encodings.map Prod.fst, P (c.mode m)) : P mode := by
  obtain ⟨c, hc, rfl⟩ := exists_column_of_decode h
  exact hm c hc

/-! ### Branches -/

/-- The flag that a branch goes by, and how it has to be for the branch to be taken. -/
def Mnemonic.condition? : Mnemonic → Option ((Flags → Bool) × Bool)
  | .bpl => some (Flags.negative, false)
  | .bmi => some (Flags.negative, true)
  | .bvc => some (Flags.overflow, false)
  | .bvs => some (Flags.overflow, true)
  | .bcc => some (Flags.carry, false)
  | .bcs => some (Flags.carry, true)
  | .bne => some (Flags.zero, false)
  | .beq => some (Flags.zero, true)
  | _ => none

/-- Some flags make a branch be taken. -/
def Mnemonic.IsTaken (m : Mnemonic) (flags : Flags) : Prop :=
  ∃ condition ∈ m.condition?, condition.1 flags = condition.2

instance (m : Mnemonic) (flags : Flags) : Decidable (m.IsTaken flags) :=
  inferInstanceAs (Decidable (∃ condition ∈ m.condition?, condition.1 flags = condition.2))

theorem Mnemonic.isTaken_iff {flag : Flags → Bool} {value : Bool} {flags : Flags}
    (h : m.condition? = some (flag, value)) : m.IsTaken flags ↔ flag flags = value := by
  simp [IsTaken, h]

/-- A branch is one byte of offset long. -/
theorem mode_of_condition? {condition : (Flags → Bool) × Bool}
    (hcondition : m.condition? = some condition) (h : decode opcode = some ⟨m, mode⟩) :
    mode = .relative := by
  refine mode_of_decode (P := fun mode => mode = .relative) h ?_
  cases m with
  | bpl | bmi | bvc | bvs | bcc | bcs | bne | beq => decide
  | _ => cases hcondition

/-- An offset with its sign is what is added for it. -/
theorem toUInt16_offset : ∀ offset : UInt8,
    offset.toInt8.toInt16.toUInt16 = displacement offset := by
  decide +kernel

namespace Cpu

/-! ### Operands -/

/-- The byte after the opcode. -/
def operandByte (s : Cpu) : UInt8 :=
  s.memory.get (s.pc + 1)

/-- The word after the opcode. -/
def operandWord (s : Cpu) : UInt16 :=
  s.memory.word (s.pc + 1)

/-- The address that an operand names. -/
def effectiveAddress (s : Cpu) : Mode → UInt16
  | .implicit | .accumulator | .immediate | .relative => s.pc + 1
  | .zeroPage => s.operandByte.toUInt16
  | .zeroPageX => (s.operandByte + s.x).toUInt16
  | .zeroPageY => (s.operandByte + s.y).toUInt16
  | .absolute => s.operandWord
  | .absoluteX => s.operandWord + s.x.toUInt16
  | .absoluteY => s.operandWord + s.y.toUInt16
  | .indirect => s.memory.word s.operandWord
  | .indirectX => s.zeroPageWord (s.operandByte + s.x)
  | .indirectY => s.zeroPageWord s.operandByte + s.y.toUInt16

/-- The byte that an operand names. -/
def operand (s : Cpu) : Mode → UInt8
  | .accumulator => s.a
  | mode => s.memory.get (s.effectiveAddress mode)

theorem operand_of_ne (s : Cpu) (h : mode ≠ .accumulator) :
    s.operand mode = s.memory.get (s.effectiveAddress mode) := by
  cases mode with
  | accumulator => exact absurd rfl h
  | _ => rfl

/-- The state behind an instruction that has not done anything yet. -/
def behind (s : Cpu) (mode : Mode) : Cpu :=
  s.jump (s.pc + UInt16.ofNat mode.size)

/-- An operand has as many bytes as its mode says, and names what it seems to. -/
theorem operandAddress_eq (s : Cpu) (mode : Mode) :
    (s.jump (s.pc + 1)).operandAddress mode = (s.effectiveAddress mode, s.behind mode) := by
  have hword : (s.jump (s.pc + 1)).fetchWord = (s.operandWord, s.behind .absolute) := by
    show (_, s.jump (s.pc + 1 + 1 + 1)) = (_, s.jump (s.pc + 3))
    rw [UInt16.add_assoc, UInt16.add_assoc]
    rfl
  have hbyte : s.jump (s.pc + 1 + 1) = s.behind .immediate := by
    rw [UInt16.add_assoc]
    rfl
  cases mode with
  | implicit | accumulator => rfl
  | immediate | relative => exact congrArg (Prod.mk _) hbyte
  | zeroPage | zeroPageX | zeroPageY => exact congrArg (Prod.mk _) hbyte
  | indirectX | indirectY => exact congrArg (Prod.mk _) hbyte
  | absolute => exact hword
  | absoluteX | absoluteY | indirect =>
    rw [operandAddress, hword]
    rfl

theorem operandValue_eq (s : Cpu) (mode : Mode) :
    (s.jump (s.pc + 1)).operandValue mode = (s.operand mode, s.behind mode) := by
  cases mode with
  | accumulator => rfl
  | _ =>
    rw [operandValue, operandAddress_eq]
    · rfl
    · exact nofun

/-! ### Instructions -/

/-- Puts a changed operand back where it came from. -/
def replace (s : Cpu) (mode : Mode) (address : UInt16) (value : UInt8) : Cpu :=
  match mode with
  | .accumulator => s.loadA value
  | _ => (s.store address value).result value

/-- Puts a shifted operand back where it came from. -/
def replaceShifted (s : Cpu) (mode : Mode) (address : UInt16) (shifted : Shifted) : Cpu :=
  { s with flags := { s.flags with carry := shifted.carry } }.replace mode address shifted.value

/-- What a known instruction does. -/
def executed (s : Cpu) (op : Operation) : Cpu :=
  let address := s.effectiveAddress op.mode
  let value := s.operand op.mode
  let next := s.jump (s.pc + UInt16.ofNat op.size)
  let flags := s.flags
  match op.mnemonic with
  | .adc => next.accumulate (if flags.decimal then Alu.addDecimal s.a value flags.carry
      else Alu.add s.a value flags.carry)
  | .sbc => next.accumulate (if flags.decimal then Alu.subtractDecimal s.a value flags.carry
      else Alu.subtract s.a value flags.carry)
  | .and => next.loadA (s.a &&& value)
  | .ora => next.loadA (s.a ||| value)
  | .eor => next.loadA (s.a ^^^ value)
  | .cmp => next.compare s.a value
  | .cpx => next.compare s.x value
  | .cpy => next.compare s.y value
  | .bit => { next with flags := { flags with
      zero := s.a &&& value == 0
      negative := value &&& 0x80 != 0
      overflow := value &&& 0x40 != 0 } }
  | .asl => next.replaceShifted op.mode address (Alu.shiftLeft value)
  | .lsr => next.replaceShifted op.mode address (Alu.shiftRight value)
  | .rol => next.replaceShifted op.mode address (Alu.rotateLeft value flags.carry)
  | .ror => next.replaceShifted op.mode address (Alu.rotateRight value flags.carry)
  | .inc => next.replace op.mode address (value + 1)
  | .dec => next.replace op.mode address (value - 1)
  | .inx => next.loadX (s.x + 1)
  | .iny => next.loadY (s.y + 1)
  | .dex => next.loadX (s.x - 1)
  | .dey => next.loadY (s.y - 1)
  | .lda => next.loadA value
  | .ldx => next.loadX value
  | .ldy => next.loadY value
  | .sta => next.store address s.a
  | .stx => next.store address s.x
  | .sty => next.store address s.y
  | .tax => next.loadX s.a
  | .tay => next.loadY s.a
  | .txa => next.loadA s.x
  | .tya => next.loadA s.y
  | .tsx => next.loadX s.sp
  | .txs => { next with sp := s.x }
  | .pha => next.push s.a
  | .php => next.push (s.status ||| 0x30)
  | .pla => next.drop.loadA next.top
  | .plp => next.drop.setStatus (next.top ||| 0x30)
  | .clc => { next with flags := { flags with carry := false } }
  | .sec => { next with flags := { flags with carry := true } }
  | .clv => { next with flags := { flags with overflow := false } }
  | .cld => { next with flags := { flags with decimal := false } }
  | .sed => { next with flags := { flags with decimal := true } }
  | .cli | .sei | .nop => next
  | .brk => next.raise .halt
  | .jmp => next.jump address
  | .jsr => ((next.push (highByte (next.pc - 1))).push (lowByte (next.pc - 1))).jump address
  | .rts => next.drop.drop.jump (wordOf next.top next.drop.top + 1)
  | .rti =>
    let restored := next.drop.setStatus (next.top ||| 0x30)
    restored.drop.drop.jump (wordOf restored.top restored.drop.top)
  | .bpl | .bmi | .bvc | .bvs | .bcc | .bcs | .bne | .beq =>
    if op.mnemonic.IsTaken flags then next.jump (branchTarget s.pc value) else next

/-- What the output pseudo-operation does. -/
def executedOutput (s : Cpu) : Cpu :=
  { s with
    pc := s.pc + 2
    signals := s.signals ++ if s.operandByte = 0 then [.output s.a] else [] }

/-! ### Kinds of instructions -/

theorem withAddress_eq (s : Cpu) (mode : Mode) (act : Cpu → UInt16 → Cpu) :
    (s.jump (s.pc + 1)).withAddress mode act = act (s.behind mode) (s.effectiveAddress mode) := by
  rw [withAddress, operandAddress_eq]

theorem withValue_eq (s : Cpu) (mode : Mode) (act : Cpu → UInt8 → Cpu) :
    (s.jump (s.pc + 1)).withValue mode act = act (s.behind mode) (s.operand mode) := by
  rw [withValue, operandValue_eq]

/-- Taking the operand leaves the accumulator and the flags for the change. -/
theorem modify_eq (s : Cpu) (mode : Mode) (change : Cpu → UInt8 → UInt8 × Cpu) :
    (s.jump (s.pc + 1)).modify mode change =
      if mode = .accumulator then
        ((change (s.behind mode) (s.operand mode)).1,
          { (change (s.behind mode) (s.operand mode)).2 with
            a := (change (s.behind mode) (s.operand mode)).1 })
      else
        ((change (s.behind mode) (s.operand mode)).1,
          (change (s.behind mode) (s.operand mode)).2.store (s.effectiveAddress mode)
            (change (s.behind mode) (s.operand mode)).1) := by
  unfold modify
  split
  · rename_i hmode
    subst hmode
    rfl
  · rename_i hmode
    rw [operandAddress_eq, s.operand_of_ne hmode]
    rfl

theorem shift_eq (s : Cpu) (mode : Mode) (move : UInt8 → Bool → Shifted) :
    (s.jump (s.pc + 1)).shift mode move =
      (s.behind mode).replaceShifted mode (s.effectiveAddress mode)
        (move (s.operand mode) s.flags.carry) := by
  rw [shift, modify_eq]
  cases mode with
  | accumulator => rfl
  | _ => rfl

theorem adjust_eq (s : Cpu) (mode : Mode) (change : UInt8 → UInt8) :
    (s.jump (s.pc + 1)).adjust mode change =
      (s.behind mode).replace mode (s.effectiveAddress mode) (change (s.operand mode)) := by
  rw [adjust, modify_eq]
  cases mode with
  | accumulator => rfl
  | _ => rfl

/-- A branch is relative to the instruction behind it. -/
theorem branchIf_eq (s : Cpu) (taken : Bool) :
    (s.jump (s.pc + 1)).branchIf .relative taken =
      if taken = true then (s.behind .relative).jump (branchTarget s.pc (s.operand .relative))
      else s.behind .relative := by
  rw [branchIf, operandAddress_eq]
  simp only [toUInt16_offset]
  rfl

/-- Without an operand, the state behind the opcode is behind the instruction. -/
theorem behind_of_plain (hdecode : decode opcode = some ⟨m, mode⟩)
    (hplain : ∀ c ∈ m.encodings.map Prod.fst, (c.mode m).size = 1) :
    s.jump (s.pc + 1) = s.behind mode := by
  have hsize : mode.size = 1 := mode_of_decode (P := fun mode => mode.size = 1) hdecode hplain
  rw [behind, hsize]
  rfl

/-- **A handler does what its instruction does**, from behind the opcode, and takes the bytes that
the instruction has. -/
theorem execute_eq (hdecode : decode opcode = some op) :
    (s.jump (s.pc + 1)).execute op = s.executed op := by
  obtain ⟨m, mode⟩ := op
  cases m with
  | adc | sbc | and | ora | eor | cmp | cpx | cpy | bit | lda | ldx | ldy =>
    simp only [execute, withValue_eq]
    rfl
  | asl | lsr | rol | ror =>
    simp only [execute, shift_eq]
    rfl
  | inc | dec =>
    simp only [execute, adjust_eq]
    rfl
  | sta | stx | sty | jmp | jsr =>
    simp only [execute, withAddress_eq]
    rfl
  | bpl | bmi | bvc | bvs | bcc | bcs | bne | beq =>
    obtain rfl := mode_of_condition? rfl hdecode
    simp only [execute, executed, branchIf_eq]
    exact if_congr (by simp [Mnemonic.IsTaken, Mnemonic.condition?, jump]) rfl rfl
  | inx | iny | dex | dey | tax | tay | txa | tya | tsx | txs | pha | php | pla | plp | clc | sec
  | clv | cld | sed | cli | sei | nop | brk | rts | rti =>
    rw [behind_of_plain hdecode (by decide)]
    rfl

theorem executeOutput_eq (s : Cpu) :
    (s.jump (s.pc + 1)).executeOutput = s.executedOutput := by
  have hpc : s.pc + 1 + 1 = s.pc + 2 := by
    rw [UInt16.add_assoc]
    rfl
  show (if s.operandByte = 0 then (s.jump (s.pc + 1 + 1)).raise (.output s.a)
    else s.jump (s.pc + 1 + 1)) = _
  rw [hpc, executedOutput]
  by_cases h : s.operandByte = 0
  · simp only [h, if_true]
    rfl
  · simp only [h, if_false, List.append_nil]
    rfl

/-! ### How a step can go -/

/-- The ways in which a step can go, with the state that it leads to and the fault. -/
inductive Stepped (s : Cpu) : Cpu × Option Fault → Prop
  | output (hopcode : s.memory.get s.pc = outputOpcode) :
      Stepped s (s.executedOutput.count, none)
  | unknown (hopcode : s.memory.get s.pc ≠ outputOpcode)
      (hdecode : decode (s.memory.get s.pc) = none) :
      Stepped s (s.jump (s.pc + 1), some (.unknownOpcode (s.memory.get s.pc) s.pc))
  | unimplemented {op : Operation} (hdecode : decode (s.memory.get s.pc) = some op)
      (hop : op.mnemonic = .cli ∨ op.mnemonic = .sei) :
      Stepped s (s.jump (s.pc + 1), some (.unimplemented op.mnemonic))
  | executed {op : Operation} (hdecode : decode (s.memory.get s.pc) = some op)
      (hop : ¬ (op.mnemonic = .cli ∨ op.mnemonic = .sei)) :
      Stepped s ((s.executed op).count, none)

theorem stepped_iff {r : Cpu × Option Fault} : Stepped s r ↔ s.step = r := by
  constructor
  · intro h
    unfold step fetchByte
    cases h with
    | output hopcode => simp only [if_pos hopcode, executeOutput_eq]
    | unknown hopcode hdecode => simp only [if_neg hopcode, hdecode]
    | unimplemented hdecode hop =>
      simp only [if_neg (ne_outputOpcode_of_decode hdecode), hdecode, if_pos hop]
    | executed hdecode hop =>
      simp only [if_neg (ne_outputOpcode_of_decode hdecode), hdecode, if_neg hop,
        execute_eq hdecode]
  · rintro rfl
    unfold step fetchByte
    simp only
    split
    · rw [executeOutput_eq]
      exact .output ‹_›
    · split
      · exact .unknown ‹_› ‹_›
      · split
        · exact .unimplemented ‹_› ‹_›
        · rw [execute_eq ‹_›]
          exact .executed ‹_› ‹_›

/-- A documented instruction is executed and counted, unless it is one on interrupts. -/
theorem step_of_decode (h : decode (s.memory.get s.pc) = some op)
    (hcli : op.mnemonic ≠ .cli) (hsei : op.mnemonic ≠ .sei) :
    s.step = ((s.executed op).count, none) :=
  stepped_iff.mp (.executed h (not_or.mpr ⟨hcli, hsei⟩))

/-- A step that fails moves past the byte, and does nothing else. -/
theorem step_of_fault {fault : Fault} (h : s.step.2 = some fault) :
    s.step.1 = { s with pc := s.pc + 1 } := by
  cases hstep : s.step with
  | mk next outcome =>
    rw [hstep] at h
    cases stepped_iff.mpr hstep with
    | output | executed => cases h
    | unknown | unimplemented => rfl

end Cpu

end Mos6502
