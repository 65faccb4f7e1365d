/-
What an instruction reads.

`Cpu.reads` lists the cells that the next instruction looks at: its opcode, the bytes of its
operand, the pointers on the way to the operand, the operand itself where its value counts, and
what is pulled off the stack.  An instruction that writes its operand back reads it first, and a
branch reads its offset whether it is taken or not.

Nothing else in memory has a say.  Over two memories that agree on these cells a step leads to
the same registers and the same fault, and it makes the same changes (`step_withMemory`).
-/
import Mos6502.Proofs.Schedule

namespace Mos6502

/-- What an instruction needs from memory behind its opcode. -/
inductive Access where
  /-- Nothing. -/
  | nothing
  /-- Where its operand is. -/
  | address
  /-- What its operand is. -/
  | value
  /-- Some bytes off the stack. -/
  | pulls (count : Nat)
deriving DecidableEq, Repr

/-- What an instruction needs from memory behind its opcode. -/
def Mnemonic.access : Mnemonic → Access
  | .adc | .sbc | .and | .ora | .eor | .cmp | .cpx | .cpy | .bit | .asl | .lsr | .rol | .ror
  | .inc | .dec | .lda | .ldx | .ldy | .bpl | .bmi | .bvc | .bvs | .bcc | .bcs | .bne | .beq =>
    .value
  | .sta | .stx | .sty | .jmp | .jsr => .address
  | .pla | .plp => .pulls 1
  | .rts => .pulls 2
  | .rti => .pulls 3
  | .inx | .iny | .dex | .dey | .tax | .tay | .txa | .tya | .tsx | .txs | .pha | .php
  | .clc | .sec | .clv | .cld | .sed | .cli | .sei | .nop | .brk => .nothing

namespace Cpu

/-! ### The cells that are read -/

/-- The cells that say where the operand is. -/
def addressReads (s : Cpu) : Mode → List UInt16
  | .implicit | .accumulator | .immediate | .relative => []
  | .zeroPage | .zeroPageX | .zeroPageY => [s.pc + 1]
  | .absolute | .absoluteX | .absoluteY => [s.pc + 1, s.pc + 1 + 1]
  | .indirect => [s.pc + 1, s.pc + 1 + 1, s.operandWord, s.operandWord + 1]
  | .indirectX =>
    [s.pc + 1, (s.operandByte + s.x).toUInt16, (s.operandByte + s.x + 1).toUInt16]
  | .indirectY => [s.pc + 1, s.operandByte.toUInt16, (s.operandByte + 1).toUInt16]

/-- The cell of the operand, if it is in memory. -/
def valueReads (s : Cpu) : Mode → List UInt16
  | .accumulator => []
  | mode => [s.effectiveAddress mode]

/-- The cells that are pulled from, the first one first. -/
def pullReads (pointer : UInt8) : Nat → List UInt16
  | 0 => []
  | n + 1 => stackAddress (pointer + 1) :: pullReads (pointer + 1) n

/-- The cells that an instruction reads behind its opcode. -/
def operandReads (s : Cpu) (op : Operation) : List UInt16 :=
  match op.mnemonic.access with
  | .nothing => []
  | .address => s.addressReads op.mode
  | .value => s.addressReads op.mode ++ s.valueReads op.mode
  | .pulls count => pullReads s.sp count

/-- The cells that the next instruction reads.  The output pseudo-operation reads the byte behind
its opcode, and of what cannot be executed nothing but the opcode is read. -/
def reads (s : Cpu) : List UInt16 :=
  s.pc ::
    if s.memory.get s.pc = outputOpcode then [s.pc + 1]
    else ((decode (s.memory.get s.pc)).map s.operandReads).getD []

/-! ### Nothing else counts -/

/-- The same registers over another memory. -/
def withMemory (s : Cpu) (memory : Memory) : Cpu :=
  { s with memory }

variable {s : Cpu} {memory : Memory} {mode : Mode}

theorem effectiveAddress_withMemory
    (h : ∀ address ∈ s.addressReads mode, memory.get address = s.memory.get address) :
    (s.withMemory memory).effectiveAddress mode = s.effectiveAddress mode := by
  cases mode with
  | implicit | accumulator | immediate | relative => rfl
  | zeroPage | zeroPageX | zeroPageY =>
    simp only [addressReads, List.forall_mem_cons] at h
    simp only [effectiveAddress, operandByte, withMemory, h.1]
  | absolute | absoluteX | absoluteY =>
    simp only [addressReads, List.forall_mem_cons] at h
    simp only [effectiveAddress, operandWord, Memory.word, withMemory, h.1, h.2.1]
  | indirect =>
    simp only [addressReads, List.forall_mem_cons] at h
    obtain ⟨hlow, hhigh, htarget, htarget', -⟩ := h
    have hword : (s.withMemory memory).operandWord = s.operandWord := by
      simp only [operandWord, Memory.word, withMemory, hlow, hhigh]
    show memory.word (s.withMemory memory).operandWord = s.memory.word s.operandWord
    rw [hword, Memory.word, htarget, htarget', Memory.word]
  | indirectX | indirectY =>
    simp only [addressReads, List.forall_mem_cons] at h
    obtain ⟨hbyte, hlow, hhigh, -⟩ := h
    simp only [operandByte] at hlow hhigh
    simp only [effectiveAddress, zeroPageWord, operandByte, withMemory, hbyte, hlow, hhigh]

theorem operand_withMemory
    (h : ∀ address ∈ s.addressReads mode ++ s.valueReads mode,
      memory.get address = s.memory.get address) :
    (s.withMemory memory).operand mode = s.operand mode := by
  rw [List.forall_mem_append] at h
  have haddress := effectiveAddress_withMemory h.1
  cases mode with
  | accumulator => rfl
  | _ =>
    show memory.get ((s.withMemory memory).effectiveAddress _) = _
    rw [haddress]
    exact h.2 _ (List.mem_singleton_self _)

theorem withMemory_ite {p : Prop} [Decidable p] (s t : Cpu) (memory : Memory) :
    (if p then s else t).withMemory memory =
      if p then s.withMemory memory else t.withMemory memory :=
  apply_ite (fun s => s.withMemory memory) p s t

/-- An instruction looks at nothing but the cells that it reads, and what it writes is the same
over both memories. -/
theorem executed_withMemory {op : Operation}
    (h : ∀ address ∈ s.operandReads op, memory.get address = s.memory.get address) :
    ∃ changes, (s.executed op).memory = s.memory.apply changes ∧
      (s.withMemory memory).executed op = (s.executed op).withMemory (memory.apply changes) := by
  obtain ⟨m, mode⟩ := op
  -- What is read is the same, so the two runs differ in nothing but the memory that they keep.
  cases m with
  | adc | sbc | and | ora | eor | cmp | cpx | cpy | bit | lda | ldx | ldy =>
    have hvalue : (s.withMemory memory).operand mode = s.operand mode := operand_withMemory h
    refine ⟨[], rfl, ?_⟩
    simp only [executed, hvalue]
    rfl
  | bpl | bmi | bvc | bvs | bcc | bcs | bne | beq =>
    have hvalue : (s.withMemory memory).operand mode = s.operand mode := operand_withMemory h
    refine ⟨[], ?_, ?_⟩
    · simp only [executed, apply_ite Cpu.memory]
      exact ite_self _
    · simp only [executed, hvalue, withMemory_ite]
      rfl
  | asl | lsr | rol | ror | inc | dec =>
    have haddress : (s.withMemory memory).effectiveAddress mode = s.effectiveAddress mode :=
      effectiveAddress_withMemory (List.forall_mem_append.mp h).1
    have hvalue : (s.withMemory memory).operand mode = s.operand mode := operand_withMemory h
    cases mode with
    | accumulator =>
      refine ⟨[], rfl, ?_⟩
      simp only [executed, hvalue]
      rfl
    | _ =>
      refine ⟨[⟨_, _⟩], rfl, ?_⟩
      simp only [executed, hvalue, haddress]
      rfl
  | sta | stx | sty =>
    have haddress : (s.withMemory memory).effectiveAddress mode = s.effectiveAddress mode :=
      effectiveAddress_withMemory h
    refine ⟨[⟨_, _⟩], rfl, ?_⟩
    simp only [executed, haddress]
    rfl
  | jmp =>
    have haddress : (s.withMemory memory).effectiveAddress mode = s.effectiveAddress mode :=
      effectiveAddress_withMemory h
    refine ⟨[], rfl, ?_⟩
    simp only [executed, haddress]
    rfl
  | jsr =>
    have haddress : (s.withMemory memory).effectiveAddress mode = s.effectiveAddress mode :=
      effectiveAddress_withMemory h
    let back := s.pc + UInt16.ofNat (Operation.size ⟨.jsr, mode⟩) - 1
    refine ⟨[⟨stackAddress s.sp, highByte back⟩, ⟨stackAddress (s.sp - 1), lowByte back⟩], ?_, ?_⟩
    · simp only [executed, push_eq]
      rfl
    · simp only [executed, push_eq, haddress]
      rfl
  | pha =>
    refine ⟨[⟨stackAddress s.sp, s.a⟩], ?_, ?_⟩ <;> simp only [executed, push_eq] <;> rfl
  | php =>
    refine ⟨[⟨stackAddress s.sp, s.status ||| 0x30⟩], ?_, ?_⟩ <;> simp only [executed, push_eq] <;>
      rfl
  | pla | plp =>
    obtain ⟨hfirst, -⟩ := List.forall_mem_cons.mp h
    refine ⟨[], ?_, ?_⟩
    · simp only [executed, drop_eq]
      rfl
    · simp only [executed, drop_eq, top, jump, withMemory, hfirst]
      rfl
  | rts =>
    obtain ⟨hfirst, hrest⟩ := List.forall_mem_cons.mp h
    obtain ⟨hsecond, -⟩ := List.forall_mem_cons.mp hrest
    refine ⟨[], ?_, ?_⟩
    · simp only [executed, drop_eq]
      rfl
    · simp only [executed, drop_eq, top, jump, withMemory, hfirst, hsecond]
      rfl
  | rti =>
    obtain ⟨hfirst, hrest⟩ := List.forall_mem_cons.mp h
    obtain ⟨hsecond, hrest⟩ := List.forall_mem_cons.mp hrest
    obtain ⟨hthird, -⟩ := List.forall_mem_cons.mp hrest
    refine ⟨[], ?_, ?_⟩
    · simp only [executed, drop_eq]
      rfl
    · simp only [executed, drop_eq, top, jump, setStatus, withMemory, hfirst, hsecond, hthird]
      rfl
  | _ => exact ⟨[], rfl, rfl⟩

theorem executedOutput_withMemory (h : memory.get (s.pc + 1) = s.memory.get (s.pc + 1)) :
    (s.withMemory memory).executedOutput = s.executedOutput.withMemory memory := by
  have hbyte : (s.withMemory memory).operandByte = s.operandByte := h
  simp only [executedOutput, hbyte]
  rfl

/-- A step looks at nothing but the cells that it reads. -/
theorem step_withMemory (h : ∀ address ∈ s.reads, memory.get address = s.memory.get address) :
    ∃ changes, s.step.1.memory = s.memory.apply changes ∧
      (s.withMemory memory).step = (s.step.1.withMemory (memory.apply changes), s.step.2) := by
  obtain ⟨hsame, hrest⟩ := List.forall_mem_cons.mp h
  replace hsame : (s.withMemory memory).memory.get (s.withMemory memory).pc = s.memory.get s.pc :=
    hsame
  cases hstep : s.step with
  | mk next fault =>
    cases stepped_iff.mpr hstep with
    | output hopcode =>
      rw [if_pos hopcode, List.forall_mem_singleton] at hrest
      refine ⟨[], rfl, ?_⟩
      rw [stepped_iff.mp (.output (hsame.trans hopcode)), executedOutput_withMemory hrest]
      rfl
    | unknown hopcode hdecode =>
      refine ⟨[], rfl, ?_⟩
      rw [stepped_iff.mp (.unknown (hsame ▸ hopcode) (hsame ▸ hdecode)), hsame]
      rfl
    | unimplemented hdecode hop =>
      refine ⟨[], rfl, ?_⟩
      rw [stepped_iff.mp (.unimplemented (hsame ▸ hdecode) hop)]
      rfl
    | @executed op hdecode hop =>
      rw [if_neg (ne_outputOpcode_of_decode hdecode), hdecode] at hrest
      replace hrest : ∀ address ∈ s.operandReads op,
        memory.get address = s.memory.get address := hrest
      obtain ⟨changes, hmemory, hexecute⟩ := executed_withMemory hrest
      refine ⟨changes, hmemory, ?_⟩
      rw [stepped_iff.mp (.executed (hsame ▸ hdecode) hop), hexecute]
      rfl

end Cpu

end Mos6502
