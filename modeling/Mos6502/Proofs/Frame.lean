/-
What an instruction leaves alone.

A `Part` of a processor is a register or a flag, and `Part.changers` lists, for each part, the
instructions that may change it.  That nothing else does is shown from below: what instructions
are made of is a handful of functions on states, and each of them is within a few parts (`Within`).
What an instruction puts together from them is within the parts of them all, and these are parts
that it may change.

The zero and negative flags are about the byte that the instruction leaves where it is about, be
this a register or a cell, and this also after decimal arithmetic.  The break flag is set by a
reset, and what is pulled has it set, so it never goes away.
-/
import Mathlib.Data.FinEnum
import Mos6502.Proofs.Flow

namespace Mos6502

/-- A register or a flag. -/
inductive Part where
  | a | x | y | sp
  | negative | overflow | brk | decimal | interrupt | zero | carry
deriving DecidableEq, Repr

namespace Part

/-- The instructions that may change a part.  Shifts and rotations change the accumulator too,
where they work on it. -/
def changers : Part → List Mnemonic
  | a => [.adc, .sbc, .and, .ora, .eor, .lda, .txa, .tya, .pla]
  | x => [.ldx, .tax, .tsx, .inx, .dex]
  | y => [.ldy, .tay, .iny, .dey]
  | sp => [.txs, .pha, .php, .pla, .plp, .jsr, .rts, .rti]
  | overflow => [.adc, .sbc, .bit, .clv, .plp, .rti]
  | carry =>
    [.adc, .sbc, .cmp, .cpx, .cpy, .asl, .lsr, .rol, .ror, .clc, .sec, .plp, .rti]
  | decimal => [.cld, .sed, .plp, .rti]
  | interrupt | brk => [.plp, .rti]
  | negative | zero =>
    [.adc, .sbc, .and, .ora, .eor, .cmp, .cpx, .cpy, .bit, .lda, .ldx, .ldy,
     .asl, .lsr, .rol, .ror, .inc, .dec, .inx, .iny, .dex, .dey,
     .tax, .tay, .txa, .tya, .tsx, .pla, .plp, .rti]

end Part

/-- Whether an instruction may change a part. -/
def Operation.mayChange (op : Operation) (part : Part) : Prop :=
  op.mnemonic ∈ part.changers ∨
    part = .a ∧ op.mnemonic.hasAccumulatorForm = true ∧ op.mode = .accumulator

variable {m : Mnemonic} {mode : Mode} {op : Operation} {opcode : UInt8} {s t u : Cpu}
  {parts more : List Part} {part : Part}

/-- Only what has a form for the accumulator is decoded to work on it. -/
theorem hasAccumulatorForm_of_decode (h : decode opcode = some ⟨m, .accumulator⟩) :
    m.hasAccumulatorForm = true := by
  obtain ⟨c, -, hmode⟩ := exists_column_of_decode h
  cases c with
  | single =>
    by_contra hform
    rw [Column.mode, if_neg hform] at hmode
    cases hmode
  | _ => cases hmode

namespace Cpu

/-- What is in a part: a byte in a register, and zero or one in a flag. -/
def look (s : Cpu) : Part → UInt8
  | .a => s.a
  | .x => s.x
  | .y => s.y
  | .sp => s.sp
  | .negative => s.flags.negative.toUInt8
  | .overflow => s.flags.overflow.toUInt8
  | .brk => s.flags.brk.toUInt8
  | .decimal => s.flags.decimal.toUInt8
  | .interrupt => s.flags.interrupt.toUInt8
  | .zero => s.flags.zero.toUInt8
  | .carry => s.flags.carry.toUInt8

/-! ### What instructions are made of -/

/-- From one state to another nothing changed outside of some parts. -/
def Within (parts : List Part) (s t : Cpu) : Prop :=
  ∀ part, part ∉ parts → t.look part = s.look part

theorem Within.trans (h : Within parts s t) (h' : Within more t u) : Within (parts ++ more) s u := by
  intro part hpart
  rw [List.mem_append, not_or] at hpart
  exact (h' part hpart.2).trans (h part hpart.1)

theorem within_jump (s : Cpu) (address : UInt16) : Within [] s (s.jump address) := by
  intro part _
  cases part <;> rfl

theorem within_raise (s : Cpu) (signal : Signal) : Within [] s (s.raise signal) := by
  intro part _
  cases part <;> rfl

theorem within_store (s : Cpu) (address : UInt16) (value : UInt8) :
    Within [] s (s.store address value) := by
  intro part _
  cases part <;> rfl

theorem within_result (s : Cpu) (value : UInt8) : Within [.negative, .zero] s (s.result value) := by
  intro part hpart
  cases part with
  | negative | zero => simp at hpart
  | _ => rfl

theorem within_loadA (s : Cpu) (value : UInt8) :
    Within [.a, .negative, .zero] s (s.loadA value) := by
  intro part hpart
  cases part with
  | a | negative | zero => simp at hpart
  | _ => rfl

theorem within_loadX (s : Cpu) (value : UInt8) :
    Within [.x, .negative, .zero] s (s.loadX value) := by
  intro part hpart
  cases part with
  | x | negative | zero => simp at hpart
  | _ => rfl

theorem within_loadY (s : Cpu) (value : UInt8) :
    Within [.y, .negative, .zero] s (s.loadY value) := by
  intro part hpart
  cases part with
  | y | negative | zero => simp at hpart
  | _ => rfl

theorem within_accumulate (s : Cpu) (sum : Sum) :
    Within [.a, .negative, .overflow, .zero, .carry] s (s.accumulate sum) := by
  intro part hpart
  cases part with
  | a | negative | overflow | zero | carry => simp at hpart
  | _ => rfl

theorem within_compare (s : Cpu) (register value : UInt8) :
    Within [.negative, .zero, .carry] s (s.compare register value) := by
  intro part hpart
  cases part with
  | negative | zero | carry => simp at hpart
  | _ => rfl

theorem within_push (s : Cpu) (value : UInt8) : Within [.sp] s (s.push value) := by
  intro part hpart
  rw [push_eq]
  cases part with
  | sp => simp at hpart
  | _ => rfl

theorem within_drop (s : Cpu) : Within [.sp] s s.drop := by
  intro part hpart
  rw [drop_eq]
  cases part with
  | sp => simp at hpart
  | _ => rfl

theorem within_setStatus (s : Cpu) (value : UInt8) :
    Within [.negative, .overflow, .brk, .decimal, .interrupt, .zero, .carry] s
      (s.setStatus value) := by
  intro part hpart
  cases part with
  | a | x | y | sp => rfl
  | _ => simp at hpart

theorem within_replace (s : Cpu) (mode : Mode) (address : UInt16) (value : UInt8) :
    Within (if mode = .accumulator then [.a, .negative, .zero] else [.negative, .zero]) s
      (s.replace mode address value) := by
  cases mode with
  | accumulator => exact within_loadA s value
  | _ => exact (within_store s address value).trans (within_result _ value)

theorem within_replaceShifted (s : Cpu) (mode : Mode) (address : UInt16) (shifted : Shifted) :
    Within (.carry :: if mode = .accumulator then [.a, .negative, .zero] else [.negative, .zero]) s
      (s.replaceShifted mode address shifted) := by
  have hcarry : Within [.carry] s
      { s with flags := { s.flags with carry := shifted.carry } } := by
    intro part hpart
    cases part with
    | carry => simp at hpart
    | _ => rfl
  exact hcarry.trans (within_replace _ mode address shifted.value)

/-! ### What an instruction may change -/

/-- Who is within parts that an instruction may change changes nothing else. -/
theorem Within.mayChange (h : Within parts s t) (hparts : ∀ part ∈ parts, op.mayChange part)
    (hlook : t.look part ≠ s.look part) : op.mayChange part :=
  hparts part (by_contra fun hpart => hlook (h part hpart))

theorem Within.mem_changers (h : Within parts s t) (hparts : ∀ part ∈ parts, m ∈ part.changers)
    (hlook : t.look part ≠ s.look part) : Operation.mayChange ⟨m, mode⟩ part :=
  h.mayChange (fun part hpart => .inl (hparts part hpart)) hlook

/-- What puts a byte back where its operand was may change the accumulator only where it has a
form for it. -/
theorem mayChange_of_mem_replaced (hdecode : decode opcode = some ⟨m, mode⟩)
    (hzero : m ∈ Part.zero.changers)
    (hpart : part ∈ if mode = .accumulator then [Part.a, .negative, .zero] else [.negative, .zero]) :
    Operation.mayChange ⟨m, mode⟩ part := by
  split at hpart
  · subst mode
    simp only [List.mem_cons, List.not_mem_nil, or_false] at hpart
    rcases hpart with rfl | rfl | rfl
    · exact .inr ⟨rfl, hasAccumulatorForm_of_decode hdecode, rfl⟩
    · exact .inl hzero
    · exact .inl hzero
  · simp only [List.mem_cons, List.not_mem_nil, or_false] at hpart
    rcases hpart with rfl | rfl <;> exact .inl hzero

/-- An instruction changes only what it may change. -/
theorem mayChange_of_executed (hdecode : decode opcode = some op)
    (hlook : (s.executed op).look part ≠ s.look part) : op.mayChange part := by
  obtain ⟨m, mode⟩ := op
  -- Whatever an instruction does, it does behind itself.
  have hnext := s.within_jump (s.pc + UInt16.ofNat (Operation.size ⟨m, mode⟩))
  cases m with
  | adc | sbc => exact (hnext.trans (within_accumulate _ _)).mem_changers (by decide) hlook
  | and | ora | eor | lda | txa | tya =>
    exact (hnext.trans (within_loadA _ _)).mem_changers (by decide) hlook
  | ldx | tax | tsx | inx | dex =>
    exact (hnext.trans (within_loadX _ _)).mem_changers (by decide) hlook
  | ldy | tay | iny | dey =>
    exact (hnext.trans (within_loadY _ _)).mem_changers (by decide) hlook
  | cmp | cpx | cpy => exact (hnext.trans (within_compare _ _ _)).mem_changers (by decide) hlook
  | asl | lsr | rol | ror =>
    refine (hnext.trans (within_replaceShifted _ mode _ _)).mayChange ?_ hlook
    rw [List.nil_append, List.forall_mem_cons]
    exact ⟨.inl (by simp [Part.changers]), fun part => mayChange_of_mem_replaced hdecode (by decide)⟩
  | inc | dec =>
    exact (hnext.trans (within_replace _ mode _ _)).mayChange
      (fun part => mayChange_of_mem_replaced hdecode (by decide)) hlook
  | sta | stx | sty => exact (hnext.trans (within_store _ _ _)).mem_changers (by decide) hlook
  | pha | php => exact (hnext.trans (within_push _ _)).mem_changers (by decide) hlook
  | pla =>
    exact ((hnext.trans (within_drop _)).trans (within_loadA _ _)).mem_changers (by decide) hlook
  | plp =>
    exact ((hnext.trans (within_drop _)).trans (within_setStatus _ _)).mem_changers (by decide)
      hlook
  | jsr =>
    exact (((hnext.trans (within_push _ _)).trans (within_push _ _)).trans
      (within_jump _ _)).mem_changers (by decide) hlook
  | rts =>
    exact (((hnext.trans (within_drop _)).trans (within_drop _)).trans
      (within_jump _ _)).mem_changers (by decide) hlook
  | rti =>
    exact (((((hnext.trans (within_drop _)).trans (within_setStatus _ _)).trans
      (within_drop _)).trans (within_drop _)).trans (within_jump _ _)).mem_changers (by decide)
      hlook
  | bpl | bmi | bvc | bvs | bcc | bcs | bne | beq =>
    simp only [executed] at hlook
    split at hlook
    · exact (hnext.trans (within_jump _ _)).mem_changers (by decide) hlook
    · exact hnext.mem_changers (by decide) hlook
  | jmp => exact (hnext.trans (within_jump _ _)).mem_changers (by decide) hlook
  | brk => exact (hnext.trans (within_raise _ _)).mem_changers (by decide) hlook
  | cli | sei | nop => exact hnext.mem_changers (by decide) hlook
  | bit | txs | clc | sec | clv | cld | sed =>
    cases part <;> first | exact absurd rfl hlook | exact .inl (by simp [Part.changers])

/-! ### What the zero and negative flags are about -/

/-- The byte that an instruction leaves where it puts its result, seen in the state behind it.
Comparisons and tests have no result, and who takes the flags off the stack has none either. -/
def delivered? (s : Cpu) (op : Operation) (t : Cpu) : Option UInt8 :=
  match op.mnemonic with
  | .adc | .sbc | .and | .ora | .eor | .lda | .txa | .tya | .pla => some t.a
  | .ldx | .tax | .tsx | .inx | .dex => some t.x
  | .ldy | .tay | .iny | .dey => some t.y
  | .asl | .lsr | .rol | .ror | .inc | .dec =>
    some (if op.mode = .accumulator then t.a else t.memory.get (s.effectiveAddress op.mode))
  | _ => none

end Cpu

/-- The two flags that are about a byte tell its highest bit, and whether it is zero. -/
theorem Flags.ofResult_tells (flags : Flags) (byte : UInt8) :
    (flags.ofResult byte).negative = byte.toNat.testBit 7 ∧
      (flags.ofResult byte).zero = (byte == 0) := by
  have hbit : ∀ byte : UInt8, (byte &&& 0x80 != 0) = byte.toNat.testBit 7 := by decide +kernel
  exact ⟨hbit byte, rfl⟩

/-- A status byte that is taken over has its bit 4 set, so the break flag is. -/
theorem Flags.brk_ofByte (byte : UInt8) : (ofByte (byte ||| 0x30)).brk = true := by
  have hbit : ∀ byte : UInt8, ((byte ||| 0x30) &&& 0x10 != 0) = true := by decide +kernel
  exact hbit byte

/-- Bit 5 of the status byte is always set, and bit 4 where the break flag is. -/
theorem Flags.toByte_and (flags : Flags) (hbrk : flags.brk = true) :
    flags.toByte &&& 0x30 = 0x30 := by
  obtain ⟨n, v, b, d, i, z, c⟩ := flags
  obtain rfl : b = true := hbrk
  cases n <;> cases v <;> cases d <;> cases i <;> cases z <;> cases c <;> rfl

namespace Cpu

/-- What puts a byte back where its operand was leaves it there, and tells about it. -/
theorem replace_tells (s : Cpu) (mode : Mode) (address : UInt16) (value : UInt8) :
    (if mode = .accumulator then (s.replace mode address value).a
        else (s.replace mode address value).memory.get address) = value ∧
      ∃ flags : Flags, (s.replace mode address value).flags = flags.ofResult value := by
  cases mode with
  | accumulator => exact ⟨rfl, s.flags, rfl⟩
  | _ => exact ⟨(Memory.get_set ..).trans (if_pos rfl), s.flags, rfl⟩

theorem delivered?_executed (s : Cpu) (op : Operation) (hzero : op.mnemonic ∈ Part.zero.changers)
    (hop : op.mnemonic ∉ [Mnemonic.cmp, .cpx, .cpy, .bit, .plp, .rti]) :
    ∃ byte, s.delivered? op (s.executed op) = some byte ∧
      ∃ flags : Flags, (s.executed op).flags = flags.ofResult byte := by
  obtain ⟨m, mode⟩ := op
  cases m with
  | cmp | cpx | cpy | bit | plp | rti => exact absurd hop (by simp)
  | asl | lsr | rol | ror | inc | dec =>
    obtain ⟨hbyte, hflags⟩ := replace_tells _ mode _ _
    exact ⟨_, congrArg some hbyte, hflags⟩
  | adc | sbc | and | ora | eor | lda | txa | tya | pla | ldx | tax | tsx | inx | dex
  | ldy | tay | iny | dey => exact ⟨_, rfl, _, rfl⟩
  | _ => exact absurd hzero (by simp [Part.changers])

/-- The output pseudo-operation changes no part. -/
theorem look_executedOutput (s : Cpu) (part : Part) : s.executedOutput.look part = s.look part := by
  cases part <;> rfl

/-! ### The break flag -/

theorem brk_of_look (hlook : t.look .brk = s.look .brk) (hbrk : s.flags.brk = true) :
    t.flags.brk = true := by
  have hinj : ∀ b : Bool, b.toUInt8 = true.toUInt8 → b = true := by decide
  exact hinj _ (hlook.trans (congrArg Bool.toUInt8 hbrk))

/-- The break flag stays set: only a status byte that is pulled could clear it, and does not. -/
theorem brk_executed (hdecode : decode opcode = some op) (hbrk : s.flags.brk = true) :
    (s.executed op).flags.brk = true := by
  by_cases hlook : (s.executed op).look .brk = s.look .brk
  · exact brk_of_look hlook hbrk
  · obtain ⟨m, mode⟩ := op
    rcases mayChange_of_executed hdecode hlook with hm | ⟨hpart, -⟩
    · simp only [Part.changers, List.mem_cons, List.not_mem_nil, or_false] at hm
      rcases hm with rfl | rfl
      · exact Flags.brk_ofByte _
      · simp only [executed, drop_eq]
        exact Flags.brk_ofByte _
    · cases hpart

theorem brk_step (hbrk : s.flags.brk = true) : s.step.1.flags.brk = true := by
  cases hstep : s.step with
  | mk next outcome =>
    cases stepped_iff.mpr hstep with
    | output => exact brk_of_look (s.look_executedOutput .brk) hbrk
    | unknown | unimplemented => exact hbrk
    | executed hdecode => exact brk_executed hdecode hbrk

theorem brk_reached (hbrk : s.flags.brk = true) (n : Nat) : (s.reached n).flags.brk = true := by
  induction n generalizing s with
  | zero => exact hbrk
  | succ n ih => exact ih (brk_step hbrk)

end Cpu

/--
**An instruction changes its own registers and flags, and no others.**  A step that succeeds
changes a part only where a known instruction was executed that may change it.  Where such an
instruction may change the zero flag, and is no comparison or test and pulls no flags, the zero
and negative flags tell about the byte that it has left where its result goes, be this a register
or a cell, and be the arithmetic binary or decimal.

Hence bits 4 and 5 of the status byte are set in every state after a reset, whatever came of the
steps that led there.
-/
theorem instruction_changes_own_parts (s : Cpu) :
    (∀ next, s.step = (next, none) →
        (∀ part, next.look part ≠ s.look part →
          ∃ op, decode (s.memory.get s.pc) = some op ∧ op.mayChange part) ∧
        ∀ op, decode (s.memory.get s.pc) = some op → op.mnemonic ∈ Part.zero.changers →
          op.mnemonic ∉ [Mnemonic.cmp, .cpx, .cpy, .bit, .plp, .rti] →
            ∃ byte, s.delivered? op next = some byte ∧
              next.flags.negative = byte.toNat.testBit 7 ∧ next.flags.zero = (byte == 0)) ∧
      ∀ n, (s.reset.reached n).status &&& 0x30 = 0x30 := by
  refine ⟨fun next hstep => ?_, fun n => Flags.toByte_and _ (Cpu.brk_reached rfl n)⟩
  generalize hr : (next, (none : Option Fault)) = r at hstep
  cases Cpu.stepped_iff.mpr hstep with
  | output hopcode =>
    obtain rfl := (Prod.mk.inj hr).1
    refine ⟨fun part hlook => absurd (s.look_executedOutput part) hlook, fun op hdecode => ?_⟩
    rw [hopcode, decode_outputOpcode] at hdecode
    cases hdecode
  | unknown | unimplemented => cases (Prod.mk.inj hr).2
  | executed hdecode =>
    obtain rfl := (Prod.mk.inj hr).1
    refine ⟨fun part hlook => ⟨_, hdecode, Cpu.mayChange_of_executed hdecode hlook⟩, ?_⟩
    intro op hdecode' hzero hop
    obtain rfl := Option.some.inj (hdecode.symm.trans hdecode')
    obtain ⟨byte, hbyte, flags, hflags⟩ := s.delivered?_executed _ hzero hop
    obtain ⟨hnegative, hz⟩ := flags.ofResult_tells byte
    rw [← hflags] at hnegative hz
    exact ⟨byte, hbyte, hnegative, hz⟩

/-- A decimal sum of zero: `ADC #$01` on `$99` sets the zero flag, though the binary sum is not
zero, and leaves the index registers alone. -/
theorem instruction_changes_own_parts_decimal_zero :
    ∃ s next : Cpu, s.flags.decimal = true ∧ s.a = 0x99 ∧ s.memory.read s.pc 2 = [0x69, 0x01] ∧
      s.step = (next, none) ∧ next.a = 0x00 ∧ next.flags.zero = true ∧
      next.flags.negative = false ∧ next.x = s.x ∧ next.y = s.y ∧
      (s.reset.reached 1).status &&& 0x30 = 0x30 := by
  let s : Cpu :=
    { Cpu.ofMemory ((Memory.empty.set 0x0600 0x69).set 0x0601 0x01) with
      a := 0x99, flags := Flags.ofByte 0x38 }
  have hread : s.memory.read s.pc 2 = [0x69, 0x01] := by
    show ((Memory.empty.set 0x0600 0x69).set 0x0601 0x01).read 0x0600 2 = _
    simp [Memory.read, List.range_succ, Memory.get_set]
  have hopcode : s.memory.get s.pc = 0x69 := by
    show ((Memory.empty.set 0x0600 0x69).set 0x0601 0x01).get 0x0600 = _
    simp [Memory.get_set]
  have hoperand : s.memory.get (s.pc + 1) = 0x01 := by
    show ((Memory.empty.set 0x0600 0x69).set 0x0601 0x01).get 0x0601 = _
    simp
  have hdecode : decode (s.memory.get s.pc) = some ⟨.adc, .immediate⟩ := by
    rw [hopcode]
    decide +kernel
  have hstep := Cpu.step_of_decode hdecode (by decide) (by decide)
  have ha : (s.executed ⟨.adc, .immediate⟩).a = 0x00 := by
    show (Alu.addDecimal 0x99 (s.memory.get (s.pc + 1)) false).value = 0x00
    rw [hoperand]
    decide
  obtain ⟨hsteps, hstatus⟩ := instruction_changes_own_parts s
  obtain ⟨hparts, hflags⟩ := hsteps _ hstep
  obtain ⟨byte, hbyte, hnegative, hzero⟩ := hflags _ hdecode (by decide) (by decide)
  obtain rfl : byte = 0x00 := (Option.some.inj hbyte).symm.trans ha
  have hkept : ∀ part, part ≠ .a → Mnemonic.adc ∉ part.changers →
      (s.executed ⟨.adc, .immediate⟩).count.look part = s.look part := by
    intro part ha hpart
    by_contra hlook
    obtain ⟨op, hop, hchange⟩ := hparts part hlook
    obtain rfl := Option.some.inj (hdecode.symm.trans hop)
    exact hchange.elim hpart fun hform => ha hform.1
  exact ⟨s, _, rfl, rfl, hread, hstep, ha, hzero, hnegative, hkept .x (by decide) (by decide),
    hkept .y (by decide) (by decide), hstatus 1⟩

end Mos6502
