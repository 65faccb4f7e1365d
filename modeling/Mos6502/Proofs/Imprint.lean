/-
What an instruction writes.

`Cpu.writes` lists the writes of the next instruction, in order: a store writes a register to its
address, an instruction that works on its operand in place writes the result back, and a push
writes where the stack pointer points.  Nothing else writes, and what cannot be executed writes
nothing.

A step does to the memory what these writes do, no more and no less (`memory_step`), so it tells
whoever watches exactly them.  Where an address comes from is said once more in plain numbers: in
page zero it is counted modulo 256, and everywhere else modulo 65536.
-/
import Mathlib.Data.FinEnum
import Mos6502.Proofs.Flow
import Mos6502.Proofs.Writes

namespace Mos6502

/-- What an instruction that works on its operand in place makes of it, with the carry that it
finds.  A rotation puts the carry in where a shift puts a zero. -/
def Mnemonic.modified? (m : Mnemonic) (value : UInt8) (carry : Bool) : Option UInt8 :=
  match m with
  | .inc => some (value + 1)
  | .dec => some (value - 1)
  | .asl => some (2 * value)
  | .lsr => some (value / 2)
  | .rol => some (2 * value + carry.toUInt8)
  | .ror => some (value / 2 + 0x80 * carry.toUInt8)
  | _ => none

/-- The word behind a pointer in page zero, where `$00` follows on `$FF`. -/
def Memory.pointer (memory : Memory) (place : Nat) : UInt16 :=
  wordOf (memory.get (UInt16.ofNat (place % 0x100)))
    (memory.get (UInt16.ofNat ((place + 1) % 0x100)))

/-- A place in page zero is counted modulo 256. -/
theorem Memory.pointer_mod (memory : Memory) (place : Nat) :
    memory.pointer (place % 0x100) = memory.pointer place := by
  rw [pointer, Nat.mod_mod, Nat.mod_add_mod, pointer]

variable {op : Operation} {opcode : UInt8} {s : Cpu} {mode : Mode}

/-- A shift doubles or halves a byte, and a rotation adds the carry where there is room. -/
theorem Alu.value_shifted : ∀ (value : UInt8) (carry : Bool),
    (shiftLeft value).value = 2 * value ∧ (shiftRight value).value = value / 2 ∧
      (rotateLeft value carry).value = 2 * value + carry.toUInt8 ∧
      (rotateRight value carry).value = value / 2 + 0x80 * carry.toUInt8 := by
  decide +kernel

namespace Cpu

/-! ### The writes of an instruction -/

/-- What a known instruction writes, in order. -/
def operationWrites (s : Cpu) (op : Operation) : List Change :=
  match op.mnemonic with
  | .sta => [⟨s.effectiveAddress op.mode, s.a⟩]
  | .stx => [⟨s.effectiveAddress op.mode, s.x⟩]
  | .sty => [⟨s.effectiveAddress op.mode, s.y⟩]
  | .pha => [⟨stackAddress s.sp, s.a⟩]
  | .php => [⟨stackAddress s.sp, s.status ||| 0x30⟩]
  | .jsr =>
    [⟨stackAddress s.sp, highByte (s.pc + 2)⟩, ⟨stackAddress (s.sp - 1), lowByte (s.pc + 2)⟩]
  | m =>
    if op.mode = .accumulator then []
    else
      let address := s.effectiveAddress op.mode
      ((m.modified? (s.memory.get address) s.flags.carry).map (Change.mk address)).toList

/-- What the next instruction writes, in order. -/
def writes (s : Cpu) : List Change :=
  ((decode (s.memory.get s.pc)).map s.operationWrites).getD []

theorem memory_replace (s : Cpu) (mode : Mode) (address : UInt16) (value : UInt8) :
    (s.replace mode address value).memory =
      s.memory.apply (if mode = .accumulator then [] else [⟨address, value⟩]) := by
  cases mode <;> rfl

/-- What a call leaves on the stack is the address of its last byte. -/
theorem executed_call (s : Cpu) :
    s.executed ⟨.jsr, .absolute⟩ = ((((s.jump (s.pc + 3)).push (highByte (s.pc + 2))).push
      (lowByte (s.pc + 2))).jump s.operandWord) := by
  have hlast : s.pc + 3 - 1 = s.pc + 2 := by
    rw [UInt16.sub_eq_add_neg, UInt16.add_assoc]
    rfl
  rw [← hlast]
  rfl

theorem memory_executed (hdecode : decode opcode = some op) :
    (s.executed op).memory = s.memory.apply (s.operationWrites op) := by
  obtain ⟨m, mode⟩ := op
  cases m with
  | asl | lsr | rol | ror | inc | dec =>
    obtain ⟨hleft, hright, hleft', hright'⟩ := Alu.value_shifted (s.operand mode) s.flags.carry
    simp only [executed, replaceShifted, memory_replace, operationWrites, Mnemonic.modified?,
      hleft, hright, hleft', hright']
    split
    · rfl
    · rw [s.operand_of_ne ‹_›]
      rfl
  | sta | stx | sty => rfl
  | pha | php =>
    simp only [executed, push_eq]
    rfl
  | jsr =>
    obtain rfl := mode_of_call hdecode
    rw [executed_call]
    simp only [push_eq]
    rfl
  | bpl | bmi | bvc | bvs | bcc | bcs | bne | beq =>
    simp only [executed, apply_ite memory, operationWrites, Mnemonic.modified?, Option.map_none,
      Option.toList_none, ite_self]
    exact ite_self s.memory
  | _ =>
    simp only [executed, drop_eq, operationWrites, Mnemonic.modified?, Option.map_none,
      Option.toList_none, ite_self]
    rfl

/-- A step does to the memory what its writes do. -/
theorem memory_step (s : Cpu) : s.step.1.memory = s.memory.apply s.writes := by
  cases hstep : s.step with
  | mk next outcome =>
    cases stepped_iff.mpr hstep with
    | output hopcode =>
      rw [writes, hopcode, decode_outputOpcode]
      rfl
    | unknown hopcode hdecode =>
      rw [writes, hdecode]
      rfl
    | unimplemented hdecode hop =>
      rw [writes, hdecode, Option.map_some, Option.getD_some]
      rcases hop with hop | hop <;> simp [operationWrites, hop, Mnemonic.modified?, jump]
    | executed hdecode hop =>
      rw [writes, hdecode]
      exact memory_executed hdecode

/-- No instruction writes a cell twice. -/
theorem nodup_operationWrites (s : Cpu) (op : Operation) :
    ((s.operationWrites op).map Change.address).Nodup := by
  unfold operationWrites
  split
  case h_6 =>
    have hne : s.sp ≠ s.sp - 1 := by
      intro h
      have hsame := congrArg UInt8.toNat h
      simp only [UInt8.toNat_sub, UInt8.reduceToNat] at hsame
      omega
    simpa [stackAddress_inj] using hne
  case h_7 =>
    split
    · exact List.nodup_nil
    · simp only
      cases Mnemonic.modified? _ _ _ <;> simp
  all_goals exact List.nodup_singleton _

theorem nodup_writes (s : Cpu) : (s.writes.map Change.address).Nodup := by
  unfold writes
  cases decode (s.memory.get s.pc) with
  | none => exact List.nodup_nil
  | some op => exact s.nodup_operationWrites op

/-! ### Where an address comes from -/

theorem zeroPageWord_eq (s : Cpu) (place : UInt8) :
    s.zeroPageWord place = s.memory.pointer place.toNat := by
  have hword : ∀ byte : UInt8, UInt16.ofNat byte.toNat = byte.toUInt16 := by
    intro byte
    rw [← UInt16.toNat_inj, UInt16.toNat_ofNat', UInt8.toNat_toUInt16]
    exact Nat.mod_eq_of_lt (Nat.lt_trans byte.toNat_lt (by decide))
  have hnext : (place.toNat + 1) % 0x100 = (place + 1).toNat := (UInt8.toNat_add place 1).symm
  rw [Memory.pointer, hnext, Nat.mod_eq_of_lt place.toNat_lt, hword, hword, zeroPageWord]

theorem toUInt16_lt (byte : UInt8) : byte.toUInt16 < 0x0100 :=
  UInt16.lt_iff_toNat_lt.mpr byte.toNat_lt

end Cpu

/--
**A step writes what its instruction says, and nothing else.**  Whether it succeeds or not, a cell
that is not among the writes of the instruction is as before, one that is among them holds the
value written there, and who records the changes has seen exactly these writes, in order.

The address that an operand is found to name, once the opcode has been taken, is the one that it
names seen from the opcode.  In page zero it is in page zero, with an index as well, and so are
both bytes of a pointer.  With an index behind an absolute address or a pointer, an address is
counted modulo 65536.
-/
theorem step_writes_exactly (s : Cpu) :
    (∀ address, address ∉ s.writes.map Change.address →
        s.step.1.memory.get address = s.memory.get address) ∧
      (∀ change ∈ s.writes, s.step.1.memory.get change.address = change.value) ∧
      s.step.1.memory.recorded = s.memory.recorded.map (· ++ s.writes.toArray) ∧
      (∀ mode, (s.fetchByte.2.operandAddress mode).1 = s.effectiveAddress mode) ∧
      (∀ mode ∈ [Mode.zeroPage, .zeroPageX, .zeroPageY], s.effectiveAddress mode < 0x0100) ∧
      s.effectiveAddress .indirectX = s.memory.pointer (s.operandByte.toNat + s.x.toNat) ∧
      (s.effectiveAddress .indirectY).toNat =
        ((s.memory.pointer s.operandByte.toNat).toNat + s.y.toNat) % 0x10000 ∧
      (s.effectiveAddress .absoluteX).toNat = (s.operandWord.toNat + s.x.toNat) % 0x10000 ∧
      (s.effectiveAddress .absoluteY).toNat = (s.operandWord.toNat + s.y.toNat) % 0x10000 := by
  rw [s.memory_step]
  refine ⟨fun address h => Memory.get_apply_of_notMem h _,
    fun change h => Memory.get_apply_of_mem s.nodup_writes h _,
    Memory.recorded_apply _ _, fun mode => congrArg Prod.fst (s.operandAddress_eq mode),
    ?_, ?_, ?_, ?_, ?_⟩
  · intro mode hmode
    simp only [List.mem_cons, List.not_mem_nil, or_false] at hmode
    rcases hmode with rfl | rfl | rfl <;> exact Cpu.toUInt16_lt _
  · rw [← Memory.pointer_mod]
    exact s.zeroPageWord_eq (s.operandByte + s.x)
  · rw [← s.zeroPageWord_eq]
    exact UInt16.toNat_add _ _
  · exact UInt16.toNat_add _ _
  · exact UInt16.toNat_add _ _

/-- A call whose two pushes overwrite its own operand: `JSR $1234` in the last cells of the stack. -/
theorem step_writes_exactly_over_operand :
    ∃ s : Cpu, s.pc = 0x01fd ∧ s.memory.read 0x01fd 3 = [0x20, 0x34, 0x12] ∧
      s.step.1.memory.read 0x01fd 3 = [0x20, 0xff, 0x01] ∧
      s.step.1.memory.recorded = [#[⟨0x01ff, 0x01⟩, ⟨0x01fe, 0xff⟩]] := by
  let memory := ((Memory.empty.set 0x01fd 0x20).set 0x01fe 0x34).set 0x01ff 0x12
  let s : Cpu := { Cpu.ofMemory memory.record with pc := 0x01fd }
  have hget : ∀ address, s.memory.get address = memory.get address := fun _ => rfl
  have hread : s.memory.read 0x01fd 3 = [0x20, 0x34, 0x12] := by
    simp [Memory.read, List.range_succ, hget, memory, Memory.get_set]
  have hdecode : decode (s.memory.get s.pc) = some ⟨.jsr, .absolute⟩ := by
    have hopcode : s.memory.get s.pc = 0x20 := by
      show memory.get 0x01fd = 0x20
      simp [memory, Memory.get_set]
    rw [hopcode]
    decide +kernel
  have hwrites : s.writes = [⟨0x01ff, 0x01⟩, ⟨0x01fe, 0xff⟩] := by
    rw [Cpu.writes, hdecode]
    decide
  obtain ⟨hother, hwritten, hseen, -⟩ := step_writes_exactly s
  rw [hwrites] at hother hwritten hseen
  have hopcode : s.step.1.memory.get 0x01fd = 0x20 := by
    rw [hother 0x01fd (by decide), hget]
    simp [memory, Memory.get_set]
  have hlow : s.step.1.memory.get 0x01fe = 0xff := hwritten ⟨0x01fe, 0xff⟩ (by simp)
  have hhigh : s.step.1.memory.get 0x01ff = 0x01 := hwritten ⟨0x01ff, 0x01⟩ (by simp)
  refine ⟨s, rfl, hread, ?_, hseen⟩
  simp [Memory.read, List.range_succ, hopcode, hlow, hhigh]

end Mos6502
