/-
What the offset of a branch means.

Three places compute with it.  The assembler takes the distance from the instruction behind the
branch to the target, as a signed number that is not reduced, and gives up where a byte cannot
hold it.  The processor adds the byte with its sign to a program counter that has moved behind the
branch, and the disassembler adds two and the byte with its sign to the address, both modulo 65536.
The distance comes back from the byte as it was, so both of them find the target that the
assembler started from, also at the end of memory, where the instruction behind the branch is at
`$0000` and a distance cannot be counted around the end.

Whether a branch is taken is up to one flag, and which one and how it has to be is said for each
branch in `Mnemonic.condition?`.
-/
import Mos6502.Proofs.Decoding
import Mos6502.Proofs.Execution
import Mos6502.Proofs.Writes

namespace Mos6502

variable {m : Mnemonic} {labels : Labels} {pc target : UInt16} {operand : Text} {opcode : UInt8}
  {s : Cpu} {flag : Flags → Bool} {value : Bool}

/-! ### Encoding -/

namespace Mnemonic

/-- A branch has no other column than the one for branches. -/
theorem exists_encodings_of_condition? (h : m.condition? = some (flag, value)) :
    ∃ opcode, m.encodings = [(.branch, opcode)] := by
  cases m with
  | bpl | bmi | bvc | bvs | bcc | bcs | bne | beq => exact ⟨_, rfl⟩
  | _ => cases h

/-- So it is encoded there, whatever its operand looks like. -/
theorem encode_of_branch (hencodings : m.encodings = [(.branch, opcode)])
    (htarget : Operand.address? labels .emit operand = some target) :
    m.encode labels .emit pc operand = (Operand.offset pc target).map (opcode :: ·) := by
  have hother : ∀ c, c ≠ .branch → m.encodeAs? labels .emit pc operand c = none := by
    intro c hc
    have hnone : m.opcode? c = none := by
      have hne : (c == .branch) = false := by simpa using hc
      rw [opcode?, hencodings, List.lookup_cons, hne]
      rfl
    rw [encodeAs?, hnone]
  have hbranch : m.encodeAs? labels .emit pc operand .branch =
      some ((Operand.offset pc target).map (opcode :: ·)) := by
    have hsome : m.opcode? .branch = some opcode := by
      rw [opcode?, hencodings]
      rfl
    rw [encodeAs?, hsome]
    show Option.map _ (Option.map _ (Operand.address? labels .emit operand)) = _
    rw [htarget]
    rfl
  unfold encode
  simp [Column.tried, hother, hbranch]

end Mnemonic

/-! ### Executing -/

namespace Cpu

/-- A branch changes the program counter and nothing else, but that it is counted. -/
theorem step_of_branch (hbranch : m.condition? = some (flag, value))
    (hdecode : decode (s.memory.get s.pc) = some ⟨m, .relative⟩) :
    s.step =
      ({ s with
          pc := if flag s.flags = value then branchTarget s.pc (s.memory.get (s.pc + 1))
            else s.pc + 2
          instructions := s.instructions + 1 }, none) := by
  have htaken : m.IsTaken s.flags ↔ flag s.flags = value := Mnemonic.isTaken_iff hbranch
  cases m with
  | bpl | bmi | bvc | bvs | bcc | bcs | bne | beq =>
    rw [step_of_decode hdecode (by decide) (by decide)]
    simp only [executed, htaken]
    split <;> rfl
  | _ => cases hbranch

end Cpu

/-! ### All three together -/

/--
**The offset of a branch means the same to everybody.**  A branch whose operand stands for a
target is encoded exactly if the target is at most 128 bytes before and 127 behind the next
instruction, and is out of range otherwise.  Where its two bytes lie, the processor goes to the
target if the flag of the branch is as it has to be and behind the branch if not, and changes
nothing besides; and an instruction that is taken from them has that target.
-/
theorem branch_offset_agrees (hbranch : m.condition? = some (flag, value))
    (htarget : Operand.address? labels .emit operand = some target) :
    ((∃ bytes, m.encode labels .emit pc operand = .ok bytes) ↔
        -128 ≤ Operand.distance pc target ∧ Operand.distance pc target ≤ 127) ∧
      (¬ (-128 ≤ Operand.distance pc target ∧ Operand.distance pc target ≤ 127) →
        m.encode labels .emit pc operand = .error .branchRange) ∧
      ∀ bytes, m.encode labels .emit pc operand = .ok bytes →
        bytes.length = 2 ∧
          (∀ s : Cpu, s.pc = pc → s.memory.read pc 2 = bytes →
            s.step =
              ({ s with
                  pc := if flag s.flags = value then target else pc + 2
                  instructions := s.instructions + 1 }, none)) ∧
          ∀ more, ∃ i, Instruction.decode? pc (bytes ++ more) = some i ∧
            i.address = pc ∧ i.bytes = bytes ∧ i.target? = some target := by
  obtain ⟨opcode, hencodings⟩ := Mnemonic.exists_encodings_of_condition? hbranch
  have hencode : m.encode labels .emit pc operand =
      (Operand.offset pc target).map (opcode :: ·) := Mnemonic.encode_of_branch hencodings htarget
  have hdecode : decode opcode = some ⟨m, .relative⟩ :=
    decode_eq_some_iff.mpr ⟨.branch, by rw [hencodings]; exact List.mem_singleton_self _, rfl⟩
  by_cases hreach : -128 ≤ Operand.distance pc target ∧ Operand.distance pc target ≤ 127
  · have hoffset : Operand.offset pc target =
        .ok [UInt8.ofInt (Operand.distance pc target)] := if_pos hreach
    have hback := Operand.branchTarget_of_offset hoffset
    rw [hencode, hoffset]
    refine ⟨iff_of_true ⟨_, rfl⟩ hreach, fun hfar => absurd hreach hfar, ?_⟩
    intro bytes hbytes
    cases hbytes
    refine ⟨rfl, ?_, fun more => ?_⟩
    · intro s hpc hread
      subst hpc
      have hcells : s.memory.get s.pc = opcode ∧ s.memory.get (s.pc + 1) =
          UInt8.ofInt (Operand.distance s.pc target) := by
        simpa [Memory.read_two] using hread
      rw [Cpu.step_of_branch hbranch (hcells.1 ▸ hdecode), hcells.2, hback]
    · refine ⟨⟨pc, opcode, some ⟨m, .relative⟩, [UInt8.ofInt (Operand.distance pc target)]⟩, ?_,
        rfl, rfl, congrArg some hback⟩
      simp [Instruction.decode?, hdecode, Mode.operandLength]
  · have hoffset : Operand.offset pc target = .error .branchRange := if_neg hreach
    rw [hencode, hoffset]
    refine ⟨iff_of_false ?_ hreach, fun _ => rfl, ?_⟩
    · rintro ⟨bytes, hbytes⟩
      cases hbytes
    · intro bytes hbytes
      cases hbytes

/-- A branch to itself in the last cell of memory, with its offset in the first.  It is taken while
the zero flag is clear, and goes on at `$0001` when the flag is set. -/
theorem branch_offset_agrees_at_end :
    ∃ s : Cpu, s.pc = 0xffff ∧ s.memory.read 0xffff 2 = [0xd0, 0xfe] ∧
      Mnemonic.bne.encode ⟨[⟨"here".toList, 0xffff, 1⟩]⟩ .emit 0xffff "here".toList =
        .ok [0xd0, 0xfe] ∧
      s.step = ({ s with pc := 0xffff, instructions := 1 }, none) ∧
      ({ s with flags.zero := true } : Cpu).step =
        ({ s with flags.zero := true, pc := 0x0001, instructions := 1 }, none) := by
  let s : Cpu :=
    { Cpu.ofMemory ((Memory.empty.set 0xffff 0xd0).set 0x0000 0xfe) with pc := 0xffff }
  have hread : s.memory.read 0xffff 2 = [0xd0, 0xfe] := by
    show ((Memory.empty.set 0xffff 0xd0).set 0x0000 0xfe).read 0xffff 2 = _
    simp [Memory.read_two, Memory.get_set]
  have hencode : Mnemonic.bne.encode ⟨[⟨"here".toList, 0xffff, 1⟩]⟩ .emit 0xffff "here".toList =
      .ok [0xd0, 0xfe] := by
    rfl
  obtain ⟨-, -, hagrees⟩ := @branch_offset_agrees .bne
    ⟨[⟨"here".toList, 0xffff, 1⟩]⟩ 0xffff 0xffff "here".toList Flags.zero false rfl
    (by decide +kernel)
  obtain ⟨-, hstep, -⟩ := hagrees _ hencode
  exact ⟨s, rfl, hread, hencode, hstep s rfl hread,
    hstep { s with flags.zero := true } rfl hread⟩

end Mos6502
