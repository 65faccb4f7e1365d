/-
Where the parts of a disassembly lie.

Bytes that are taken apart are cut behind every part, and what is behind a cut comes apart as if
nothing were in front of it (`disassemble_tail`).  So each part has the address of its first byte,
and whether it is an instruction is told by its first byte and the number of bytes that are left.

What follows on the bytes makes a difference to one kind of part only: an opcode that the end has
cut short (`IsCut`).  Where there is none, bytes may be taken apart piece by piece.  Where there is
one, enough bytes behind it make an instruction of it, so there the pieces do not fit together.
-/
import Mos6502.Proofs.Decoding

namespace Mos6502

namespace Instruction

variable {start : UInt16} {bytes : List UInt8} {i : Instruction} {before behind : List Instruction}

/-- A documented opcode that stands for itself, as its operand would go past the end. -/
def IsCut (i : Instruction) : Prop :=
  i.isData = true ∧ (decode i.opcode).isSome = true

/-! ### One part -/

theorem Whole.size_eq (h : Whole i) : i.size = i.bytes.length := by
  cases h with
  | data address value => rfl
  | code address hdecode hoperand => exact congrArg (· + 1) hoperand.symm

/-- What is no byte of data is what the table says of its opcode. -/
theorem Whole.operation_eq (h : Whole i) (hcode : i.isData = false) :
    i.operation = decode i.opcode := by
  cases h with
  | data address value => cases hcode
  | code address hdecode hoperand => exact hdecode.symm

/-- The first byte stands for itself if it is no opcode or if too few bytes are left for it. -/
theorem isData_head (address : UInt16) (first : UInt8) (rest : List UInt8) :
    (head address first rest).isData = true ↔
      decode first = none ∨ ∃ op, decode first = some op ∧ (first :: rest).length < op.size := by
  cases hdecode : decode first with
  | none => simp [head, decode?, hdecode, data, isData]
  | some op =>
    have hsize : op.size = op.mode.operandLength + 1 := rfl
    simp only [head, decode?, hdecode, List.length_take, List.length_cons, hsize, reduceCtorEq,
      false_or, Option.some.injEq, exists_eq_left']
    split
    · rename_i henough
      simp only [Option.getD_some, isData, Option.isNone_some, Bool.false_eq_true, false_iff]
      omega
    · rename_i hshort
      simp only [Option.getD_none, isData, data, Option.isNone_none, true_iff]
      omega

/-! ### Parts behind one another -/

theorem ne_nil_of_disassemble (h : disassemble start bytes = i :: behind) : bytes ≠ [] := by
  rintro rfl
  rw [disassemble_nil] at h
  cases h

/-- Where bytes are cut, the rest comes apart on its own. -/
theorem disassemble_tail (h : disassemble start bytes = before ++ behind) :
    behind = disassemble (start + UInt16.ofNat (before.flatMap Instruction.bytes).length)
      (behind.flatMap Instruction.bytes) := by
  induction before generalizing start bytes with
  | nil =>
    rw [List.nil_append] at h
    subst h
    rw [flatMap_bytes_disassemble]
    exact congrArg (disassemble · bytes) (UInt16.add_zero start).symm
  | cons i before ih =>
    obtain ⟨first, rest, rfl⟩ := List.exists_cons_of_ne_nil (ne_nil_of_disassemble h)
    obtain ⟨j, more, -, -, -, hsplit⟩ := exists_disassemble_cons start first rest
    rw [hsplit, List.cons_append] at h
    obtain ⟨rfl, hmore⟩ := List.cons.inj h
    rw [List.flatMap_cons, List.length_append, UInt16.ofNat_add, ← UInt16.add_assoc]
    exact ih hmore

/-- The first part starts where the bytes do, and is cut off them. -/
theorem head_of_disassemble (h : disassemble start bytes = i :: behind) :
    i.address = start ∧ (i.isData = true ↔
      decode i.opcode = none ∨ ∃ op, decode i.opcode = some op ∧ bytes.length < op.size) := by
  obtain ⟨first, rest, rfl⟩ := List.exists_cons_of_ne_nil (ne_nil_of_disassemble h)
  obtain ⟨j, more, -, haddress, hbytes, hsplit⟩ := exists_disassemble_cons start first rest
  rw [hsplit] at h
  obtain ⟨rfl, -⟩ := List.cons.inj h
  rw [disassemble_cons] at hsplit
  have hhead : head start first rest = j := (List.cons.inj hsplit).1
  have hopcode : j.opcode = first := (List.cons.inj hbytes).1
  rw [hopcode, ← isData_head start, hhead]
  exact ⟨haddress, Iff.rfl⟩

/-! ### Bytes that follow -/

/-- A part that is not cut short stays the first one whatever follows. -/
theorem disassemble_of_whole (h : Whole i) (hcut : ¬ i.IsCut) (more : List UInt8) :
    disassemble i.address (i.bytes ++ more) =
      i :: disassemble (i.address + UInt16.ofNat i.bytes.length) more := by
  cases h with
  | data address value =>
    have hdecode : decode value = none := by
      simpa [IsCut, data, isData] using hcut
    show disassemble address (value :: more) = _
    rw [disassemble_cons, head, decode?, hdecode]
    rfl
  | code address hdecode hoperand => exact disassemble_of_decode hdecode hoperand more

/-- Bytes without an opcode cut short come apart alike whatever follows on them. -/
theorem disassemble_append (start : UInt16) (bytes : List UInt8)
    (hcut : ∀ i ∈ disassemble start bytes, ¬ i.IsCut) (more : List UInt8) :
    disassemble start (bytes ++ more) =
      disassemble start bytes ++ disassemble (start + UInt16.ofNat bytes.length) more := by
  induction start, bytes using disassemble_induction with
  | nil start =>
    rw [disassemble_nil]
    exact congrArg (disassemble · more) (UInt16.add_zero start).symm
  | cons i rest hwhole hsplit ih =>
    rw [hsplit, List.forall_mem_cons] at hcut
    rw [hsplit, List.append_assoc, disassemble_of_whole hwhole hcut.1, ih hcut.2,
      List.length_append, UInt16.ofNat_add, ← UInt16.add_assoc, List.cons_append]

/-- With two more bytes, no opcode is cut short any more. -/
theorem not_isCut_of_disassemble_append
    (happend : ∀ more, disassemble start (bytes ++ more) =
      disassemble start bytes ++ disassemble (start + UInt16.ofNat bytes.length) more) :
    ∀ i ∈ disassemble start bytes, ¬ i.IsCut := by
  rintro i hmem ⟨hdata, hopcode⟩
  obtain ⟨op, hop⟩ := Option.isSome_iff_exists.mp hopcode
  obtain ⟨before, behind, hsplit⟩ := List.append_of_mem hmem
  have hlonger := happend [0, 0]
  rw [hsplit, List.append_assoc] at hlonger
  have htail := (disassemble_tail hlonger).symm
  obtain hnone | ⟨op', hop', hshort⟩ := (head_of_disassemble htail).2.mp hdata
  · rw [hop] at hnone
    cases hnone
  · have hsize : op'.size ≤ 3 := op'.mode.size_le
    simp only [List.cons_append, List.flatMap_cons, List.flatMap_append,
      flatMap_bytes_disassemble, List.length_append, List.length_cons, List.length_nil,
      Instruction.bytes] at hshort
    omega

end Instruction

/--
**A disassembly is a partition of the bytes.**  Put together, the parts are the bytes again.  Each
part has the address of its first byte and as many bytes as its size says, from one to three.  It
is a byte of data exactly if that byte is no documented opcode or if its operand would go past the
end, and otherwise it is what the opcode means.

Bytes may be taken apart piece by piece, whatever follows on them, exactly if they have no opcode
that the end cuts short.
-/
theorem disassembly_partitions (start : UInt16) (bytes : List UInt8) :
    (Instruction.disassemble start bytes).flatMap Instruction.bytes = bytes ∧
      (∀ before i behind, Instruction.disassemble start bytes = before ++ i :: behind →
        i.address = start + UInt16.ofNat (before.flatMap Instruction.bytes).length ∧
        i.size = i.bytes.length ∧ 1 ≤ i.size ∧ i.size ≤ 3 ∧
        (i.isData = true ↔ decode i.opcode = none ∨ ∃ op, decode i.opcode = some op ∧
          bytes.length < (before.flatMap Instruction.bytes).length + op.size) ∧
        (i.isData = false → i.operation = decode i.opcode)) ∧
      ((∀ i ∈ Instruction.disassemble start bytes, ¬ i.IsCut) ↔
        ∀ more, Instruction.disassemble start (bytes ++ more) =
          Instruction.disassemble start bytes ++
            Instruction.disassemble (start + UInt16.ofNat bytes.length) more) := by
  refine ⟨Instruction.flatMap_bytes_disassemble start bytes, fun before i behind hsplit => ?_,
    Instruction.disassemble_append start bytes, Instruction.not_isCut_of_disassemble_append⟩
  have hmem : i ∈ Instruction.disassemble start bytes := hsplit ▸ by simp
  have hwhole := Instruction.whole_of_mem_disassemble start bytes i hmem
  obtain ⟨haddress, hdata⟩ :=
    Instruction.head_of_disassemble (Instruction.disassemble_tail hsplit).symm
  have hbytes : bytes.length = (before.flatMap Instruction.bytes).length +
      ((i :: behind).flatMap Instruction.bytes).length := by
    rw [← List.length_append, ← List.flatMap_append, ← hsplit,
      Instruction.flatMap_bytes_disassemble]
  simp only [hbytes, Nat.add_lt_add_iff_left]
  exact ⟨haddress, hwhole.size_eq, i.size_pos, i.mode.size_le, hdata, hwhole.operation_eq⟩

/-- Across the end of memory: an instruction, a byte that is no opcode, a jump whose last byte is
missing, and a break.  With a byte behind it the jump takes the break for its operand. -/
theorem disassembly_partitions_across_end :
    ∃ before behind,
      Instruction.disassemble 0xfffe [0xa9, 0x01, 0x02, 0x4c, 0x00] =
        before ++ Instruction.data 0x0001 0x4c :: behind ∧
      0x0001 = 0xfffe + UInt16.ofNat (before.flatMap Instruction.bytes).length ∧
      (∃ op, decode 0x4c = some op ∧ 5 < (before.flatMap Instruction.bytes).length + op.size) ∧
      ¬ ∀ more, Instruction.disassemble 0xfffe ([0xa9, 0x01, 0x02, 0x4c, 0x00] ++ more) =
        Instruction.disassemble 0xfffe [0xa9, 0x01, 0x02, 0x4c, 0x00] ++
          Instruction.disassemble (0xfffe + 5) more := by
  have hparts : Instruction.disassemble 0xfffe [0xa9, 0x01, 0x02, 0x4c, 0x00] =
      [⟨0xfffe, 0xa9, some ⟨.lda, .immediate⟩, [0x01]⟩, .data 0x0000 0x02] ++
        .data 0x0001 0x4c :: [⟨0x0002, 0x00, some ⟨.brk, .implicit⟩, []⟩] := by
    decide +kernel
  have hjump : decode 0x4c = some ⟨.jmp, .absolute⟩ := by decide +kernel
  obtain ⟨-, hpart, hcut⟩ :=
    disassembly_partitions 0xfffe [0xa9, 0x01, 0x02, 0x4c, 0x00]
  obtain ⟨haddress, -, -, -, hdata, -⟩ := hpart _ _ _ hparts
  refine ⟨_, _, hparts, haddress, (hdata.mp rfl).resolve_left (by simp [Instruction.data, hjump]),
    fun hmore => ?_⟩
  refine hcut.mpr hmore (.data 0x0001 0x4c) (by simp [hparts]) ⟨rfl, ?_⟩
  simp [Instruction.data, hjump]

end Mos6502
