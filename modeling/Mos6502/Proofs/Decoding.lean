/-
Reading back what was encoded.

Encoding and decoding share one table, so the opcode of a mnemonic in a column is decoded
to that mnemonic in the mode of the column.  With as many bytes behind it as the mode asks
for, it is the instruction at the head of any bytes that start with it, and what follows is
taken apart on its own.

The offset of a branch is the one operand that is not written as it stands.  As a signed
number it is the distance to the target, so encoding and decoding agree on the target
wherever the distance needs no turn around the end of memory.
-/
import Mos6502.Disassembly.Instruction
import Mos6502.Proofs.Column

namespace Mos6502

/-! ### The target of a branch -/

/-- A byte as a number from −128 to 127. -/
def signed (b : UInt8) : Int :=
  if b < 0x80 then b.toNat else b.toNat - 256

theorem signed_eq (b : UInt8) :
    signed b = if b.toNat < 128 then (b.toNat : Int) else b.toNat - 256 := by
  rfl

theorem toNat_ofInt (d : Int) : ((UInt8.ofInt d).toNat : Int) = d % 256 := by
  rw [UInt8.ofInt, UInt8.toNat_ofNat']
  omega

theorem signed_ofInt {d : Int} (hlow : -128 ≤ d) (hhigh : d ≤ 127) :
    signed (UInt8.ofInt d) = d := by
  have hnat := toNat_ofInt d
  rw [signed_eq]
  split <;> omega

theorem ofInt_signed (b : UInt8) : UInt8.ofInt (signed b) = b := by
  have hlt := b.toNat_lt
  have hnat := toNat_ofInt (signed b)
  have hsigned := signed_eq b
  apply UInt8.toNat_inj.mp
  split at hsigned <;> omega

theorem toNat_displacement (b : UInt8) :
    ((displacement b).toNat : Int) = signed b % 65536 := by
  have hlt := b.toNat_lt
  rw [signed_eq]
  unfold displacement
  by_cases h : b.toNat < 128
  · rw [if_pos h, if_pos (show b < 0x80 from h), UInt8.toNat_toUInt16]
    omega
  · rw [if_neg h, if_neg (show ¬ b < 0x80 from h), UInt16.toNat_add, UInt8.toNat_toUInt16]
    simp only [UInt16.reduceToNat]
    omega

theorem toNat_branchTarget (address : UInt16) (b : UInt8) :
    ((branchTarget address b).toNat : Int) = (address.toNat + 2 + signed b) % 65536 := by
  have h := toNat_displacement b
  rw [branchTarget, UInt16.toNat_add, UInt16.toNat_add]
  simp only [UInt16.reduceToNat]
  omega

namespace Operand

variable {pc target : UInt16} {b : UInt8} {bytes : List UInt8}

/-- The offset of a branch is the distance, if a byte can hold it. -/
theorem offset_eq_ok_iff :
    offset pc target = .ok bytes ↔ ∃ b, bytes = [b] ∧ distance pc target = signed b := by
  unfold offset
  constructor
  · intro h
    split at h
    · rename_i hreach
      cases h
      exact ⟨_, rfl, (signed_ofInt hreach.1 hreach.2).symm⟩
    · cases h
  · rintro ⟨b, rfl, hb⟩
    have hlt := b.toNat_lt
    have hreach : -128 ≤ signed b ∧ signed b ≤ 127 := by
      rw [signed_eq]
      split <;> omega
    rw [hb, if_pos hreach, ofInt_signed]

theorem branchTarget_of_offset (h : offset pc target = .ok [b]) : branchTarget pc b = target := by
  obtain ⟨b', hb', hdistance⟩ := offset_eq_ok_iff.mp h
  cases hb'
  have hlt := target.toNat_lt
  have hnat := toNat_branchTarget pc b
  unfold distance at hdistance
  apply UInt16.toNat_inj.mp
  omega

/-- Where a branch stays within the memory, its offset is computed from its target. -/
theorem offset_branchTarget (hlow : 0 ≤ (pc.toNat : Int) + 2 + signed b)
    (hhigh : (pc.toNat : Int) + 2 + signed b ≤ 65535) :
    offset pc (branchTarget pc b) = .ok [b] := by
  refine offset_eq_ok_iff.mpr ⟨b, rfl, ?_⟩
  rw [distance, toNat_branchTarget, Int.emod_eq_of_lt hlow (by omega)]
  omega

end Operand

/-! ### The instruction at the head -/

theorem decode_of_opcode? {m : Mnemonic} {c : Column} {opcode : UInt8}
    (h : m.opcode? c = some opcode) : decode opcode = some ⟨m, c.mode m⟩ := by
  obtain ⟨before, rest, hencodings, -⟩ := List.lookup_eq_some_iff.mp h
  refine decode_eq_some_iff.mpr ⟨c, ?_, rfl⟩
  show (c, opcode) ∈ m.encodings
  rw [hencodings]
  exact List.mem_append_right _ (List.mem_cons_self ..)

namespace Instruction

variable {address : UInt16} {opcode : UInt8} {op : Operation} {operand : List UInt8}

theorem head_eq_of_decode (h : decode opcode = some op)
    (hoperand : operand.length = op.mode.operandLength) (more : List UInt8) :
    head address opcode (operand ++ more) = ⟨address, opcode, some op, operand⟩ := by
  simp only [head, decode?, h, ← hoperand, List.take_left, if_true, Option.getD_some]

/-- A whole instruction at the front is taken off, and the rest is taken apart behind it. -/
theorem disassemble_of_decode (h : decode opcode = some op)
    (hoperand : operand.length = op.mode.operandLength) (more : List UInt8) :
    disassemble address ((opcode :: operand) ++ more) =
      ⟨address, opcode, some op, operand⟩ ::
        disassemble (address + UInt16.ofNat (opcode :: operand).length) more := by
  have hsize : op.mode.size = (opcode :: operand).length := by
    rw [List.length_cons, hoperand]
    rfl
  rw [List.cons_append, disassemble_cons, head_eq_of_decode h hoperand]
  show _ :: disassemble (address + UInt16.ofNat op.mode.size)
    (((opcode :: operand) ++ more).drop op.mode.size) = _
  rw [hsize, List.drop_left]

/-! ### Taking apart whole instructions -/

/-- An instruction with all bytes of its operand, or a byte of data. -/
inductive Whole : Instruction → Prop
  | data (address : UInt16) (value : UInt8) : Whole (data address value)
  | code (address : UInt16) {opcode : UInt8} {op : Operation} {operand : List UInt8}
      (hdecode : decode opcode = some op)
      (hoperand : operand.length = op.mode.operandLength) :
      Whole ⟨address, opcode, some op, operand⟩

/-- Bytes start with a whole instruction, and the rest is taken apart behind it. -/
theorem exists_disassemble_cons (address : UInt16) (first : UInt8) (rest : List UInt8) :
    ∃ i more, Whole i ∧ i.address = address ∧ i.bytes ++ more = first :: rest ∧
      disassemble address (first :: rest) =
        i :: disassemble (address + UInt16.ofNat i.bytes.length) more := by
  have single (h : decode? address (first :: rest) = none) : ∃ i more, Whole i ∧
      i.address = address ∧ i.bytes ++ more = first :: rest ∧
      disassemble address (first :: rest) =
        i :: disassemble (address + UInt16.ofNat i.bytes.length) more := by
    refine ⟨data address first, rest, .data address first, rfl, rfl, ?_⟩
    rw [disassemble_cons, head, h]
    rfl
  cases hdecode : decode first with
  | none => exact single (by rw [decode?, hdecode])
  | some op =>
    by_cases hoperand : (rest.take op.mode.operandLength).length = op.mode.operandLength
    · have hrest : (first :: rest.take op.mode.operandLength) ++
          rest.drop op.mode.operandLength = first :: rest :=
        congrArg (first :: ·) (List.take_append_drop ..)
      refine ⟨_, _, .code address hdecode hoperand, rfl, hrest, ?_⟩
      rw [← hrest]
      exact disassemble_of_decode hdecode hoperand _
    · exact single (by simp only [decode?, hdecode, if_neg hoperand])

/-- What holds of no bytes, and of a whole instruction in front of bytes of which it holds,
holds of all bytes. -/
theorem disassemble_induction {motive : UInt16 → List UInt8 → Prop}
    (nil : ∀ address, motive address [])
    (cons : ∀ (i : Instruction) (more : List UInt8), Whole i →
      disassemble i.address (i.bytes ++ more) =
        i :: disassemble (i.address + UInt16.ofNat i.bytes.length) more →
      motive (i.address + UInt16.ofNat i.bytes.length) more →
      motive i.address (i.bytes ++ more))
    (address : UInt16) (bytes : List UInt8) : motive address bytes := by
  induction hn : bytes.length using Nat.strongRecOn generalizing address bytes with
  | _ n ih =>
    cases bytes with
    | nil => exact nil address
    | cons first rest =>
      obtain ⟨i, more, hwhole, rfl, hbytes, hsplit⟩ :=
        exists_disassemble_cons address first rest
      have hlt : more.length < n := by
        rw [← hn, ← hbytes, List.length_append]
        exact Nat.lt_add_of_pos_left (Nat.succ_pos _)
      rw [← hbytes] at hsplit ⊢
      exact cons i more hwhole hsplit (ih _ hlt _ _ rfl)

/-- Nothing is lost: put together, the bytes of the parts are the bytes that were taken apart. -/
theorem flatMap_bytes_disassemble (address : UInt16) (bytes : List UInt8) :
    (disassemble address bytes).flatMap Instruction.bytes = bytes := by
  induction address, bytes using disassemble_induction with
  | nil address => rw [disassemble_nil, List.flatMap_nil]
  | cons i more hwhole hsplit ih => rw [hsplit, List.flatMap_cons, ih]

theorem whole_of_mem_disassemble (address : UInt16) (bytes : List UInt8) :
    ∀ i ∈ disassemble address bytes, Whole i := by
  induction address, bytes using disassemble_induction with
  | nil address =>
    rw [disassemble_nil]
    exact List.forall_mem_nil _
  | cons i more hwhole hsplit ih =>
    rw [hsplit]
    exact List.forall_mem_cons.mpr ⟨hwhole, ih⟩

end Instruction

end Mos6502
