/-
A program that was disassembled is assembled to the bytes it came from.

Any bytes can be taken apart: what is no instruction, because no documented one has this
opcode or because the bytes end before its operand, is printed as data.  Each printed line
puts back the bytes it was printed from (`emitLine_text`), and as it stands where these bytes
stood, the lines together put back all of them.  No line has a label, so the first pass finds
nothing that could be wrong.

Only a branch out of memory is lost.  Its target is printed modulo 65536, and the assembler
does not go around the end of memory to reach it.
-/
import Mos6502.Proofs.Emission
import Mos6502.Proofs.PrintedOperand
import Mos6502.Proofs.Writes

namespace Mos6502

variable {labels : Labels} {i : Instruction} {e : Emitted} {lines : List Text}
  {start : UInt16} {bytes : List UInt8}

/-! ### One line -/

namespace Instruction

/-- A printed instruction is a line without a label, and puts back its bytes. -/
theorem parse?_text (hwhole : i.Whole) (hreach : i.reaches = true) (labels : Labels) :
    ∃ s, Line.parse? i.text = some ⟨none, s⟩ ∧
      s.effect labels .emit i.address = .ok (.bytes i.bytes) := by
  cases hwhole with
  | data address value => exact ⟨_, parse?_data value, rfl⟩
  | code address hdecode hoperand =>
    refine ⟨_, parse?_instruction _ (printed_operandText _), ?_⟩
    rw [Statement.effect, encode_operandText labels hdecode hoperand hreach]
    rfl

theorem emitLine_text (hwhole : i.Whole) (hreach : i.reaches = true) (labels : Labels) :
    emitLine labels i.address i.text = .ok (.bytes i.bytes) := by
  obtain ⟨s, hparse, heffect⟩ := parse?_text hwhole hreach labels
  exact emitLine_eq_ok_iff.mpr ⟨_, hparse, heffect⟩

theorem printedLine_text (i : Instruction) : PrintedLine i.text := by
  refine .mk i.name i.operandText i.printed_name ?_ ?_ i.printed_operandText
  all_goals
    intro h
    have hlength : i.name.length = 3 := by
      unfold name
      split
      · exact Mnemonic.length_name _
      · rfl
    simp [h] at hlength

end Instruction

theorem printedLine_originLine (address : UInt16) : PrintedLine (originLine address) :=
  .mk (originLine address) [] (printed_originLine address) (List.cons_ne_nil _ _)
    (show 7 ≠ 6 by decide) printed_nil

/-! ### All lines -/

/-- Lines that have no label and can be emitted somewhere can be listed everywhere. -/
theorem indexFrom_of_unlabelled (h : ∀ text ∈ lines, ∃ s pc effect,
      Line.parse? text = some ⟨none, s⟩ ∧ s.effect labels .emit pc = .ok effect)
    (symbols : Symbols) (seen : Labels) (pc : UInt16) (line : Nat) :
    Labels.indexFrom symbols seen pc line lines = (seen, none) := by
  induction lines generalizing pc line with
  | nil => rfl
  | cons text rest ih =>
    rw [List.forall_mem_cons] at h
    obtain ⟨⟨s, pc', effect, hparse, heffect⟩, hrest⟩ := h
    obtain ⟨sized, hsized, -⟩ := Statement.effect_size_of_emit heffect seen pc
    have hline : Labels.indexLine symbols seen pc line text = .ok (seen, sized.next pc) :=
      Labels.indexLine_eq_ok_iff.mpr ⟨_, sized, hparse, hsized, rfl, rfl⟩
    rw [Labels.indexFrom, hline]
    exact ih hrest _ _

/-- The printed lines put all bytes back where they were. -/
theorem emitFrom_disassemble (labels : Labels) (start : UInt16) (bytes : List UInt8)
    (hreach : ∀ i ∈ Instruction.disassemble start bytes, i.reaches = true) (line : Nat)
    (hpc : e.pc = start) :
    ∃ e', emitFrom labels e line ((Instruction.disassemble start bytes).map Instruction.text) =
        (e', none) ∧
      e'.pc = start + UInt16.ofNat bytes.length ∧ e'.count = e.count + bytes.length ∧
      e'.changes.toList = e.changes.toList ++ Memory.changesFrom start bytes := by
  induction start, bytes using Instruction.disassemble_induction generalizing e line with
  | nil start =>
    refine ⟨e, ?_, hpc.trans (UInt16.add_zero start).symm, rfl, (List.append_nil _).symm⟩
    rw [Instruction.disassemble_nil]
    rfl
  | cons i more hwhole hsplit ih =>
    rw [hsplit, List.forall_mem_cons] at hreach
    have hline := Instruction.emitLine_text hwhole hreach.1 labels
    obtain ⟨e', hemit, hpc', hcount, hchanges⟩ :=
      @ih (e.store line i.bytes) hreach.2 (line + 1) (by rw [← hpc]; rfl)
    refine ⟨e', ?_, ?_, ?_, ?_⟩
    · rw [hsplit, List.map_cons, emitFrom, hpc, hline]
      exact hemit
    · rw [hpc', List.length_append, UInt16.ofNat_add, UInt16.add_assoc]
    · rw [hcount, List.length_append, ← Nat.add_assoc]
      rfl
    · rw [hchanges, Memory.changesFrom_append, ← List.append_assoc, ← hpc]
      exact congrArg (· ++ _) (changes_take e line i.text (.bytes i.bytes))

/-! ### The whole source -/

namespace Instruction

/-- An origin and a line for each instruction. -/
def programLines (start : UInt16) (instructions : List Instruction) : List Text :=
  originLine start :: instructions.map text

/-- A source text that puts instructions at an address. -/
def program (start : UInt16) (instructions : List Instruction) : Text :=
  joinWith ['\n'] (programLines start instructions)

theorem prepared_program (start : UInt16) (instructions : List Instruction) :
    Prepared.ofText (program start instructions) = ⟨programLines start instructions, {}⟩ := by
  refine prepared_joinWith (List.cons_ne_nil _ _) ?_
  refine List.forall_mem_cons.mpr ⟨printedLine_originLine start, ?_⟩
  rw [List.forall_mem_map]
  intro i _
  exact i.printedLine_text

end Instruction

theorem index_programLines (hreach : ∀ i ∈ Instruction.disassemble start bytes, i.reaches = true) :
    Labels.index ⟨Instruction.programLines start (Instruction.disassemble start bytes), {}⟩ =
      ({}, none) := by
  refine @indexFrom_of_unlabelled {} _ ?_ _ _ _ _
  refine List.forall_mem_cons.mpr ⟨⟨_, start, _, parse?_originLine start, rfl⟩, ?_⟩
  rw [List.forall_mem_map]
  intro i hi
  obtain ⟨s, hparse, heffect⟩ := Instruction.parse?_text
    (Instruction.whole_of_mem_disassemble start bytes i hi) (hreach i hi) {}
  exact ⟨s, _, _, hparse, heffect⟩

/-- The program is assembled, and writes the bytes and a zero behind them. -/
theorem ofText_program (hne : bytes ≠ [])
    (hreach : ∀ i ∈ Instruction.disassemble start bytes, i.reaches = true) :
    ∃ assembly,
      Assembly.ofText (Instruction.program start (Instruction.disassemble start bytes)) =
        assembly ∧
      assembly.result = .ok ⟨bytes.length, 0⟩ ∧
      assembly.changes = Memory.changesFrom start (bytes ++ [0]) := by
  obtain ⟨e, hrest, hpc, hcount, hchanges⟩ := emitFrom_disassemble {} start bytes hreach 2
    (show (Emitted.initial.goTo start).pc = start from rfl)
  have hemit : emitFrom {} Emitted.initial 1
      (Instruction.programLines start (Instruction.disassemble start bytes)) = (e, none) := by
    have horigin : emitLine {} Emitted.initial.pc (originLine start) = .ok (.origin start) :=
      emitLine_eq_ok_iff.mpr ⟨_, parse?_originLine start, rfl⟩
    rw [Instruction.programLines, emitFrom, horigin]
    exact hrest
  have hsome : e.count = bytes.length := hcount.trans (Nat.zero_add _)
  have hcode : e.count ≠ 0 := by
    rw [hsome]
    exact fun h => hne (List.length_eq_zero_iff.mp h)
  refine ⟨Assembly.complete {} e, ?_, ?_, ?_⟩
  · rw [Assembly.ofText, Instruction.prepared_program, Assembly.ofPrepared,
      index_programLines hreach]
    simp only [hemit]
  · rw [Assembly.complete, if_neg hcode, hsome]
    rfl
  · rw [Assembly.changes_complete hcode, hchanges, hpc, Memory.changesFrom_append,
      Memory.changesFrom_cons]
    rfl

/--
**A program that was disassembled is assembled to the bytes it came from.**  Any bytes up to
one less than the memory holds are taken apart and printed behind an origin.  If every branch
reaches its target within the memory, the printed text is assembled, the report counts all
bytes, and every byte is where it was.
-/
theorem assemble_restores_bytes (hne : bytes ≠ []) (hlength : bytes.length ≤ 65535)
    (hreach : ∀ i ∈ Instruction.disassemble start bytes, i.reaches = true) (memory : Memory) :
    ∃ assembly,
      Assembly.ofText (Instruction.program start (Instruction.disassemble start bytes)) =
        assembly ∧
      assembly.result = .ok ⟨bytes.length, 0⟩ ∧
      ∀ (i : Nat) (h : i < bytes.length),
        (assembly.load memory).get (start + UInt16.ofNat i) = bytes[i] := by
  obtain ⟨assembly, hassembly, hresult, hchanges⟩ := ofText_program hne hreach
  refine ⟨assembly, hassembly, hresult, ?_⟩
  intro i h
  have hfits : (bytes ++ [0]).length ≤ 0x10000 := by
    rw [List.length_append]
    exact Nat.succ_le_succ hlength
  have hwritten : ⟨start + UInt16.ofNat i, bytes[i]⟩ ∈ assembly.changes := by
    rw [hchanges, Memory.changesFrom_append]
    exact List.mem_append_left _ (Memory.mem_changesFrom start h)
  have hdistinct : (assembly.changes.map Change.address).Nodup := by
    rw [hchanges]
    exact Memory.nodup_changesFrom start hfits
  exact Memory.get_apply_of_mem hdistinct hwritten memory

/-- Across the end of memory: the accumulator, a small address in the long form, a branch back,
and two bytes of data, of which the last is an opcode whose operand is missing. -/
theorem assemble_restores_bytes_across_end :
    ∃ assembly,
      Assembly.ofText "*=$fff9\nASL A\nLDA $0010\nBNE $fffb\nDCB $42\nDCB $20".toList =
        assembly ∧
      assembly.result = .ok ⟨8, 0⟩ ∧
      ∀ (i : Nat) (h : i < 8), (assembly.load Memory.empty).get (0xfff9 + UInt16.ofNat i) =
        [0x0a, 0xad, 0x10, 0x00, 0xd0, 0xfc, 0x42, 0x20][i] := by
  have hprogram : Instruction.program 0xfff9
      (Instruction.disassemble 0xfff9 [0x0a, 0xad, 0x10, 0x00, 0xd0, 0xfc, 0x42, 0x20]) =
        "*=$fff9\nASL A\nLDA $0010\nBNE $fffb\nDCB $42\nDCB $20".toList := by
    decide +kernel
  rw [← hprogram]
  exact assemble_restores_bytes (List.cons_ne_nil _ _) (by decide) (by decide +kernel)
    Memory.empty

end Mos6502
