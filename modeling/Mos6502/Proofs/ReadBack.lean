/-
A program that was assembled is read back line by line.

The disassembler gets the segments and the memory, and nothing about lines.  It still finds
the boundaries of the lines again: each segment starts with a line, and every line is one
whole instruction, so taking it apart ends where the next line starts.  `Aligned` says this
of the segment that is being filled.  It holds of an empty segment, every line keeps it, and
an origin only leaves the finished segment behind.

What has to be assumed is that the bytes are still there.  Lines may overwrite each other
after an origin, or after the end of memory, and the zero behind the program may hit its
first byte.  Where all cells written are different, none of this happens.
-/
import Mos6502.Proofs.Decoding
import Mos6502.Proofs.Emission
import Mos6502.Proofs.Writes

namespace Mos6502

/-- What an instruction in memory tells about the line that it comes from. -/
structure Restored (labels : Labels) (x : Emission) (i : Instruction) : Prop where
  /-- It is where the line was emitted. -/
  address : i.address = x.pc
  /-- Its bytes are the bytes of the line. -/
  bytes : x.effect = .bytes i.bytes
  /-- It has the mnemonic of the line, in the mode of the column of its operand, and a branch
  goes where the operand says. -/
  operation : ∃ label m operand c,
    Line.parse? x.text = some ⟨label, .instruction m operand⟩ ∧
      m.column? labels .emit x.pc operand = some c ∧
      i.operation = some ⟨m, c.mode m⟩ ∧
      (c = .branch → ∃ target, Operand.address? labels .emit operand = some target ∧
        i.target? = some target)

variable {labels : Labels} {pc : UInt16} {line : Nat} {text : Text} {lines : List Text}
  {effect : Effect} {e e' : Emitted} {memory : Memory} {bytes : List UInt8}
  {is : List Instruction} {source : Text} {report : Report}

/-! ### One line -/

/-- The bytes of a line with an instruction are taken apart as this instruction, and what is
behind them on its own. -/
theorem restored_of_isInstruction (h : emitLine labels pc text = .ok effect)
    (hline : Emission.isInstruction ⟨text, pc, effect⟩ = true) :
    ∃ i, Restored labels ⟨text, pc, effect⟩ i ∧ ∀ more,
      Instruction.disassemble pc (i.bytes ++ more) =
        i :: Instruction.disassemble (pc + UInt16.ofNat i.bytes.length) more := by
  obtain ⟨label, m, operand, hparse⟩ : ∃ label m operand,
      Line.parse? text = some ⟨label, .instruction m operand⟩ := by
    unfold Emission.isInstruction at hline
    split at hline
    · exact ⟨_, _, _, by assumption⟩
    · cases hline
  obtain ⟨bytes, hencode, rfl⟩ := encode_of_emitLine hparse h
  obtain ⟨c, hc, hbytes⟩ := Mnemonic.encode_eq_ok_iff.mp hencode
  obtain ⟨opcode, rest, hopcode, hrest, rfl⟩ := Mnemonic.encodeAs?_eq_ok_iff.mp hbytes
  refine ⟨⟨pc, opcode, some ⟨m, c.mode m⟩, rest⟩,
    ⟨rfl, rfl, label, m, operand, c, hparse, hc, rfl, ?_⟩, ?_⟩
  · rintro rfl
    obtain ⟨target, htarget, hoffset⟩ := Option.map_eq_some_iff.mp hrest
    replace hoffset : Operand.offset pc target = .ok rest := hoffset
    obtain ⟨b, rfl, -⟩ := Operand.offset_eq_ok_iff.mp hoffset
    exact ⟨target, htarget, congrArg some (Operand.branchTarget_of_offset hoffset)⟩
  · intro more
    exact Instruction.disassemble_of_decode (decode_of_opcode? hopcode)
      (Operand.length_of_encode? hrest m) more

/-! ### Segments stay aligned -/

/-- The instructions that are found in a segment. -/
def Segment.readBack (segment : Segment) (memory : Memory) : List Instruction :=
  Instruction.disassemble segment.start (memory.read segment.start segment.length)

namespace Emitted

/-- The instructions that are found where lines were emitted. -/
def readBack (e : Emitted) (memory : Memory) : List Instruction :=
  e.segments.flatMap fun segment => segment.readBack memory

/-- The current segment ends between two instructions, at the address of the next line. -/
structure Aligned (e : Emitted) (memory : Memory) : Prop where
  pc : e.pc = e.current.start + UInt16.ofNat e.current.length
  split : ∀ more, Instruction.disassemble e.current.start
      (memory.read e.current.start e.current.length ++ more) =
    e.current.readBack memory ++ Instruction.disassemble e.pc more

theorem aligned_of_empty (hpc : e.pc = e.current.start) (hlength : e.current.length = 0) :
    e.Aligned memory := by
  refine ⟨?_, ?_⟩
  · rw [hpc, hlength]
    exact (UInt16.add_zero _).symm
  · intro more
    simp [Segment.readBack, hpc, hlength]

theorem readBack_eq (e : Emitted) (memory : Memory) :
    e.readBack memory =
      (e.closed.toList.flatMap fun segment => segment.readBack memory) ++
        e.current.readBack memory := by
  simp [readBack, segments]

theorem readBack_goTo (e : Emitted) (address : UInt16) (memory : Memory) :
    (e.goTo address).readBack memory = e.readBack memory := by
  rw [readBack_eq, readBack_eq]
  simp [goTo, Segment.readBack]

/-- Bytes that are in memory, and that are taken apart on their own, extend what is read back
by just that. -/
theorem Aligned.store (h : e.Aligned memory) (line : Nat)
    (hread : memory.read e.pc bytes.length = bytes)
    (hwhole : ∀ more, Instruction.disassemble e.pc (bytes ++ more) =
      is ++ Instruction.disassemble (e.pc + UInt16.ofNat bytes.length) more) :
    (e.store line bytes).Aligned memory ∧
      (e.store line bytes).readBack memory = e.readBack memory ++ is := by
  have hgrown : memory.read e.current.start (e.current.length + bytes.length) =
      memory.read e.current.start e.current.length ++ bytes := by
    rw [Memory.read_add, ← h.pc, hread]
  have hsegment : (e.store line bytes).current.readBack memory =
      e.current.readBack memory ++ is := by
    have hbytes : Instruction.disassemble e.pc bytes = is := by
      simpa using hwhole []
    show Instruction.disassemble e.current.start
      (memory.read e.current.start (e.current.length + bytes.length)) = _
    rw [hgrown, h.split, hbytes]
  refine ⟨⟨?_, ?_⟩, ?_⟩
  · show e.pc + _ = e.current.start + UInt16.ofNat (e.current.length + bytes.length)
    rw [h.pc, UInt16.ofNat_add, UInt16.add_assoc]
  · intro more
    rw [hsegment]
    show Instruction.disassemble e.current.start
        (memory.read e.current.start (e.current.length + bytes.length) ++ more) =
      _ ++ Instruction.disassemble (e.pc + UInt16.ofNat bytes.length) more
    rw [hgrown, List.append_assoc, h.split, hwhole, List.append_assoc]
  · rw [readBack_eq, readBack_eq, hsegment, List.append_assoc]
    rfl

/-- A line keeps the alignment if its bytes are in memory and only instructions have bytes;
an instruction is found behind all that was found before. -/
theorem Aligned.take (h : e.Aligned memory) (line : Nat)
    (hline : emitLine labels e.pc text = .ok effect)
    (hcode : Emission.bytes ⟨text, e.pc, effect⟩ ≠ [] →
      Emission.isInstruction ⟨text, e.pc, effect⟩ = true)
    (hread : memory.read e.pc (Emission.bytes ⟨text, e.pc, effect⟩).length =
      Emission.bytes ⟨text, e.pc, effect⟩) :
    (e.take line effect).Aligned memory ∧ ∃ is,
      (e.take line effect).readBack memory = e.readBack memory ++ is ∧
        List.Forall₂ (Restored labels)
          ([⟨text, e.pc, effect⟩].filter Emission.isInstruction) is := by
  by_cases hinstruction : Emission.isInstruction ⟨text, e.pc, effect⟩ = true
  · obtain ⟨i, hi, hwhole⟩ := restored_of_isInstruction hline hinstruction
    have heffect : effect = .bytes i.bytes := hi.bytes
    subst heffect
    obtain ⟨haligned, hback⟩ := @Aligned.store _ _ i.bytes [i] h line hread hwhole
    refine ⟨haligned, [i], hback, ?_⟩
    rw [List.filter_cons_of_pos hinstruction]
    exact .cons hi .nil
  · have hempty : Emission.bytes ⟨text, e.pc, effect⟩ = [] := by
      by_contra hbytes
      exact hinstruction (hcode hbytes)
    rw [List.filter_cons_of_neg hinstruction, List.filter_nil]
    cases effect with
    | nothing => exact ⟨h, [], (List.append_nil _).symm, .nil⟩
    | origin address =>
      refine ⟨aligned_of_empty rfl rfl, [], ?_, .nil⟩
      rw [List.append_nil]
      exact readBack_goTo e address memory
    | bytes bytes =>
      have hbytes : bytes = [] := hempty
      subst hbytes
      obtain ⟨haligned, hback⟩ := @Aligned.store _ _ [] [] h line rfl (by simp)
      exact ⟨haligned, [], hback, .nil⟩

theorem readBack_filter (e : Emitted) (memory : Memory) :
    ((e.segments.filter fun segment => segment.length != 0).flatMap fun segment =>
      segment.readBack memory) = e.readBack memory := by
  unfold readBack
  induction e.segments with
  | nil => rfl
  | cons segment rest ih =>
    by_cases hlength : segment.length = 0
    · have hnone : segment.readBack memory = [] := by
        simp [Segment.readBack, hlength]
      simp [hlength, ih, hnone]
    · simp [hlength, ih]

end Emitted

/-! ### All lines -/

/-- Over any lines, what is read back grows by the instructions that they hold. -/
theorem readBack_emitFrom (halign : e.Aligned memory)
    (h : emitFrom labels e line lines = (e', none))
    (hcode : ∀ x ∈ emissions labels e.pc lines, x.bytes ≠ [] → x.isInstruction = true)
    (hread : ∀ x ∈ emissions labels e.pc lines, memory.read x.pc x.bytes.length = x.bytes) :
    ∃ is, e'.readBack memory = e.readBack memory ++ is ∧
      List.Forall₂ (Restored labels)
        ((emissions labels e.pc lines).filter Emission.isInstruction) is := by
  induction lines generalizing e line with
  | nil =>
    cases h
    exact ⟨[], (List.append_nil _).symm, .nil⟩
  | cons text rest ih =>
    obtain ⟨effect, hline, hrest⟩ := emitFrom_cons h
    rw [emissions_cons hline] at hcode hread ⊢
    rw [List.forall_mem_cons] at hcode hread
    obtain ⟨haligned, first, hfirst, hrestored⟩ :=
      halign.take line hline hcode.1 hread.1
    rw [← Emitted.pc_take e line effect] at hcode hread ⊢
    obtain ⟨later, hlater, hall⟩ := ih haligned hrest hcode.2 hread.2
    refine ⟨first ++ later, by rw [hlater, hfirst, List.append_assoc], ?_⟩
    rw [← List.singleton_append, List.filter_append]
    exact List.rel_append hrestored hall

/--
**A program that was assembled is read back line by line.**  Every line of the source is
emitted.  If only instructions have bytes and no cell was written twice, the zero behind the
program included, then taking the program apart in memory gives one instruction for each
line with an instruction, in the order of the source: at the address of the line, with its
bytes, its mnemonic and the mode of the column of its operand, and a branch goes where the
operand says.
-/
theorem disassemble_restores_source (hok : (Assembly.ofText source).result = .ok report)
    (hcode : ∀ x ∈ Assembly.emitted source, x.bytes ≠ [] → x.isInstruction = true)
    (hdistinct : ((Assembly.ofText source).changes.map Change.address).Nodup)
    (memory : Memory) :
    (Assembly.emitted source).map Emission.text = (Prepared.ofText source).lines ∧
      List.Forall₂ (Restored (Assembly.ofText source).labels)
        ((Assembly.emitted source).filter Emission.isInstruction)
        ((Assembly.ofText source).disassemble ((Assembly.ofText source).load memory)) := by
  obtain ⟨labels, e, -, hemit, hcount, heq⟩ := Assembly.eq_complete_of_ok hok
  unfold Assembly.emitted at hcode ⊢
  rw [heq] at hdistinct ⊢
  rw [heq, Assembly.labels_complete] at hcode
  rw [Assembly.labels_complete]
  have hchanges := changes_emitFrom hemit
  have hread : ∀ x ∈ emissions labels startAddress (Prepared.ofText source).lines,
      ((Assembly.complete labels e).load memory).read x.pc x.bytes.length = x.bytes := by
    intro x hx
    refine Memory.read_apply hdistinct ?_ memory
    intro change hchange
    rw [Assembly.changes_complete hcount, hchanges]
    refine List.mem_append_left _ (List.mem_append_right _ ?_)
    exact List.mem_flatMap.mpr ⟨x, hx, hchange⟩
  obtain ⟨is, his, hrestored⟩ :=
    readBack_emitFrom (Emitted.aligned_of_empty rfl rfl) hemit hcode hread
  have hback : (Assembly.complete labels e).disassemble
      ((Assembly.complete labels e).load memory) = is := by
    unfold Assembly.disassemble
    rw [Assembly.segments_complete hcount]
    show List.flatMap (fun segment : Segment => segment.readBack _) _ = is
    rw [Emitted.readBack_filter, his]
    simp [Emitted.readBack_eq, Emitted.initial, Segment.readBack]
  rw [hback]
  exact ⟨map_text_emissions hemit, hrestored⟩

/-- Segments out of order, one of them across the end of memory, and a branch back. -/
theorem disassemble_restores_source_across_end :
    ∃ assembly, assembly = Assembly.ofText
        "*=$fffb\nloop: LDA ($10),Y\nBNE loop\nJMP past\n*=$0300\npast: ASL A".toList ∧
      List.Forall₂ (Restored ⟨[⟨"loop".toList, 0xfffb, 2⟩, ⟨"past".toList, 0x0300, 6⟩]⟩)
        [⟨"loop: LDA ($10),Y".toList, 0xfffb, .bytes [0xb1, 0x10]⟩,
          ⟨"BNE loop".toList, 0xfffd, .bytes [0xd0, 0xfc]⟩,
          ⟨"JMP past".toList, 0xffff, .bytes [0x4c, 0x00, 0x03]⟩,
          ⟨"past: ASL A".toList, 0x0300, .bytes [0x0a]⟩]
        (assembly.disassemble (assembly.load Memory.empty)) := by
  have h := (@disassemble_restores_source
    "*=$fffb\nloop: LDA ($10),Y\nBNE loop\nJMP past\n*=$0300\npast: ASL A".toList ⟨8, 2⟩
    (by rfl) (by decide +kernel) (by decide +kernel) Memory.empty).2
  refine ⟨_, rfl, ?_⟩
  convert h using 1
  · exact congrArg Restored (by decide +kernel)
  · decide +kernel

end Mos6502
