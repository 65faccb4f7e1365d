/-
The encoding table of the 6502, and decoding as its inverse.

A mnemonic is encoded in one or more *columns*, one for each shape an operand can
take in source text.  A column fixes the addressing mode, save that the one-byte
column of a shift works on the accumulator.  The table is the only statement of
which opcode means what: `decode` looks a byte up in it, so the assembler, the
disassembler and the processor cannot disagree.

The main facts are that no byte occurs twice in the table and, from that, that
`decode` finds exactly the entries of the table.
-/
import Mos6502.Isa.Mode
import Mos6502.Isa.Mnemonic

namespace Mos6502

/-- The shape of an operand in source text. -/
inductive Column where
  | immediate
  | zeroPage
  | zeroPageX
  | zeroPageY
  | absolute
  | absoluteX
  | absoluteY
  | indirect
  | indirectX
  | indirectY
  | single
  | branch
deriving DecidableEq, Repr

namespace Column

/-- Every column, in table order. -/
def all : List Column :=
  [immediate, zeroPage, zeroPageX, zeroPageY, absolute, absoluteX, absoluteY,
   indirect, indirectX, indirectY, single, branch]

/-- The order in which an operand is tried against the columns.  A zero-page column
comes before its absolute counterpart, so a short operand is never widened. -/
def tried : List Column :=
  [single, immediate, zeroPage, zeroPageX, zeroPageY, absoluteX, absoluteY,
   indirect, indirectX, indirectY, absolute, branch]

/-- The addressing mode that a column stands for. -/
def mode (m : Mnemonic) : Column → Mode
  | immediate => .immediate
  | zeroPage => .zeroPage
  | zeroPageX => .zeroPageX
  | zeroPageY => .zeroPageY
  | absolute => .absolute
  | absoluteX => .absoluteX
  | absoluteY => .absoluteY
  | indirect => .indirect
  | indirectX => .indirectX
  | indirectY => .indirectY
  | single => if m.hasAccumulatorForm then .accumulator else .implicit
  | branch => .relative

theorem mem_tried (c : Column) : c ∈ tried := by
  cases c <;> decide

end Column

/-- The columns that a mnemonic has, each with its opcode. -/
def Mnemonic.encodings : Mnemonic → List (Column × UInt8)
  | .adc => [(.immediate, 0x69), (.zeroPage, 0x65), (.zeroPageX, 0x75), (.absolute, 0x6d),
      (.absoluteX, 0x7d), (.absoluteY, 0x79), (.indirectX, 0x61), (.indirectY, 0x71)]
  | .and => [(.immediate, 0x29), (.zeroPage, 0x25), (.zeroPageX, 0x35), (.absolute, 0x2d),
      (.absoluteX, 0x3d), (.absoluteY, 0x39), (.indirectX, 0x21), (.indirectY, 0x31)]
  | .asl => [(.zeroPage, 0x06), (.zeroPageX, 0x16), (.absolute, 0x0e), (.absoluteX, 0x1e),
      (.single, 0x0a)]
  | .bit => [(.zeroPage, 0x24), (.absolute, 0x2c)]
  | .bpl => [(.branch, 0x10)]
  | .bmi => [(.branch, 0x30)]
  | .bvc => [(.branch, 0x50)]
  | .bvs => [(.branch, 0x70)]
  | .bcc => [(.branch, 0x90)]
  | .bcs => [(.branch, 0xb0)]
  | .bne => [(.branch, 0xd0)]
  | .beq => [(.branch, 0xf0)]
  | .brk => [(.single, 0x00)]
  | .cmp => [(.immediate, 0xc9), (.zeroPage, 0xc5), (.zeroPageX, 0xd5), (.absolute, 0xcd),
      (.absoluteX, 0xdd), (.absoluteY, 0xd9), (.indirectX, 0xc1), (.indirectY, 0xd1)]
  | .cpx => [(.immediate, 0xe0), (.zeroPage, 0xe4), (.absolute, 0xec)]
  | .cpy => [(.immediate, 0xc0), (.zeroPage, 0xc4), (.absolute, 0xcc)]
  | .dec => [(.zeroPage, 0xc6), (.zeroPageX, 0xd6), (.absolute, 0xce), (.absoluteX, 0xde)]
  | .eor => [(.immediate, 0x49), (.zeroPage, 0x45), (.zeroPageX, 0x55), (.absolute, 0x4d),
      (.absoluteX, 0x5d), (.absoluteY, 0x59), (.indirectX, 0x41), (.indirectY, 0x51)]
  | .clc => [(.single, 0x18)]
  | .sec => [(.single, 0x38)]
  | .cli => [(.single, 0x58)]
  | .sei => [(.single, 0x78)]
  | .clv => [(.single, 0xb8)]
  | .cld => [(.single, 0xd8)]
  | .sed => [(.single, 0xf8)]
  | .inc => [(.zeroPage, 0xe6), (.zeroPageX, 0xf6), (.absolute, 0xee), (.absoluteX, 0xfe)]
  | .jmp => [(.absolute, 0x4c), (.indirect, 0x6c)]
  | .jsr => [(.absolute, 0x20)]
  | .lda => [(.immediate, 0xa9), (.zeroPage, 0xa5), (.zeroPageX, 0xb5), (.absolute, 0xad),
      (.absoluteX, 0xbd), (.absoluteY, 0xb9), (.indirectX, 0xa1), (.indirectY, 0xb1)]
  | .ldx => [(.immediate, 0xa2), (.zeroPage, 0xa6), (.zeroPageY, 0xb6), (.absolute, 0xae),
      (.absoluteY, 0xbe)]
  | .ldy => [(.immediate, 0xa0), (.zeroPage, 0xa4), (.zeroPageX, 0xb4), (.absolute, 0xac),
      (.absoluteX, 0xbc)]
  | .lsr => [(.zeroPage, 0x46), (.zeroPageX, 0x56), (.absolute, 0x4e), (.absoluteX, 0x5e),
      (.single, 0x4a)]
  | .nop => [(.single, 0xea)]
  | .ora => [(.immediate, 0x09), (.zeroPage, 0x05), (.zeroPageX, 0x15), (.absolute, 0x0d),
      (.absoluteX, 0x1d), (.absoluteY, 0x19), (.indirectX, 0x01), (.indirectY, 0x11)]
  | .tax => [(.single, 0xaa)]
  | .txa => [(.single, 0x8a)]
  | .dex => [(.single, 0xca)]
  | .inx => [(.single, 0xe8)]
  | .tay => [(.single, 0xa8)]
  | .tya => [(.single, 0x98)]
  | .dey => [(.single, 0x88)]
  | .iny => [(.single, 0xc8)]
  | .ror => [(.zeroPage, 0x66), (.zeroPageX, 0x76), (.absolute, 0x6e), (.absoluteX, 0x7e),
      (.single, 0x6a)]
  | .rol => [(.zeroPage, 0x26), (.zeroPageX, 0x36), (.absolute, 0x2e), (.absoluteX, 0x3e),
      (.single, 0x2a)]
  | .rti => [(.single, 0x40)]
  | .rts => [(.single, 0x60)]
  | .sbc => [(.immediate, 0xe9), (.zeroPage, 0xe5), (.zeroPageX, 0xf5), (.absolute, 0xed),
      (.absoluteX, 0xfd), (.absoluteY, 0xf9), (.indirectX, 0xe1), (.indirectY, 0xf1)]
  | .sta => [(.zeroPage, 0x85), (.zeroPageX, 0x95), (.absolute, 0x8d), (.absoluteX, 0x9d),
      (.absoluteY, 0x99), (.indirectX, 0x81), (.indirectY, 0x91)]
  | .txs => [(.single, 0x9a)]
  | .tsx => [(.single, 0xba)]
  | .pha => [(.single, 0x48)]
  | .pla => [(.single, 0x68)]
  | .php => [(.single, 0x08)]
  | .plp => [(.single, 0x28)]
  | .stx => [(.zeroPage, 0x86), (.zeroPageY, 0x96), (.absolute, 0x8e)]
  | .sty => [(.zeroPage, 0x84), (.zeroPageX, 0x94), (.absolute, 0x8c)]

/-- The opcode of a mnemonic in a column, if it has that column. -/
def Mnemonic.opcode? (m : Mnemonic) (c : Column) : Option UInt8 :=
  m.encodings.lookup c

/-- What an opcode does: the instruction, and how it finds its operand. -/
structure Operation where
  mnemonic : Mnemonic
  mode : Mode
deriving DecidableEq, Repr

/-- The number of bytes of the whole instruction. -/
def Operation.size (op : Operation) : Nat :=
  op.mode.size

/-- Every documented opcode with its operation. -/
def opcodes : List (UInt8 × Operation) :=
  Mnemonic.all.flatMap fun m => m.encodings.map fun e => (e.2, ⟨m, e.1.mode m⟩)

/-- The opcode with which a program prints the accumulator.  It is no documented
instruction, and so it is not in the table. -/
def outputOpcode : UInt8 := 0x42

/-- The operation of a documented opcode. -/
def decode (opcode : UInt8) : Option Operation :=
  opcodes.lookup opcode

/-! ### What decoding finds -/

/-- No byte is the opcode of two operations. -/
theorem opcodes_nodup : (opcodes.map Prod.fst).Nodup := by
  decide +kernel

example : opcodes.length = 151 := by decide +kernel

theorem decode_outputOpcode : decode outputOpcode = none := by
  decide +kernel

theorem ne_outputOpcode_of_decode {opcode : UInt8} {op : Operation}
    (h : decode opcode = some op) : opcode ≠ outputOpcode := by
  rintro rfl
  rw [decode_outputOpcode] at h
  cases h

/-- In a table without repeated keys, looking up finds every entry. -/
private theorem lookup_of_mem {α β : Type} [BEq α] [LawfulBEq α] {k : α} {v : β} :
    ∀ {l : List (α × β)}, (l.map Prod.fst).Nodup → (k, v) ∈ l → l.lookup k = some v
  | [], _, h => by simp at h
  | (k', v') :: l, hd, h => by
    rw [List.map_cons, List.nodup_cons] at hd
    rcases List.mem_cons.mp h with heq | hmem
    · cases heq; simp
    · have hne : k ≠ k' := fun hk =>
        hd.1 (hk ▸ List.mem_map.mpr ⟨(k, v), hmem, rfl⟩)
      have hbeq : (k == k') = false := by simpa using hne
      rw [List.lookup_cons, hbeq]
      exact lookup_of_mem hd.2 hmem

private theorem mem_of_lookup {α β : Type} [BEq α] [LawfulBEq α] {k : α} {v : β} :
    ∀ {l : List (α × β)}, l.lookup k = some v → (k, v) ∈ l
  | [], h => by simp at h
  | (k', v') :: l, h => by
    by_cases hk : k = k'
    · subst hk
      simp at h
      simp [h]
    · have hbeq : (k == k') = false := by simpa using hk
      rw [List.lookup_cons, hbeq] at h
      exact List.mem_cons_of_mem _ (mem_of_lookup h)

/-- An operation is decoded from exactly the bytes that encode it. -/
theorem decode_eq_some_iff {opcode : UInt8} {op : Operation} :
    decode opcode = some op ↔
      ∃ c, (c, opcode) ∈ op.mnemonic.encodings ∧ c.mode op.mnemonic = op.mode := by
  constructor
  · intro h
    obtain ⟨m, -, he⟩ := List.mem_flatMap.mp (mem_of_lookup h)
    obtain ⟨⟨c, code⟩, hmem, heq⟩ := List.mem_map.mp he
    cases heq
    exact ⟨c, hmem, rfl⟩
  · rintro ⟨c, hmem, hmode⟩
    refine lookup_of_mem opcodes_nodup (List.mem_flatMap.mpr ⟨op.mnemonic, op.mnemonic.mem_all, ?_⟩)
    exact List.mem_map.mpr ⟨(c, opcode), hmem, by rw [hmode]⟩

end Mos6502
