/-
The 56 documented mnemonics of the 6502.

Each is written with three letters.  Source text may use either case, so reading
compares letters without regard to case; printing always uses capitals.
-/
import Mos6502.Text.Basic

namespace Mos6502

/-- An instruction name, in the order of the encoding table. -/
inductive Mnemonic where
  | adc | and | asl | bit | bpl | bmi | bvc | bvs
  | bcc | bcs | bne | beq | brk | cmp | cpx | cpy
  | dec | eor | clc | sec | cli | sei | clv | cld
  | sed | inc | jmp | jsr | lda | ldx | ldy | lsr
  | nop | ora | tax | txa | dex | inx | tay | tya
  | dey | iny | ror | rol | rti | rts | sbc | sta
  | txs | tsx | pha | pla | php | plp | stx | sty
deriving DecidableEq, Repr

namespace Mnemonic

/-- Every mnemonic, in table order. -/
def all : List Mnemonic :=
  [adc, and, asl, bit, bpl, bmi, bvc, bvs,
   bcc, bcs, bne, beq, brk, cmp, cpx, cpy,
   dec, eor, clc, sec, cli, sei, clv, cld,
   sed, inc, jmp, jsr, lda, ldx, ldy, lsr,
   nop, ora, tax, txa, dex, inx, tay, tya,
   dey, iny, ror, rol, rti, rts, sbc, sta,
   txs, tsx, pha, pla, php, plp, stx, sty]

/-- The three capital letters of a mnemonic. -/
def name : Mnemonic → Text
  | adc => ['A', 'D', 'C']
  | and => ['A', 'N', 'D']
  | asl => ['A', 'S', 'L']
  | bit => ['B', 'I', 'T']
  | bpl => ['B', 'P', 'L']
  | bmi => ['B', 'M', 'I']
  | bvc => ['B', 'V', 'C']
  | bvs => ['B', 'V', 'S']
  | bcc => ['B', 'C', 'C']
  | bcs => ['B', 'C', 'S']
  | bne => ['B', 'N', 'E']
  | beq => ['B', 'E', 'Q']
  | brk => ['B', 'R', 'K']
  | cmp => ['C', 'M', 'P']
  | cpx => ['C', 'P', 'X']
  | cpy => ['C', 'P', 'Y']
  | dec => ['D', 'E', 'C']
  | eor => ['E', 'O', 'R']
  | clc => ['C', 'L', 'C']
  | sec => ['S', 'E', 'C']
  | cli => ['C', 'L', 'I']
  | sei => ['S', 'E', 'I']
  | clv => ['C', 'L', 'V']
  | cld => ['C', 'L', 'D']
  | sed => ['S', 'E', 'D']
  | inc => ['I', 'N', 'C']
  | jmp => ['J', 'M', 'P']
  | jsr => ['J', 'S', 'R']
  | lda => ['L', 'D', 'A']
  | ldx => ['L', 'D', 'X']
  | ldy => ['L', 'D', 'Y']
  | lsr => ['L', 'S', 'R']
  | nop => ['N', 'O', 'P']
  | ora => ['O', 'R', 'A']
  | tax => ['T', 'A', 'X']
  | txa => ['T', 'X', 'A']
  | dex => ['D', 'E', 'X']
  | inx => ['I', 'N', 'X']
  | tay => ['T', 'A', 'Y']
  | tya => ['T', 'Y', 'A']
  | dey => ['D', 'E', 'Y']
  | iny => ['I', 'N', 'Y']
  | ror => ['R', 'O', 'R']
  | rol => ['R', 'O', 'L']
  | rti => ['R', 'T', 'I']
  | rts => ['R', 'T', 'S']
  | sbc => ['S', 'B', 'C']
  | sta => ['S', 'T', 'A']
  | txs => ['T', 'X', 'S']
  | tsx => ['T', 'S', 'X']
  | pha => ['P', 'H', 'A']
  | pla => ['P', 'L', 'A']
  | php => ['P', 'H', 'P']
  | plp => ['P', 'L', 'P']
  | stx => ['S', 'T', 'X']
  | sty => ['S', 'T', 'Y']

/-- The row of a mnemonic in the encoding table, counted from zero. -/
def row (m : Mnemonic) : Nat :=
  all.idxOf m

/-- The shifts and rotates, whose one-byte form works on the accumulator. -/
def hasAccumulatorForm : Mnemonic → Bool
  | asl | lsr | rol | ror => true
  | _ => false

/-- A text that names no instruction. -/
structure Unknown where
  text : Text
deriving DecidableEq, Repr

/-- What is reported about a text that names no instruction. -/
def Unknown.message (e : Unknown) : String :=
  s!"unknown mnemonic '{String.ofList e.text}'"

/-- The mnemonic that a text spells in any mixture of cases. -/
def ofText? (text : Text) : Option Mnemonic :=
  all.find? fun m => sameLetters m.name text

/-- Reads a mnemonic, or says which text was not one. -/
def parse (text : Text) : Except Unknown Mnemonic :=
  match ofText? text with
  | some m => .ok m
  | none => .error ⟨text⟩

theorem mem_all (m : Mnemonic) : m ∈ all := by
  cases m <;> decide

theorem length_name (m : Mnemonic) : m.name.length = 3 := by
  cases m <;> rfl

end Mnemonic

end Mos6502
