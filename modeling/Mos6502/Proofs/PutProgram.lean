/-
A program of stores, and what it is assembled to.

A put is a byte and the address that it is for.  A program puts it there with two lines, one
that loads the byte and one that stores it.  Both numbers are written with as many digits as
they have, so the width of the literal decides the form: the address is an absolute operand
even if it is one of page zero, and the code of a put has always five bytes.
-/
import Mos6502.Proofs.Reassemble

namespace Mos6502

/-- A byte and the address that it is for, as they are written in a program: with two and with
four hexadecimal digits, in letters of either case. -/
structure Put where
  value : UInt8
  address : UInt16
  valueDigits : Text
  addressDigits : Text
  length_valueDigits : valueDigits.length = 2
  length_addressDigits : addressDigits.length = 4
  word?_valueDigits : word? 16 valueDigits = some value.toUInt16
  word?_addressDigits : word? 16 addressDigits = some address

namespace Put

/-- A put in small letters. -/
def of (value : UInt8) (address : UInt16) : Put where
  value
  address
  valueDigits := hexByte value
  addressDigits := hexWord address
  length_valueDigits := length_hexByte value
  length_addressDigits := length_hexWord address
  word?_valueDigits := word?_hexByte value
  word?_addressDigits := word?_hexWord address

/-- The two lines of a put. -/
def lines (p : Put) : List Text :=
  ["LDA #$".toList ++ p.valueDigits, "STA $".toList ++ p.addressDigits]

/-- The code of a put. -/
def code (p : Put) : List UInt8 :=
  [0xa9, p.value, 0x8d, lowByte p.address, highByte p.address]

/-- What a put does to memory. -/
def change (p : Put) : Change :=
  ⟨p.address, p.value⟩

end Put

variable {labels : Labels} {pc w : UInt16} {m : Mnemonic} {opcode b : UInt8} {digits text : Text}
  {short : Bool} {e : Emitted} {source : Text} {puts : List Put}

/-! ### Numbers in hexadecimal -/

theorem mem_printedChars_of_isDigitOf {c : Char} (h : isDigitOf 16 c = true) :
    c ∈ printedChars := by
  have key : ∀ n < 128, isDigitOf 16 (Char.ofNat n) = true → Char.ofNat n ∈ printedChars := by
    decide
  have hascii : c.toNat < 128 := by
    have hvalue : digitValue c < 16 := of_decide_eq_true h
    unfold digitValue at hvalue
    split at hvalue
    · rename_i hdigit
      simp only [Char.isDigit, Bool.and_eq_true, decide_eq_true_eq] at hdigit
      exact Nat.lt_of_le_of_lt hdigit.2 (by decide)
    · split at hvalue
      · rename_i hsmall
        exact Nat.lt_of_le_of_lt hsmall.2 (by decide)
      · split at hvalue
        · rename_i hcapital
          exact Nat.lt_of_le_of_lt hcapital.2 (by decide)
        · omega
  rw [← Char.ofNat_toNat c] at h ⊢
  exact key _ hascii h

theorem printed_of_word? (h : word? 16 digits = some w) : Printed digits :=
  fun c hc => mem_printedChars_of_isDigitOf (all_isDigitOf_of_word? h c hc)

theorem parse?_dollar (h : word? 16 digits = some w) :
    Literal.parse? ('$' :: digits) = some ⟨w, decide (digits.length ≤ 2)⟩ := by
  rw [Literal.parse?, h]
  rfl

/-! ### Immediate and absolute operands -/

namespace Mnemonic

theorem encode_of_column? {c : Column} {operand : List UInt8}
    (hcolumn : m.column? labels .emit pc text = some c) (hopcode : m.opcode? c = some opcode)
    (hoperand : Operand.encode? labels .emit pc text c = some (.ok operand)) :
    m.encode labels .emit pc text = .ok (opcode :: operand) :=
  encode_eq_ok_iff.mpr
    ⟨c, hcolumn, encodeAs?_eq_ok_iff.mpr ⟨opcode, operand, hopcode, hoperand, rfl⟩⟩

/-- A byte behind the sign of an immediate operand is one. -/
theorem encode_immediate (hopcode : m.opcode? .immediate = some opcode)
    (h : word? 16 digits = some b.toUInt16) (labels : Labels) (pc : UInt16) :
    m.encode labels .emit pc ('#' :: '$' :: digits) = .ok [opcode, b] := by
  have hoperand : Operand.encode? labels .emit pc ('#' :: '$' :: digits) .immediate =
      some (.ok [b]) := by
    show (Option.bind (Literal.parse? ('$' :: digits)) Literal.byte?).map _ = _
    rw [parse?_dollar h, Option.bind_some, byte?_toUInt16]
    rfl
  refine encode_of_column? (column?_eq_of_first ?_ ?_) hopcode hoperand
  · rw [isSome_encodeAs?, hopcode, hoperand]
    rfl
  · intro c hc
    rw [isSome_encodeAs?, Bool.and_eq_true] at hc
    rw [Operand.eq_immediate_of_fits (Operand.fits_of_emit hc.2)]

/-- A number that is not written in zero-page width is an absolute operand. -/
theorem encode_absolute (hopcode : m.opcode? .absolute = some opcode)
    (h : Literal.parse? text = some ⟨w, false⟩) (hlength : 2 ≤ text.length) (labels : Labels)
    (pc : UInt16) : m.encode labels .emit pc text = .ok [opcode, lowByte w, highByte w] := by
  have hoperand : Operand.encode? labels .emit pc text .absolute =
      some (.ok [lowByte w, highByte w]) := by
    simp [Operand.encode?, Operand.address?, h, Operand.wordBytes]
  have hshape : Column.absolute.shape? = some .plain := rfl
  have hbase : Shape.plain.base? text = some text := rfl
  have hatomic : isAtomic text = true := by
    simp [isAtomic, h]
  refine encode_of_column? (column?_eq_of_first ?_ ?_) hopcode hoperand
  · rw [isSome_encodeAs?, hopcode, hoperand]
    rfl
  · intro c hc
    rw [isSome_encodeAs?, Bool.and_eq_true] at hc
    refine Column.idxOf_tried_le_of_fits hshape hbase hatomic hlength
      (fun _ htakes => ?_) (fun hbranch => by cases hbranch) (Operand.fits_of_emit hc.2)
    by_contra hshort
    simp [Operand.takes, hshort, Operand.short?, h, Literal.shortByte?] at htakes

end Mnemonic

/-! ### The lines of a put -/

/-- A line without a label emits the same bytes whatever labels there are and wherever it
stands. -/
def Fixed (text : Text) (bytes : List UInt8) : Prop :=
  ∀ labels pc, ∃ s : Statement, Line.parse? text = some ⟨none, s⟩ ∧
    s.effect labels .emit pc = .ok (.bytes bytes)

theorem fixed_instruction {operand : Text} {bytes : List UInt8} (hoperand : Printed operand)
    (h : ∀ labels pc, m.encode labels .emit pc operand = .ok bytes) :
    Fixed (layOut m.name operand) bytes := by
  intro labels pc
  refine ⟨_, parse?_instruction m hoperand, ?_⟩
  rw [Statement.effect, h]
  rfl

theorem Fixed.emitLine_eq {bytes : List UInt8} (h : Fixed text bytes) (labels : Labels)
    (pc : UInt16) : emitLine labels pc text = .ok (.bytes bytes) := by
  obtain ⟨s, hparse, heffect⟩ := h labels pc
  exact emitLine_eq_ok_iff.mpr ⟨_, hparse, heffect⟩

namespace Put

theorem printed_valueDigits (p : Put) : Printed ('#' :: '$' :: p.valueDigits) :=
  printed_cons.mpr ⟨by decide, printed_cons.mpr ⟨by decide, printed_of_word? p.word?_valueDigits⟩⟩

theorem printed_addressDigits (p : Put) : Printed ('$' :: p.addressDigits) :=
  printed_cons.mpr ⟨by decide, printed_of_word? p.word?_addressDigits⟩

/-- The two lines with what each of them emits. -/
def emits (p : Put) : List (Text × List UInt8) :=
  [(layOut Mnemonic.lda.name ('#' :: '$' :: p.valueDigits), [0xa9, p.value]),
    (layOut Mnemonic.sta.name ('$' :: p.addressDigits),
      [0x8d, lowByte p.address, highByte p.address])]

theorem lines_eq (p : Put) : p.lines = p.emits.map Prod.fst := rfl

theorem printedLine_of_mem {p : Put} (h : text ∈ p.lines) : PrintedLine text := by
  have hname : ∀ m : Mnemonic, Printed m.name ∧ m.name ≠ [] ∧ m.name.length ≠ 6 := by
    intro m
    refine ⟨Instruction.printed_name ⟨0, 0, some ⟨m, .implicit⟩, []⟩, ?_, ?_⟩
    · intro hnil
      simpa [hnil] using Mnemonic.length_name m
    · rw [Mnemonic.length_name]
      decide
  rw [lines_eq, emits, List.map_cons, List.map_singleton, List.mem_cons, List.mem_singleton] at h
  rcases h with rfl | rfl
  · exact .mk _ _ (hname _).1 (hname _).2.1 (hname _).2.2 p.printed_valueDigits
  · exact .mk _ _ (hname _).1 (hname _).2.1 (hname _).2.2 p.printed_addressDigits

theorem fixed_of_mem {p : Put} {x : Text × List UInt8} (hx : x ∈ p.emits) : Fixed x.1 x.2 := by
  have hload : Mnemonic.lda.opcode? .immediate = some 0xa9 := by decide
  have hstore : Mnemonic.sta.opcode? .absolute = some 0x8d := by decide
  have hparse : Literal.parse? ('$' :: p.addressDigits) = some ⟨p.address, false⟩ := by
    rw [parse?_dollar p.word?_addressDigits, p.length_addressDigits]
    rfl
  have hlength : 2 ≤ ('$' :: p.addressDigits).length := by
    rw [List.length_cons, p.length_addressDigits]
    decide
  rw [emits, List.mem_cons, List.mem_singleton] at hx
  rcases hx with rfl | rfl
  · exact fixed_instruction p.printed_valueDigits
      (Mnemonic.encode_immediate hload p.word?_valueDigits)
  · exact fixed_instruction p.printed_addressDigits
      (Mnemonic.encode_absolute hstore hparse hlength)

end Put

/-! ### Lines with fixed bytes -/

section

variable {lines : List (Text × List UInt8)} (hfixed : ∀ x ∈ lines, Fixed x.1 x.2)

include hfixed

/-- Lines with fixed bytes put them one behind the other. -/
theorem emitFrom_of_fixed (labels : Labels) (e : Emitted) (line : Nat) :
    ∃ e', emitFrom labels e line (lines.map Prod.fst) = (e', none) ∧
      e'.pc = e.pc + UInt16.ofNat (lines.flatMap Prod.snd).length ∧
      e'.count = e.count + (lines.flatMap Prod.snd).length ∧
      e'.changes.toList =
        e.changes.toList ++ Memory.changesFrom e.pc (lines.flatMap Prod.snd) := by
  induction lines generalizing e line with
  | nil => exact ⟨e, rfl, (UInt16.add_zero e.pc).symm, rfl, (List.append_nil _).symm⟩
  | cons x rest ih =>
    rw [List.forall_mem_cons] at hfixed
    obtain ⟨e', hemit, hpc, hcount, hchanges⟩ := ih hfixed.2 (e.store line x.2) (line + 1)
    refine ⟨e', ?_, ?_, ?_, ?_⟩
    · rw [List.map_cons, emitFrom, hfixed.1.emitLine_eq]
      exact hemit
    · rw [hpc, List.flatMap_cons, List.length_append, UInt16.ofNat_add, ← UInt16.add_assoc]
      rfl
    · rw [hcount, List.flatMap_cons, List.length_append, ← Nat.add_assoc]
      rfl
    · rw [hchanges, List.flatMap_cons, Memory.changesFrom_append, ← List.append_assoc]
      exact congrArg (· ++ _) (changes_take e line x.1 (.bytes x.2))

/-- A source of such lines is assembled if there is a byte, and a zero is put behind them. -/
theorem ofText_of_fixed (hprepared : Prepared.ofText source = ⟨lines.map Prod.fst, {}⟩)
    (hne : lines.flatMap Prod.snd ≠ []) :
    (Assembly.ofText source).result = .ok ⟨(lines.flatMap Prod.snd).length, 0⟩ ∧
      (Assembly.ofText source).changes =
        Memory.changesFrom startAddress (lines.flatMap Prod.snd ++ [0]) := by
  have hindex : Labels.index (Prepared.ofText source) = ({}, none) := by
    rw [hprepared]
    refine @indexFrom_of_unlabelled {} _ ?_ _ _ _ _
    rw [List.forall_mem_map]
    intro x hx
    obtain ⟨s, hparse, heffect⟩ := hfixed x hx {} 0
    exact ⟨s, _, _, hparse, heffect⟩
  obtain ⟨e, hemit, hpc, hcount, hchanges⟩ := emitFrom_of_fixed hfixed {} Emitted.initial 1
  have hbytes : e.count = (lines.flatMap Prod.snd).length := hcount.trans (Nat.zero_add _)
  have hsome : e.count ≠ 0 := by
    rw [hbytes]
    exact fun h => hne (List.length_eq_zero_iff.mp h)
  have hassembly := Assembly.ofText_eq_complete hindex (by rw [hprepared]; exact hemit)
  rw [hassembly]
  refine ⟨?_, ?_⟩
  · rw [Assembly.result_complete hsome, hbytes]
    rfl
  · rw [Assembly.changes_complete hsome, hchanges, hpc, Memory.changesFrom_append,
      Memory.changesFrom_cons]
    rfl

end

/-! ### The whole program -/

/-- The code of some puts. -/
def Put.program (puts : List Put) : List UInt8 :=
  puts.flatMap code

theorem Put.length_program (puts : List Put) : (program puts).length = 5 * puts.length := by
  induction puts with
  | nil => rfl
  | cons p rest ih =>
    rw [program, List.flatMap_cons, List.length_append, List.length_cons, Nat.mul_succ,
      Nat.add_comm]
    exact congrArg (· + 5) ih

/-- The lines of some puts are assembled to their code. -/
theorem ofText_puts (hne : puts ≠ []) (hlines : splitLines source = puts.flatMap Put.lines) :
    (Assembly.ofText source).result = .ok ⟨5 * puts.length, 0⟩ ∧
      (Assembly.ofText source).changes =
        Memory.changesFrom startAddress (Put.program puts ++ [0]) := by
  have hfst : (puts.flatMap Put.emits).map Prod.fst = puts.flatMap Put.lines := by
    rw [List.map_flatMap]
    rfl
  have hsnd : (puts.flatMap Put.emits).flatMap Prod.snd = Put.program puts := by
    rw [List.flatMap_assoc]
    rfl
  have hfixed : ∀ x ∈ puts.flatMap Put.emits, Fixed x.1 x.2 := by
    intro x hx
    obtain ⟨p, -, hp⟩ := List.mem_flatMap.mp hx
    exact Put.fixed_of_mem hp
  have hprepared : Prepared.ofText source = ⟨puts.flatMap Put.lines, {}⟩ := by
    refine prepared_of_splitLines hlines fun line hline => ?_
    obtain ⟨p, -, hp⟩ := List.mem_flatMap.mp hline
    exact Put.printedLine_of_mem hp
  have hbytes : Put.program puts ≠ [] := by
    have := List.length_pos_of_ne_nil hne
    rw [← List.length_pos_iff, Put.length_program]
    omega
  rw [← hfst] at hprepared
  rw [← hsnd] at hbytes ⊢
  obtain ⟨hresult, hchanges⟩ := ofText_of_fixed hfixed hprepared hbytes
  rw [hsnd, Put.length_program] at hresult
  exact ⟨hresult, hchanges⟩

end Mos6502
