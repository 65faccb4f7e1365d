/-
A printed operand is encoded in the column that it was decoded from.

An operand is printed for its addressing mode, and the assembler has to find the mode again.
It tries the columns of the mnemonic in a fixed order and takes the first that accepts the
operand.  The column that the opcode stands for does accept it, and what it makes of it is
the bytes that were printed (`encode?_operandText`).  That none is taken before it has three
reasons.  A column that accepts the operand as well wants the same shape; if the operand was
printed as a word then no column for a byte takes it; and what is left is tried later, save
for a branch, whose mnemonic has no other column (`idxOf_tried_le`).
-/
import Mos6502.Proofs.Decoding
import Mos6502.Proofs.Printed

namespace Mos6502

variable {m : Mnemonic} {c c' : Column} {labels : Labels} {pass : Pass} {address pc : UInt16}
  {opcode : UInt8} {operand : List UInt8} {text : Text} {shape : Shape}

/-! ### The first column that accepts -/

/-- The column of an operand is tried before all others that accept it. -/
theorem Mnemonic.idxOf_tried_le_of_column? (hcolumn : m.column? labels pass pc text = some c)
    (h : (m.encodeAs? labels pass pc text c').isSome = true) :
    Column.tried.idxOf c ≤ Column.tried.idxOf c' := by
  obtain ⟨-, before, behind, htried, hbefore⟩ := List.find?_eq_some_iff_append.mp hcolumn
  have notMem : ∀ c', (m.encodeAs? labels pass pc text c').isSome = true → c' ∉ before := by
    intro c' hc' hmem
    have := hbefore c' hmem
    rw [hc'] at this
    exact absurd this (by decide)
  rw [htried, List.idxOf_append_of_notMem (notMem c' h),
    List.idxOf_append_of_notMem (notMem c (isSome_of_column? hcolumn)), List.idxOf_cons_self]
  exact Nat.add_le_add_left (Nat.zero_le _) _

/-- A column that accepts, and before which none does, is the column of the operand. -/
theorem Mnemonic.column?_eq_of_first
    (haccepts : (m.encodeAs? labels pass pc text c).isSome = true)
    (hfirst : ∀ c', (m.encodeAs? labels pass pc text c').isSome = true →
      Column.tried.idxOf c ≤ Column.tried.idxOf c') :
    m.column? labels pass pc text = some c := by
  cases hfound : m.column? labels pass pc text with
  | none => exact absurd haccepts (List.find?_eq_none.mp hfound c c.mem_tried)
  | some c' =>
    have heq := Nat.le_antisymm (idxOf_tried_le_of_column? hfound haccepts)
      (hfirst c' (isSome_of_column? hfound))
    rw [(List.idxOf_inj c'.mem_tried).mp heq]

/-! ### Which columns compete -/

/-- Of two columns for the same shape the one for a byte is tried first, and the one for an
address before that for a branch. -/
theorem Column.idxOf_tried_le (hshape : c.shape? = some shape)
    (hshape' : c'.shape? = some shape) (hshort : c.isShort = false → c'.isShort = false)
    (hbranch : c = .branch → c' = .branch) :
    tried.idxOf c ≤ tried.idxOf c' := by
  have key : ∀ c ∈ tried, ∀ c' ∈ tried, c.shape? = c'.shape? → c.shape?.isSome = true →
      (c.isShort = false → c'.isShort = false) → (c = .branch → c' = .branch) →
        tried.idxOf c ≤ tried.idxOf c' := by
    decide
  exact key c c.mem_tried c' c'.mem_tried (hshape.trans hshape'.symm)
    (Option.isSome_of_eq_some hshape) hshort hbranch

/-- A mnemonic with a branch has nothing else. -/
theorem Mnemonic.eq_branch_of_opcode? (hbranch : (m.opcode? .branch).isSome = true)
    (h : (m.opcode? c).isSome = true) : c = .branch := by
  have key : ∀ m ∈ all, (m.opcode? .branch).isSome = true →
      ∀ c ∈ Column.tried, (m.opcode? c).isSome = true → c = .branch := by
    decide +kernel
  exact key m m.mem_all hbranch c c.mem_tried h

/-- So a column for an atomic base is tried first of those that take the operand, if it is the
shortest of them. -/
theorem Column.idxOf_tried_le_of_fits {base : Text} (hshape : c.shape? = some shape)
    (hbase : shape.base? text = some base) (hatomic : isAtomic base = true)
    (hlength : 2 ≤ text.length)
    (hshort : c.isShort = false → Operand.takes c' base = true → c'.isShort = false)
    (hbranch : c = .branch → c' = .branch) (hfits : Operand.fits text c' = true) :
    tried.idxOf c ≤ tried.idxOf c' := by
  rcases Operand.eq_single_or_takes_of_fits hbase hatomic hfits with hsingle | ⟨hshape', htakes⟩
  · exact absurd hsingle (Operand.ne_single_of_fits hlength hfits)
  · exact idxOf_tried_le hshape hshape' (fun h => hshort h htakes) hbranch

/-! ### What is printed -/

namespace Shape

/-- The letter that an index register is printed with. -/
def letter : Shape → Char
  | x | indirectX => 'X'
  | _ => 'Y'

theorem base?_write (shape : Shape) (base : Text) :
    shape.base? (shape.write shape.letter base) = some base := by
  refine base?_eq_some_iff.mpr ⟨shape.letter, ?_, rfl⟩
  intro r hr
  cases shape <;> cases hr <;> rfl

end Shape

namespace Instruction

/-- Whether the target of a branch is reached without a turn around the end of memory. -/
def reaches (i : Instruction) : Bool :=
  match i.mode, i.operand with
  | .relative, offset :: _ =>
    decide (0 ≤ (i.address.toNat : Int) + 2 + signed offset ∧
      (i.address.toNat : Int) + 2 + signed offset ≤ 65535)
  | _, _ => true

/-- The number in a printed operand. -/
def baseText (address : UInt16) (c : Column) : List UInt8 → Text
  | [b] => if c = .branch then dollarWord (branchTarget address b) else dollarByte b
  | [low, high] => dollarWord (wordOf low high)
  | _ => []

theorem operandText_of_shape (hshape : c.shape? = some shape)
    (hlength : operand.length = (c.mode m).operandLength) :
    operandText ⟨address, opcode, some ⟨m, c.mode m⟩, operand⟩ =
      shape.write shape.letter (baseText address c operand) := by
  cases c with
  | immediate | single => cases hshape
  | absolute | absoluteX | absoluteY | indirect =>
    obtain ⟨low, high, rfl⟩ := List.length_eq_two.mp hlength
    cases hshape
    rfl
  | _ =>
    obtain ⟨b, rfl⟩ := List.length_eq_one_iff.mp hlength
    cases hshape
    rfl

theorem two_le_length_operandText (hshape : c.shape? = some shape)
    (hlength : operand.length = (c.mode m).operandLength) :
    2 ≤ (operandText ⟨address, opcode, some ⟨m, c.mode m⟩, operand⟩).length := by
  rw [operandText_of_shape hshape hlength]
  cases c with
  | immediate | single => cases hshape
  | absolute | absoluteX | absoluteY | indirect =>
    obtain ⟨low, high, rfl⟩ := List.length_eq_two.mp hlength
    cases hshape
    simp [Shape.write, baseText, dollarWord, hexWord]
  | _ =>
    obtain ⟨b, rfl⟩ := List.length_eq_one_iff.mp hlength
    cases hshape
    simp [Shape.write, baseText, dollarWord, dollarByte, hexWord, hexByte]

/-- A column makes of the printed number the bytes that were printed. -/
theorem encodeBase?_baseText (hshape : c.shape? = some shape)
    (hlength : operand.length = (c.mode m).operandLength)
    (hreach : reaches ⟨address, opcode, some ⟨m, c.mode m⟩, operand⟩ = true) :
    Operand.encodeBase? labels .emit address c (baseText address c operand) =
      some (.ok operand) := by
  cases c with
  | immediate | single => cases hshape
  | absolute | absoluteX | absoluteY | indirect =>
    obtain ⟨low, high, rfl⟩ := List.length_eq_two.mp hlength
    simp [Operand.encodeBase?, Column.isShort, baseText, address?_dollarWord,
      Operand.wordBytes]
  | branch =>
    obtain ⟨b, rfl⟩ := List.length_eq_one_iff.mp hlength
    have hstay := of_decide_eq_true hreach
    simp [Operand.encodeBase?, Column.isShort, baseText, address?_dollarWord,
      Operand.offset_branchTarget hstay.1 hstay.2]
  | _ =>
    obtain ⟨b, rfl⟩ := List.length_eq_one_iff.mp hlength
    simp [Operand.encodeBase?, Column.isShort, baseText, short?_dollarByte]

/-- A number that was printed as a word is taken by no column for a byte. -/
theorem isShort_of_takes (hshape : c.shape? = some shape)
    (hlength : operand.length = (c.mode m).operandLength) (hshort : c.isShort = false)
    (htakes : Operand.takes c' (baseText address c operand) = true) : c'.isShort = false := by
  obtain ⟨w, hw⟩ : ∃ w, baseText address c operand = dollarWord w := by
    cases c with
    | absolute | absoluteX | absoluteY | indirect =>
      obtain ⟨low, high, rfl⟩ := List.length_eq_two.mp hlength
      exact ⟨_, rfl⟩
    | branch =>
      obtain ⟨b, rfl⟩ := List.length_eq_one_iff.mp hlength
      exact ⟨_, rfl⟩
    | immediate | single => cases hshape
    | _ => cases hshort
  by_contra hc'
  rw [hw, Operand.takes, if_pos (by simpa using hc'), short?_dollarWord] at htakes
  exact absurd htakes (by decide)

/-! ### What becomes of it -/

section

variable (hlength : operand.length = (c.mode m).operandLength)
  (hreach : reaches ⟨address, opcode, some ⟨m, c.mode m⟩, operand⟩ = true)

include hlength hreach

/-- The column of the opcode makes of the printed operand the bytes that were printed. -/
theorem encode?_operandText :
    Operand.encode? labels .emit address
      (operandText ⟨address, opcode, some ⟨m, c.mode m⟩, operand⟩) c = some (.ok operand) := by
  cases hc : c.shape? with
  | some shape =>
    rw [Operand.encode?_of_shape hc, operandText_of_shape hc hlength, Shape.base?_write]
    exact encodeBase?_baseText hc hlength hreach
  | none =>
    rcases Column.single_or_immediate hc with rfl | rfl
    · by_cases hm : m.hasAccumulatorForm = true
      · have hmode : Column.single.mode m = .accumulator := by
          simp [Column.mode, hm]
        rw [hmode] at hlength ⊢
        rw [List.length_eq_zero_iff.mp hlength]
        rfl
      · have hmode : Column.single.mode m = .implicit := by
          simp [Column.mode, hm]
        rw [hmode] at hlength ⊢
        rw [List.length_eq_zero_iff.mp hlength]
        rfl
    · obtain ⟨b, rfl⟩ := List.length_eq_one_iff.mp hlength
      show (Option.bind (Literal.parse? (dollarByte b)) Literal.byte?).map _ = _
      rw [parse?_dollarByte, Option.bind_some, byte?_toUInt16]
      rfl

/-- No column that takes the printed operand as well is tried before. -/
theorem idxOf_le_of_encodeAs? (labels : Labels) (hopcode : (m.opcode? c).isSome = true)
    (h : (m.encodeAs? labels .emit address
      (operandText ⟨address, opcode, some ⟨m, c.mode m⟩, operand⟩) c').isSome = true) :
    Column.tried.idxOf c ≤ Column.tried.idxOf c' := by
  rw [Mnemonic.isSome_encodeAs?, Bool.and_eq_true] at h
  have hfits := Operand.fits_of_emit h.2
  cases hc : c.shape? with
  | some shape =>
    have hbase := Shape.base?_write shape (baseText address c operand)
    rw [← operandText_of_shape hc hlength] at hbase
    have hemit : Operand.encodeBase? labels .emit address c (baseText address c operand) =
        some (.ok operand) := encodeBase?_baseText hc hlength hreach
    have hatomic : isAtomic (baseText address c operand) = true :=
      Operand.isAtomic_of_takes (Operand.takes_of_emit (Option.isSome_of_eq_some hemit))
    refine Column.idxOf_tried_le_of_fits hc hbase hatomic (two_le_length_operandText hc hlength)
      (fun hshort htakes => isShort_of_takes hc hlength hshort htakes) ?_ hfits
    rintro rfl
    exact Mnemonic.eq_branch_of_opcode? hopcode h.1
  | none =>
    rcases Column.single_or_immediate hc with rfl | rfl
    · exact Nat.zero_le _
    · obtain ⟨b, rfl⟩ := List.length_eq_one_iff.mp hlength
      rw [Operand.eq_immediate_of_fits hfits]

/-- So the printed operand is encoded in the column that it was decoded from. -/
theorem column?_operandText (labels : Labels) (hopcode : m.opcode? c = some opcode) :
    m.column? labels .emit address
      (operandText ⟨address, opcode, some ⟨m, c.mode m⟩, operand⟩) = some c := by
  refine Mnemonic.column?_eq_of_first ?_ ?_
  · rw [Mnemonic.isSome_encodeAs?, hopcode, encode?_operandText hlength hreach]
    rfl
  · intro c' hc'
    exact idxOf_le_of_encodeAs? hlength hreach labels (Option.isSome_of_eq_some hopcode) hc'

end

theorem opcode?_of_mem (h : (c, opcode) ∈ m.encodings) : m.opcode? c = some opcode := by
  have key : ∀ m ∈ Mnemonic.all, ∀ e ∈ m.encodings, m.opcode? e.1 = some e.2 := by
    decide +kernel
  exact key m m.mem_all _ h

/-- An instruction that was decoded and printed is encoded as the bytes it was decoded from. -/
theorem encode_operandText {op : Operation} (labels : Labels) (hdecode : decode opcode = some op)
    (hlength : operand.length = op.mode.operandLength)
    (hreach : reaches ⟨address, opcode, some op, operand⟩ = true) :
    op.mnemonic.encode labels .emit address
      (operandText ⟨address, opcode, some op, operand⟩) = .ok (opcode :: operand) := by
  obtain ⟨c, hmem, hmode⟩ := decode_eq_some_iff.mp hdecode
  obtain ⟨m, mode⟩ := op
  replace hmode : c.mode m = mode := hmode
  subst hmode
  have hopcode := opcode?_of_mem hmem
  refine Mnemonic.encode_eq_ok_iff.mpr
    ⟨c, column?_operandText hlength hreach labels hopcode, ?_⟩
  exact Mnemonic.encodeAs?_eq_ok_iff.mpr
    ⟨opcode, operand, hopcode, encode?_operandText hlength hreach, rfl⟩

end Instruction

end Mos6502
