/-
The two passes agree.

Labels get their addresses while lines are sized, and the bytes are put at addresses while
lines are emitted.  A program is only right if both passes count alike.  They do because
each line that can be emitted was sized with the same length, whatever was known about
labels at the time (`Statement.effect_size_of_emit`); from there it is an induction over
the lines, in which an origin sets both addresses and everything else moves both by the
same word.

So the address in the table is the one at which the labelled line is emitted, and an
operand that names a label holds just that address.
-/
import Mos6502.Assembly.Basic
import Mos6502.Proofs.Column
import Mos6502.Proofs.Indexing

namespace Mos6502

namespace Emitted

@[simp] theorem pc_take (e : Emitted) (line : Nat) (effect : Effect) :
    (e.take line effect).pc = effect.next e.pc := by
  cases effect <;> rfl

end Emitted

variable {labels seen seen' : Labels} {symbols : Symbols} {pc : UInt16} {line : Nat}
  {text : Text} {before rest : List Text} {e e' : Emitted}

/-! ### Both passes over the same lines -/

/-- A run in which no line was rejected starts with a line that was emitted. -/
theorem emitFrom_cons (h : emitFrom labels e line (text :: rest) = (e', none)) :
    ∃ effect, emitLine labels e.pc text = .ok effect ∧
      emitFrom labels (e.take line effect) (line + 1) rest = (e', none) := by
  rw [emitFrom] at h
  cases hline : emitLine labels e.pc text with
  | error reason =>
    rw [hline] at h
    cases h
  | ok effect =>
    rw [hline] at h
    exact ⟨effect, rfl, h⟩

theorem emitLine_eq_ok_iff {effect : Effect} :
    emitLine labels pc text = .ok effect ↔
      ∃ parsed, Line.parse? text = some parsed ∧
        parsed.statement.effect labels .emit pc = .ok effect := by
  unfold emitLine
  cases Line.parse? text <;> simp

/-- A line with an instruction is emitted as the bytes of the instruction. -/
theorem encode_of_emitLine {label : Option Text} {m : Mnemonic} {operand : Text}
    {effect : Effect} (hparse : Line.parse? text = some ⟨label, .instruction m operand⟩)
    (h : emitLine labels pc text = .ok effect) :
    ∃ bytes, m.encode labels .emit pc operand = .ok bytes ∧ effect = .bytes bytes := by
  obtain ⟨parsed, hparsed, heffect⟩ := emitLine_eq_ok_iff.mp h
  rw [hparse] at hparsed
  cases hparsed
  simp only [Statement.effect] at heffect
  cases hencode : m.encode labels .emit pc operand with
  | error reason =>
    rw [hencode] at heffect
    cases heffect
  | ok bytes =>
    rw [hencode] at heffect
    cases heffect
    exact ⟨bytes, rfl, rfl⟩

/-- A line that is sized and emitted moves both addresses alike. -/
theorem next_eq_of_indexLine {effect : Effect}
    (hsize : Labels.indexLine symbols seen e.pc line text = .ok (seen', pc))
    (hemit : emitLine labels e.pc text = .ok effect) : pc = effect.next e.pc := by
  obtain ⟨parsed, sized, hparse, hsized, -, rfl⟩ := Labels.indexLine_eq_ok_iff.mp hsize
  obtain ⟨parsed', hparse', hemitted⟩ := emitLine_eq_ok_iff.mp hemit
  have hsame : parsed' = parsed := Option.some.inj (hparse'.symm.trans hparse)
  subst hsame
  obtain ⟨sized', hsized', hnext⟩ :=
    Statement.effect_size_of_emit hemitted seen e.pc
  rw [← hnext, Except.ok.inj (hsized'.symm.trans hsized)]

/-- After lines that were both sized and emitted, both passes stand at the same address. -/
theorem pc_eq_of_after
    (hsize : Labels.after symbols seen e.pc line before = .ok (seen', pc))
    (hemit : emitFrom labels e line before = (e', none)) : pc = e'.pc := by
  induction before generalizing seen e line with
  | nil =>
    cases hsize
    cases hemit
    rfl
  | cons text before ih =>
    obtain ⟨effect, hline, hrest⟩ := emitFrom_cons hemit
    obtain ⟨_, pc', hsized, hafter⟩ := Labels.after_cons hsize
    have hpc : pc' = (e.take line effect).pc := by
      rw [Emitted.pc_take]
      exact next_eq_of_indexLine hsized hline
    subst hpc
    exact ih hafter hrest

/-! ### References -/

/-- An operand that refers to a name: the column for which it is written, and the bytes that
have to stand in the instruction when the name has an address. -/
inductive Refers (name : Text) : Column → Text → (UInt16 → List UInt8) → Prop
  | absolute : Refers name .absolute name Operand.wordBytes
  | absoluteX (letter : Char) (h : letter.toLower = 'x') :
      Refers name .absoluteX (name ++ [',', letter]) Operand.wordBytes
  | absoluteY (letter : Char) (h : letter.toLower = 'y') :
      Refers name .absoluteY (name ++ [',', letter]) Operand.wordBytes
  | indirect : Refers name .indirect ('(' :: (name ++ [')'])) Operand.wordBytes
  | low : Refers name .immediate ('#' :: '<' :: name) fun a => [lowByte a]
  | high : Refers name .immediate ('#' :: '>' :: name) fun a => [highByte a]

namespace Refers

variable {name operand : Text} {c c' : Column} {part : UInt16 → List UInt8} {a : UInt16}

/-- In its column, a reference to a label becomes the address of the label. -/
theorem encode?_eq (h : Refers name c operand part) (hid : isIdentifier name = true)
    (ha : labels.address? name = some a) (pass : Pass) :
    Operand.encode? labels pass pc operand c = some (.ok (part a)) := by
  have haddress : Operand.address? labels pass name = some a :=
    Operand.address?_of_isIdentifier hid ha
  cases h with
  | absolute => simp [Operand.encode?, haddress]
  | absoluteX letter h =>
    simp [Operand.encode?, Operand.indexed?_eq_some_iff.mpr ⟨letter, h, rfl⟩, haddress]
  | absoluteY letter h =>
    simp [Operand.encode?, Operand.indexed?_eq_some_iff.mpr ⟨letter, h, rfl⟩, haddress]
  | indirect =>
    simp [Operand.encode?, Operand.bracketed?_eq_some_iff.mpr rfl, haddress]
  | low => simp [Operand.encode?, Operand.immediate?, hid, ha]
  | high => simp [Operand.encode?, Operand.immediate?, hid, ha]

/-- Only a name alone can be something else: the accumulator, or where a branch goes. -/
theorem eq_of_fits (h : Refers name c operand part) (hid : isIdentifier name = true)
    (hc : c ≠ .absolute) (hfits : Operand.fits operand c' = true) : c' = c := by
  have hne := ne_nil_of_isIdentifier hid
  -- With a frame around the name, its shape leaves one column.
  have framed : ∀ {shape : Shape}, shape.base? operand = some name →
      2 ≤ operand.length → c'.shape? = some shape ∧ c'.isShort = false := by
    intro shape hbase hlength
    rcases Operand.eq_single_or_of_fits hbase hid hfits with hsingle | hshape
    · exact absurd hsingle (Operand.ne_single_of_fits hlength hfits)
    · exact hshape
  cases h with
  | absolute => exact absurd rfl hc
  | absoluteX letter h =>
    have := @framed .x (Operand.indexed?_eq_some_iff.mpr ⟨letter, h, rfl⟩) (by simp)
    cases c' <;> simp [Column.shape?, Column.isShort] at this ⊢
  | absoluteY letter h =>
    have := @framed .y (Operand.indexed?_eq_some_iff.mpr ⟨letter, h, rfl⟩) (by simp)
    cases c' <;> simp [Column.shape?, Column.isShort] at this ⊢
  | indirect =>
    have := @framed .indirect (Operand.bracketed?_eq_some_iff.mpr rfl) (by simp)
    cases c' <;> simp [Column.shape?, Column.isShort] at this ⊢
  | low => exact Operand.eq_immediate_of_fits hfits
  | high => exact Operand.eq_immediate_of_fits hfits

end Refers

/-- The bytes of an instruction that refers to a label, in the column of the reference. -/
theorem Mnemonic.encode_of_refers {m : Mnemonic} {name operand : Text} {c : Column}
    {part : UInt16 → List UInt8} {a : UInt16} {bytes : List UInt8}
    (h : Refers name c operand part) (hid : isIdentifier name = true)
    (ha : labels.address? name = some a) (hc : m.column? labels .emit pc operand = some c)
    (hbytes : m.encode labels .emit pc operand = .ok bytes) :
    ∃ opcode, m.opcode? c = some opcode ∧ bytes = opcode :: part a := by
  obtain ⟨c', hc', hencode⟩ := encode_eq_ok_iff.mp hbytes
  have hsame : c' = c := Option.some.inj (hc'.symm.trans hc)
  subst hsame
  obtain ⟨opcode, rest, hopcode, hrest, rfl⟩ := encodeAs?_eq_ok_iff.mp hencode
  rw [h.encode?_eq hid ha] at hrest
  cases hrest
  exact ⟨opcode, hopcode, rfl⟩

/-! ### What holds at every line that is reached -/

/-- A label in front of a line that was reached has the address of that line. -/
theorem address?_of_label {name : Text} {statement : Statement}
    (hafter : Labels.after symbols {} startAddress 1 before = .ok (seen, pc))
    (hindex : Labels.indexFrom symbols {} startAddress 1 (before ++ text :: rest) =
      (labels, none))
    (hlabel : Line.parse? text = some ⟨some name, statement⟩) :
    labels.address? name = some pc := by
  rw [Labels.indexFrom_append hafter] at hindex
  obtain ⟨seen', pc', hline, hrest⟩ := Labels.indexFrom_cons hindex
  obtain ⟨parsed, effect, hparse, -, hdefine, -⟩ := Labels.indexLine_eq_ok_iff.mp hline
  rw [hlabel] at hparse
  cases hparse
  have hgrown := Labels.prefix_indexFrom symbols seen' pc' (1 + before.length + 1) rest
  rw [hrest] at hgrown
  exact Labels.address?_of_prefix hgrown (Labels.address?_of_define hdefine)

/--
**The two passes agree.**  At every line that the second pass reaches, it stands at the
address at which the first pass stood.  So a label of that line has this address in the
table, and where an operand refers to a label, the instruction holds the address of the
label or the byte of it that was asked for.
-/
theorem two_passes_agree {source : Text} {labels : Labels}
    (hindex : Labels.index (Prepared.ofText source) = (labels, none))
    {before rest : List Text} {text : Text}
    (hlines : (Prepared.ofText source).lines = before ++ text :: rest) {e : Emitted}
    (hreached : emitFrom labels Emitted.initial 1 before = (e, none)) :
    (∃ seen, Labels.after (Prepared.ofText source).symbols {} startAddress 1 before =
        .ok (seen, e.pc)) ∧
      (∀ name statement, Line.parse? text = some ⟨some name, statement⟩ →
        labels.address? name = some e.pc) ∧
      (∀ label m operand bytes, Line.parse? text = some ⟨label, .instruction m operand⟩ →
        emitLine labels e.pc text = .ok (.bytes bytes) →
        ∀ name c part a, Refers name c operand part → labels.address? name = some a →
          (c ≠ .absolute → m.column? labels .emit e.pc operand = some c) ∧
          (m.column? labels .emit e.pc operand = some c →
            ∃ opcode, m.opcode? c = some opcode ∧ bytes = opcode :: part a)) := by
  have hnamed : labels.Named := by
    have := Labels.named_index (Prepared.ofText source)
    rwa [hindex] at this
  rw [Labels.index, hlines] at hindex
  obtain ⟨seen, pc, hafter⟩ := Labels.exists_after hindex
  have hpc : pc = e.pc := pc_eq_of_after (e := Emitted.initial) hafter hreached
  subst hpc
  refine ⟨⟨seen, hafter⟩, fun name statement => address?_of_label hafter hindex, ?_⟩
  intro label m operand bytes hparse hemit name c part a hrefers ha
  have hid := hnamed.isIdentifier ha
  obtain ⟨_, hbytes, heffect⟩ := encode_of_emitLine hparse hemit
  cases heffect
  refine ⟨fun hc => ?_, fun hc => Mnemonic.encode_of_refers hrefers hid ha hc hbytes⟩
  obtain ⟨c', hc', -⟩ := Mnemonic.encode_eq_ok_iff.mp hbytes
  have haccepts := Mnemonic.isSome_of_column? hc'
  rw [Mnemonic.isSome_encodeAs?, Bool.and_eq_true] at haccepts
  rw [hc', hrefers.eq_of_fits hid hc (Operand.fits_of_emit haccepts.2)]

/-- A reference ahead, over data and an origin, to the label of the line that wraps. -/
theorem two_passes_agree_ahead :
    (∃ seen, Labels.after {} {} startAddress 1
      ["JMP end".toList, "DCB 1,2,,3".toList, "*=$fffe".toList, "LDA #<end".toList] =
        .ok (seen, 0x0000)) ∧
      Labels.address? ⟨[⟨"end".toList, 0x0000, 5⟩]⟩ "end".toList = some 0x0000 := by
  have h := @two_passes_agree
    "JMP end\nDCB 1,2,,3\n*=$fffe\nLDA #<end\nend: LDX end,Y".toList
    ⟨[⟨"end".toList, 0x0000, 5⟩]⟩ (by decide +kernel)
    ["JMP end".toList, "DCB 1,2,,3".toList, "*=$fffe".toList, "LDA #<end".toList] []
    "end: LDX end,Y".toList (by decide +kernel) _ (by rfl)
  exact ⟨h.1, h.2.1 _ (.instruction .ldx "end,Y".toList) (by decide +kernel)⟩

end Mos6502
