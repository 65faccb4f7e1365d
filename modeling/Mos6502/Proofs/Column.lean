/-
Which column an operand is encoded in.

`Mnemonic.encode` takes the first column that accepts the operand.  Here that column
gets a name, `Mnemonic.column?`, and two facts make it useful.  The bytes are those of
the column, so their number is the size of its mode.  And the column does not depend on
what is known: sizing accepts an operand by its text alone, and where emitting succeeds
at all it takes the same column that sizing took.

The second fact is not obvious, because emitting can turn a column down that sizing
accepted, when the operand is a name that no label has.  It might then go on to another
column.  It never does: the columns that could still take the operand want the same
base in the same shape, and so fail on the same name.
-/
import Mathlib.Tactic.ByContra
import Mos6502.Proofs.Operand

namespace Mos6502

namespace Column

/-- The shape of the operands of a column, if they have a base. -/
def shape? : Column → Option Shape
  | zeroPage | absolute | branch => some .plain
  | zeroPageX | absoluteX => some .x
  | zeroPageY | absoluteY => some .y
  | indirect => some .indirect
  | indirectX => some .indirectX
  | indirectY => some .indirectY
  | immediate | single => none

/-- Whether only a literal of zero-page width will do as a base. -/
def isShort : Column → Bool
  | zeroPage | zeroPageX | zeroPageY | indirectX | indirectY => true
  | _ => false

theorem single_or_immediate {c : Column} (h : c.shape? = none) : c = single ∨ c = immediate := by
  cases c <;> simp [shape?] at h ⊢

end Column

namespace Operand

variable {labels : Labels} {pass : Pass} {pc : UInt16} {operand base name : Text}
  {c : Column} {shape : Shape}

/-! ### What a column makes of a base -/

/-- The bytes for a base in a column. -/
def encodeBase? (labels : Labels) (pass : Pass) (pc : UInt16) (c : Column) (base : Text) :
    Option (Except LineError (List UInt8)) :=
  if c.isShort then (short? base).map fun b => .ok [b]
  else (address? labels pass base).map fun w =>
    match c, pass with
    | .branch, .size => .ok [0]
    | .branch, .emit => offset pc w
    | _, _ => .ok (wordBytes w)

/-- A column with a shape looks at the base only. -/
theorem encode?_of_shape (h : c.shape? = some shape) :
    encode? labels pass pc operand c =
      (shape.base? operand).bind (encodeBase? labels pass pc c) := by
  cases c <;> cases h <;> cases pass <;>
    simp only [encode?, Shape.base?, Option.map_bind, Option.bind_some] <;> rfl

/-- Whether a column takes a base when nothing is known about labels. -/
def takes (c : Column) (base : Text) : Bool :=
  if c.isShort then (short? base).isSome else isAtomic base

theorem isAtomic_of_takes (h : takes c base = true) : isAtomic base = true := by
  unfold takes at h
  split at h
  · unfold short? at h
    cases hp : Literal.parse? base with
    | none => simp [hp] at h
    | some literal => simp [isAtomic, hp]
  · exact h

theorem isSome_address?_size (labels : Labels) (base : Text) :
    (address? labels .size base).isSome = isAtomic base := by
  unfold address? isAtomic
  cases Literal.parse? base with
  | some literal => simp
  | none =>
    by_cases hid : isIdentifier base = true
    · cases labels.address? base <;> simp [hid]
    · simp [hid]

theorem isAtomic_of_address? {w : UInt16} (h : address? labels pass base = some w) :
    isAtomic base = true := by
  unfold address? at h
  unfold isAtomic
  cases hp : Literal.parse? base with
  | some literal => simp
  | none =>
    by_cases hid : isIdentifier base = true
    · simp [hid]
    · simp [hp, hid] at h

/-- Only a name that no label has is no address when lines are emitted. -/
theorem unknown_of_address?_eq_none (hbase : isAtomic base = true)
    (h : address? labels .emit base = none) :
    isIdentifier base = true ∧ labels.address? base = none := by
  unfold address? at h
  unfold isAtomic at hbase
  cases hp : Literal.parse? base with
  | some literal => simp [hp] at h
  | none =>
    have hid : isIdentifier base = true := by simpa [hp] using hbase
    refine ⟨hid, ?_⟩
    cases ha : labels.address? base with
    | none => rfl
    | some a => simp [hp, hid, ha] at h

theorem address?_of_isIdentifier (hid : isIdentifier name = true) {a : UInt16}
    (h : labels.address? name = some a) : address? labels pass name = some a := by
  unfold address?
  rw [parse?_of_isIdentifier hid, if_pos hid, h]

theorem isSome_encodeBase?_size (labels : Labels) (pc : UInt16) (c : Column) (base : Text) :
    (encodeBase? labels .size pc c base).isSome = takes c base := by
  unfold encodeBase? takes
  split
  · simp
  · rw [Option.isSome_map, isSome_address?_size]

theorem takes_of_emit (h : (encodeBase? labels .emit pc c base).isSome = true) :
    takes c base = true := by
  unfold encodeBase? at h
  unfold takes
  by_cases hshort : c.isShort = true
  · rw [if_pos hshort, Option.isSome_map] at h
    rw [if_pos hshort]
    exact h
  · rw [if_neg hshort, Option.isSome_map] at h
    rw [if_neg hshort]
    obtain ⟨w, hw⟩ := Option.isSome_iff_exists.mp h
    exact isAtomic_of_address? hw

/-- A base that a column takes but cannot emit is the name of no label. -/
theorem unknown_of_encodeBase?_eq_none (htakes : takes c base = true)
    (h : encodeBase? labels .emit pc c base = none) :
    c.isShort = false ∧ isIdentifier base = true ∧ labels.address? base = none := by
  unfold encodeBase? at h
  unfold takes at htakes
  by_cases hshort : c.isShort = true
  · rw [if_pos hshort, Option.map_eq_none_iff] at h
    rw [if_pos hshort, h] at htakes
    exact absurd htakes (by decide)
  · rw [if_neg hshort, Option.map_eq_none_iff] at h
    rw [if_neg hshort] at htakes
    exact ⟨by simpa using hshort, unknown_of_address?_eq_none htakes h⟩

/-! ### Sizing accepts an operand by its text alone -/

/-- Whether an operand fits a column when nothing is known about labels. -/
def fits (operand : Text) (c : Column) : Bool :=
  (encode? {} .size 0 operand c).isSome

theorem fits_of_shape (h : c.shape? = some shape) :
    fits operand c = (shape.base? operand).any (takes c) := by
  unfold fits
  rw [encode?_of_shape h]
  cases shape.base? operand with
  | none => rfl
  | some base => exact isSome_encodeBase?_size {} 0 c base

theorem exists_base_of_fits (hc : c.shape? = some shape) (h : fits operand c = true) :
    ∃ base, shape.base? operand = some base ∧ takes c base = true := by
  rw [fits_of_shape hc] at h
  exact (Option.any_eq_true _ _).mp h

theorem isSome_immediate? (labels : Labels) (operand : Text) :
    (immediate? labels operand).isSome = (immediate? {} operand).isSome := by
  unfold immediate?
  split
  · split <;> simp
  · split <;> simp
  · rfl
  · rfl

/-- The columns without a shape accept an operand by its text alone in both passes. -/
theorem isSome_encode?_of_shapeless (h : c.shape? = none) (labels : Labels) (pass : Pass)
    (pc : UInt16) (operand : Text) :
    (encode? labels pass pc operand c).isSome = fits operand c := by
  rcases Column.single_or_immediate h with rfl | rfl
  · rfl
  · simp only [fits, encode?, Option.isSome_map, isSome_immediate? labels]

/-- What is known when lines are sized does not matter. -/
theorem isSome_encode?_size (labels : Labels) (pc : UInt16) (operand : Text) (c : Column) :
    (encode? labels .size pc operand c).isSome = fits operand c := by
  cases hc : c.shape? with
  | none => exact isSome_encode?_of_shapeless hc labels .size pc operand
  | some shape =>
    rw [fits_of_shape hc, encode?_of_shape hc]
    cases shape.base? operand with
    | none => rfl
    | some base => exact isSome_encodeBase?_size labels pc c base

/-- What can be emitted can be sized. -/
theorem fits_of_emit (h : (encode? labels .emit pc operand c).isSome = true) :
    fits operand c = true := by
  cases hc : c.shape? with
  | none => rwa [isSome_encode?_of_shapeless hc] at h
  | some shape =>
    rw [encode?_of_shape hc] at h
    rw [fits_of_shape hc]
    cases hbase : shape.base? operand with
    | none => simp [hbase] at h
    | some base =>
      rw [hbase] at h
      exact takes_of_emit h

/-- An operand that fits a column but cannot be emitted in it is about the name of no
label. -/
theorem unknown_of_fits (hfits : fits operand c = true)
    (h : encode? labels .emit pc operand c = none) :
    ∃ shape name, c.shape? = some shape ∧ c.isShort = false ∧
      shape.base? operand = some name ∧ isIdentifier name = true ∧
      labels.address? name = none := by
  cases hc : c.shape? with
  | none =>
    rw [← isSome_encode?_of_shapeless hc labels .emit pc operand, h] at hfits
    exact absurd hfits (by decide)
  | some shape =>
    obtain ⟨base, hbase, htakes⟩ := exists_base_of_fits hc hfits
    rw [encode?_of_shape hc, hbase, Option.bind_some] at h
    obtain ⟨hshort, hid, hunknown⟩ := unknown_of_encodeBase?_eq_none htakes h
    exact ⟨shape, base, rfl, hshort, hbase, hid, hunknown⟩

/-- An operand of immediate form has no shape. -/
theorem base?_eq_none_of_immediate (h : fits operand .immediate = true) (shape : Shape)
    {base : Text} (hbase : shape.base? operand = some base) : isAtomic base = false := by
  have hhead : operand.head? = some '#' := by
    simp only [fits, encode?, Option.isSome_map] at h
    unfold immediate? at h
    split at h <;> simp at h ⊢
  cases hatomic : isAtomic base with
  | false => rfl
  | true => exact absurd hhead (Shape.head?_ne_of_base? hbase hatomic)

/-- Only the immediate column takes an operand with the sign of that form. -/
theorem eq_immediate_of_fits {rest : Text} (h : fits ('#' :: rest) c = true) :
    c = .immediate := by
  cases hc : c.shape? with
  | none =>
    rcases Column.single_or_immediate hc with rfl | rfl
    · simp [fits, encode?, sameLetters] at h
    · rfl
  | some shape =>
    obtain ⟨base, hbase, htakes⟩ := exists_base_of_fits hc h
    exact absurd rfl (Shape.head?_ne_of_base? hbase (isAtomic_of_takes htakes))

/-- The accumulator is written with one letter or none. -/
theorem ne_single_of_fits (hlength : 2 ≤ operand.length) (h : fits operand c = true) :
    c ≠ .single := by
  rintro rfl
  simp only [fits, encode?] at h
  split at h
  · rename_i hsingle
    rcases hsingle with rfl | hsame
    · exact absurd hlength (by decide)
    · have := congrArg List.length (beq_iff_eq.mp hsame)
      simp at this
      omega
  · exact absurd h (by simp)

/-- Only the accumulator and the columns of its shape compete for an operand with an atomic
base. -/
theorem eq_single_or_takes_of_fits (hbase : shape.base? operand = some base)
    (hatomic : isAtomic base = true) (h : fits operand c = true) :
    c = .single ∨ (c.shape? = some shape ∧ takes c base = true) := by
  cases hc : c.shape? with
  | none =>
    rcases Column.single_or_immediate hc with rfl | rfl
    · exact Or.inl rfl
    · rw [base?_eq_none_of_immediate h shape hbase] at hatomic
      exact absurd hatomic (by decide)
  | some shape' =>
    obtain ⟨base', hbase', htakes⟩ := exists_base_of_fits hc h
    have hshape : shape' = shape :=
      Shape.eq_of_base? hbase' hbase (isAtomic_of_takes htakes) hatomic
    subst hshape
    rw [hbase] at hbase'
    cases hbase'
    exact Or.inr ⟨rfl, htakes⟩

/-- If the operand is about a name, these are the columns for an address. -/
theorem eq_single_or_of_fits (hbase : shape.base? operand = some name)
    (hid : isIdentifier name = true) (h : fits operand c = true) :
    c = .single ∨ (c.shape? = some shape ∧ c.isShort = false) := by
  have hatomic : isAtomic name = true := by simp [isAtomic, hid]
  rcases eq_single_or_takes_of_fits hbase hatomic h with hc | ⟨hc, htakes⟩
  · exact Or.inl hc
  · refine Or.inr ⟨hc, ?_⟩
    by_contra hshort
    simp [takes, hshort, short?, parse?_of_isIdentifier hid] at htakes

/-- What can be emitted although it is about the name of no label can only be the
accumulator. -/
theorem eq_single_of_unknown (hbase : shape.base? operand = some name)
    (hid : isIdentifier name = true) (hunknown : labels.address? name = none)
    (h : (encode? labels .emit pc operand c).isSome = true) : c = .single := by
  rcases eq_single_or_of_fits hbase hid (fits_of_emit h) with hc | ⟨hc, hshort⟩
  · exact hc
  · rw [encode?_of_shape hc, hbase, Option.bind_some, encodeBase?, if_neg (by simp [hshort])] at h
    simp [address?, parse?_of_isIdentifier hid, hid, hunknown] at h

/-! ### The bytes of a column -/

/-- There are as many bytes as the mode of the column asks for. -/
theorem length_of_encode? {bytes : List UInt8}
    (h : encode? labels pass pc operand c = some (.ok bytes)) (m : Mnemonic) :
    bytes.length = (c.mode m).operandLength := by
  cases c with
  | single =>
    simp only [encode?] at h
    split at h
    · cases h
      by_cases hm : m.hasAccumulatorForm = true <;> simp [Column.mode, Mode.operandLength, hm]
    · exact absurd h (by simp)
  | branch =>
    obtain ⟨w, -, hw⟩ := Option.map_eq_some_iff.mp h
    cases pass with
    | size => cases hw; rfl
    | emit =>
      replace hw : offset pc w = .ok bytes := hw
      unfold offset at hw
      split at hw
      · cases hw; rfl
      · cases hw
  | _ =>
    obtain ⟨w, -, hw⟩ := Option.map_eq_some_iff.mp h
    cases hw
    rfl

/-- Sizing never fails on an operand that fits. -/
theorem ok_of_encode?_size {r : Except LineError (List UInt8)}
    (h : encode? labels .size pc operand c = some r) : ∃ bytes, r = .ok bytes := by
  cases c with
  | single =>
    simp only [encode?] at h
    split at h
    · exact ⟨[], (Option.some.inj h).symm⟩
    · exact absurd h (by simp)
  | _ =>
    obtain ⟨w, -, hw⟩ := Option.map_eq_some_iff.mp h
    exact ⟨_, hw.symm⟩

end Operand

namespace Mnemonic

variable {m : Mnemonic} {labels : Labels} {pass : Pass} {pc : UInt16} {operand : Text}
  {c : Column} {bytes : List UInt8}

/-! ### The column of an operand -/

/-- The column that an operand is encoded in: the first of those the mnemonic has that
accepts it. -/
def column? (m : Mnemonic) (labels : Labels) (pass : Pass) (pc : UInt16) (operand : Text) :
    Option Column :=
  Column.tried.find? fun c => (m.encodeAs? labels pass pc operand c).isSome

private theorem findSome?_eq_bind_find? {α β : Type} (f : α → Option β) (l : List α) :
    l.findSome? f = (l.find? fun a => (f a).isSome).bind f := by
  induction l with
  | nil => rfl
  | cons a l ih => cases h : f a <;> simp [h, ih]

/-- An instruction is encoded in its column, and in no other way. -/
theorem encode_eq (m : Mnemonic) (labels : Labels) (pass : Pass) (pc : UInt16)
    (operand : Text) :
    m.encode labels pass pc operand =
      ((m.column? labels pass pc operand).bind
        (m.encodeAs? labels pass pc operand)).getD (.error .malformed) := by
  unfold encode column?
  rw [findSome?_eq_bind_find?]
  cases (Column.tried.find? fun c => (m.encodeAs? labels pass pc operand c).isSome).bind
    (m.encodeAs? labels pass pc operand) <;> rfl

theorem isSome_of_column? (h : m.column? labels pass pc operand = some c) :
    (m.encodeAs? labels pass pc operand c).isSome = true := by
  have hfound := List.find?_some h
  exact hfound

theorem encode_eq_ok_iff :
    m.encode labels pass pc operand = .ok bytes ↔
      ∃ c, m.column? labels pass pc operand = some c ∧
        m.encodeAs? labels pass pc operand c = some (.ok bytes) := by
  rw [encode_eq]
  constructor
  · intro h
    cases hc : m.column? labels pass pc operand with
    | none => simp [hc] at h
    | some c =>
      obtain ⟨r, hr⟩ := Option.isSome_iff_exists.mp (isSome_of_column? hc)
      refine ⟨c, rfl, ?_⟩
      simpa [hc, hr] using h
  · rintro ⟨c, hc, hr⟩
    simp [hc, hr]

theorem encodeAs?_eq_ok_iff :
    m.encodeAs? labels pass pc operand c = some (.ok bytes) ↔
      ∃ opcode rest, m.opcode? c = some opcode ∧
        Operand.encode? labels pass pc operand c = some (.ok rest) ∧
        bytes = opcode :: rest := by
  unfold encodeAs?
  cases m.opcode? c with
  | none => simp
  | some opcode =>
    simp only [Option.map_eq_some_iff, Option.some.injEq]
    constructor
    · rintro ⟨r, hr, hbytes⟩
      cases r with
      | error e => exact absurd hbytes (by simp [Except.map])
      | ok rest => exact ⟨opcode, rest, rfl, hr, by simpa [Except.map, eq_comm] using hbytes⟩
    · rintro ⟨_, rest, rfl, hr, rfl⟩
      exact ⟨_, hr, rfl⟩

theorem isSome_encodeAs? :
    (m.encodeAs? labels pass pc operand c).isSome =
      ((m.opcode? c).isSome && (Operand.encode? labels pass pc operand c).isSome) := by
  unfold encodeAs?
  cases m.opcode? c <;> simp

theorem length_of_encodeAs? (h : m.encodeAs? labels pass pc operand c = some (.ok bytes)) :
    bytes.length = (c.mode m).size := by
  obtain ⟨opcode, rest, -, hrest, rfl⟩ := encodeAs?_eq_ok_iff.mp h
  rw [List.length_cons, Operand.length_of_encode? hrest m]
  rfl

/-- Sizing succeeds as soon as there is a column. -/
theorem exists_encode_size (h : m.column? labels .size pc operand = some c) :
    ∃ bytes, m.encode labels .size pc operand = .ok bytes ∧ bytes.length = (c.mode m).size := by
  have hsome := isSome_of_column? h
  rw [isSome_encodeAs?, Bool.and_eq_true] at hsome
  obtain ⟨opcode, hopcode⟩ := Option.isSome_iff_exists.mp hsome.1
  obtain ⟨r, hr⟩ := Option.isSome_iff_exists.mp hsome.2
  obtain ⟨rest, rfl⟩ := Operand.ok_of_encode?_size hr
  have hbytes := encodeAs?_eq_ok_iff.mpr ⟨opcode, rest, hopcode, hr, rfl⟩
  exact ⟨opcode :: rest, encode_eq_ok_iff.mpr ⟨c, h, hbytes⟩, length_of_encodeAs? hbytes⟩

/-- Where emitting finds a column, sizing found the same one. -/
theorem column?_size_of_emit (h : m.column? labels .emit pc operand = some c) (seen : Labels)
    (pc' : UInt16) : m.column? seen .size pc' operand = some c := by
  unfold column? at h ⊢
  obtain ⟨hc, earlier, later, htried, hearlier⟩ := List.find?_eq_some_iff_append.mp h
  simp only [isSome_encodeAs?, Bool.and_eq_true] at hc
  refine List.find?_eq_some_iff_append.mpr ⟨?_, earlier, later, htried, ?_⟩
  · simp only [isSome_encodeAs?, Operand.isSome_encode?_size, Bool.and_eq_true]
    exact ⟨hc.1, Operand.fits_of_emit hc.2⟩
  · intro c' hc'
    have hnot := hearlier c' hc'
    simp only [isSome_encodeAs?, Operand.isSome_encode?_size, Bool.not_eq_true',
      Bool.and_eq_false_iff] at hnot ⊢
    by_contra hsized
    simp only [not_or, Bool.not_eq_false] at hsized
    have hnone : Operand.encode? labels .emit pc operand c' = none := by
      rcases hnot with hnot | hnot
      · exact absurd hsized.1 (by simp [hnot])
      · exact Option.not_isSome_iff_eq_none.mp (by simp [hnot])
    obtain ⟨shape, name, -, -, hbase, hid, hunknown⟩ := Operand.unknown_of_fits hsized.2 hnone
    -- Only the accumulator is left, but that column is tried before all others.
    have hsingle := Operand.eq_single_of_unknown hbase hid hunknown hc.2
    subst hsingle
    cases earlier with
    | nil => exact absurd hc' (by simp)
    | cons first rest =>
      have hfirst : first = .single := (List.cons.inj htried).1.symm
      subst hfirst
      have := hearlier .single (by simp)
      simp [isSome_encodeAs?, hc.1, hc.2] at this

theorem encode_size_of_emit (h : m.encode labels .emit pc operand = .ok bytes)
    (seen : Labels) (pc' : UInt16) :
    ∃ sized, m.encode seen .size pc' operand = .ok sized ∧ sized.length = bytes.length := by
  obtain ⟨c, hc, hbytes⟩ := encode_eq_ok_iff.mp h
  obtain ⟨sized, hsized, hlength⟩ :=
    exists_encode_size (column?_size_of_emit hc seen pc')
  exact ⟨sized, hsized, hlength.trans (length_of_encodeAs? hbytes).symm⟩

end Mnemonic

/-- A statement that can be emitted was sized, and the address after it is the one that was
expected. -/
theorem Statement.effect_size_of_emit {s : Statement} {labels : Labels} {pc : UInt16}
    {effect : Effect} (h : s.effect labels .emit pc = .ok effect) (seen : Labels)
    (pc' : UInt16) :
    ∃ sized, s.effect seen .size pc' = .ok sized ∧
      ∀ start, sized.next start = effect.next start := by
  cases s with
  | empty => cases h; exact ⟨_, rfl, fun _ => rfl⟩
  | origin address => cases h; exact ⟨_, rfl, fun _ => rfl⟩
  | data bytes => cases h; exact ⟨_, rfl, fun _ => rfl⟩
  | instruction m operand =>
    simp only [Statement.effect] at h ⊢
    cases hbytes : m.encode labels .emit pc operand with
    | error e => rw [hbytes] at h; cases h
    | ok bytes =>
      rw [hbytes] at h
      cases h
      obtain ⟨sized, hsized, hlength⟩ := Mnemonic.encode_size_of_emit hbytes seen pc'
      refine ⟨.bytes sized, by rw [hsized]; rfl, fun start => ?_⟩
      simp only [Effect.next, hlength]

end Mos6502
