/-
An instruction is encoded in the shortest of its forms.

The patterns of the columns overlap, and the order in which they are tried decides which of
them is taken.  They overlap in two places only.  A literal of zero-page width fits the
zero-page column of its shape and the column for an address of the same shape.  And the letter
of the accumulator may also be the name of a label.  In both the columns are as different in
size as they can be, and the shorter one is tried first (`Rivals`).

So there is never a choice between two columns of one size.  The order says how wide an operand
is, and what it means is in its text.

Why no other two columns compete is told by their shapes.  Two columns that take an operand
around a literal or a name have the same shape, and of one shape a mnemonic has two columns at
most, because one with a branch has nothing else.
-/
import Mathlib.Algebra.Group.Nat.Defs
import Mos6502.Proofs.Faults
import Mos6502.Proofs.PrintedOperand

namespace Mos6502

variable {m : Mnemonic} {c c' : Column} {labels : Labels} {pass : Pass} {pc : UInt16}
  {operand base digits : Text} {bytes bytes' : List UInt8} {shape shape' : Shape}

/-! ### Literals of zero-page width -/

/-- A row of digits denotes less than it has places for. -/
theorem denoted_lt {b : Nat} (h : digits.all (isDigitOf b) = true) :
    denoted b digits < b ^ digits.length := by
  -- Digits read before count as much as their number has places for.
  have key : ∀ (digits : Text) (n k : Nat), digits.all (isDigitOf b) = true → n < b ^ k →
      digits.foldl (fun n c => n * b + digitValue c) n < b ^ (k + digits.length) := by
    intro digits
    induction digits with
    | nil => exact fun n k _ hn => hn
    | cons c digits ih =>
      intro n k hall hn
      rw [List.all_cons, Bool.and_eq_true] at hall
      have hc : digitValue c < b := of_decide_eq_true hall.1
      have hnext : n * b + digitValue c < b ^ (k + 1) := calc
        n * b + digitValue c < (n + 1) * b := by rw [Nat.succ_mul]; omega
        _ ≤ b ^ k * b := Nat.mul_le_mul_right b hn
      have hrest := ih _ (k + 1) hall.2 hnext
      rwa [Nat.add_assoc, Nat.add_comm 1] at hrest
  have hdenoted := key digits 0 0 h Nat.one_pos
  rwa [Nat.zero_add] at hdenoted

namespace Operand

/-- How an address is written that is not meant for a zero-page form: with more digits than a
byte has, as a decimal number above 255, or as a name. -/
inductive Long : Text → Prop
  | hexadecimal {digits : Text} (hdigits : digits.all (isDigitOf 16) = true)
    (h : 2 < digits.length) : Long ('$' :: digits)
  | binary {digits : Text} (hdigits : digits.all (isDigitOf 2) = true) (h : 8 < digits.length) :
    Long ('%' :: digits)
  | decimal {digits : Text} (hdigits : digits.all (isDigitOf 10) = true)
    (h : 255 < denoted 10 digits) : Long digits
  | name {name : Text} (h : isIdentifier name = true) : Long name

theorem Long.isAtomChar (h : Long base) : ∀ c ∈ base, isAtomChar c = true := by
  have hword : ∀ {b : Nat} {digits : Text}, b ≤ 16 → digits.all (isDigitOf b) = true →
      ∀ c ∈ digits, Mos6502.isAtomChar c = true := by
    intro b digits hb hdigits c hc
    have hchar := isWordChar_of_isDigitOf hb (List.all_eq_true.mp hdigits c hc)
    simp [Mos6502.isAtomChar, hchar]
  cases h with
  | hexadecimal hdigits => exact List.forall_mem_cons.mpr ⟨by decide, hword (by decide) hdigits⟩
  | binary hdigits => exact List.forall_mem_cons.mpr ⟨by decide, hword (by decide) hdigits⟩
  | decimal hdigits => exact hword (by decide) hdigits
  | name h =>
    intro c hc
    simp [Mos6502.isAtomChar, isWordChar_of_mem_identifier h hc]

/-- A number without the sign of a base is decimal. -/
theorem parse?_of_digits (h : digits.all (isDigitOf 10) = true) :
    Literal.parse? digits = (word? 10 digits).map fun value => ⟨value, value ≤ 0xff⟩ := by
  unfold Literal.parse?
  split
  · rw [List.all_cons] at h
    exact absurd h (by simp [isDigitOf, digitValue])
  · rw [List.all_cons] at h
    exact absurd h (by simp [isDigitOf, digitValue])
  · rfl

theorem short?_of_long (h : Long base) : short? base = none := by
  rw [short?, Option.bind_eq_none_iff]
  intro literal hliteral
  have hshort : literal.short = false := by
    cases h with
    | hexadecimal hdigits h =>
      obtain ⟨w, -, rfl⟩ := Option.map_eq_some_iff.mp hliteral
      exact decide_eq_false (Nat.not_le_of_lt h)
    | binary hdigits h =>
      obtain ⟨w, -, rfl⟩ := Option.map_eq_some_iff.mp hliteral
      exact decide_eq_false (Nat.not_le_of_lt h)
    | decimal hdigits h =>
      rw [parse?_of_digits hdigits] at hliteral
      obtain ⟨w, hw, rfl⟩ := Option.map_eq_some_iff.mp hliteral
      rw [(word?_eq_some_iff.mp hw).2.2] at h
      refine decide_eq_false ?_
      rw [UInt16.le_iff_toNat_le]
      exact Nat.not_le_of_lt h
    | name h =>
      rw [parse?_of_isIdentifier h] at hliteral
      cases hliteral
  rw [Literal.shortByte?, hshort]
  rfl

theorem shortByte?_of_le {literal : Literal} (hshort : literal.short = true)
    (h : literal.value.toNat ≤ 255) : literal.shortByte? = some literal.value.toUInt8 := by
  have hle : literal.value ≤ 0xff := UInt16.le_iff_toNat_le.mpr h
  rw [Literal.shortByte?, if_pos hshort, Literal.byte?, if_pos hle]

/-- So many digits denote a byte. -/
theorem toNat_le_of_length_le {b places : Nat} {w : UInt16} (hw : word? b digits = some w)
    (hb : 0 < b) (hplaces : b ^ places ≤ 256) (hlength : digits.length ≤ places) :
    w.toNat ≤ 255 := by
  obtain ⟨-, hall, hvalue⟩ := word?_eq_some_iff.mp hw
  refine Nat.le_of_lt_succ ?_
  calc w.toNat = denoted b digits := hvalue.symm
    _ < b ^ digits.length := denoted_lt hall
    _ ≤ b ^ places := Nat.pow_le_pow_right hb hlength
    _ ≤ 256 := hplaces

/-- A literal that is not written long is of zero-page width, and its value is a byte. -/
theorem short?_of_not_long {literal : Literal} (hliteral : Literal.parse? base = some literal)
    (h : ¬ Long base) : short? base = some literal.value.toUInt8 := by
  rw [short?, hliteral, Option.bind_some]
  unfold Literal.parse? at hliteral
  split at hliteral
  · rename_i digits
    obtain ⟨w, hw, rfl⟩ := Option.map_eq_some_iff.mp hliteral
    have hall := (word?_eq_some_iff.mp hw).2.1
    have hlength : digits.length ≤ 2 := Nat.le_of_not_lt fun hlong => h (.hexadecimal hall hlong)
    exact shortByte?_of_le (decide_eq_true hlength)
      (toNat_le_of_length_le hw (by decide) (by decide) hlength)
  · rename_i digits
    obtain ⟨w, hw, rfl⟩ := Option.map_eq_some_iff.mp hliteral
    have hall := (word?_eq_some_iff.mp hw).2.1
    have hlength : digits.length ≤ 8 := Nat.le_of_not_lt fun hlong => h (.binary hall hlong)
    exact shortByte?_of_le (decide_eq_true hlength)
      (toNat_le_of_length_le hw (by decide) (by decide) hlength)
  · obtain ⟨w, hw, rfl⟩ := Option.map_eq_some_iff.mp hliteral
    obtain ⟨-, hall, hvalue⟩ := word?_eq_some_iff.mp hw
    have hle : w.toNat ≤ 255 := by
      rw [← hvalue]
      exact Nat.le_of_not_lt fun hlong => h (.decimal hall hlong)
    exact shortByte?_of_le (decide_eq_true (UInt16.le_iff_toNat_le.mpr hle)) hle

theorem isSome_short?_iff :
    (short? base).isSome = true ↔ (Literal.parse? base).isSome = true ∧ ¬ Long base := by
  constructor
  · intro h
    refine ⟨?_, fun hlong => ?_⟩
    · obtain ⟨b, hb⟩ := Option.isSome_iff_exists.mp h
      obtain ⟨literal, hliteral, -⟩ := Option.bind_eq_some_iff.mp hb
      exact Option.isSome_of_eq_some hliteral
    · rw [short?_of_long hlong] at h
      exact absurd h (by decide)
  · rintro ⟨hliteral, hshort⟩
    obtain ⟨literal, hliteral⟩ := Option.isSome_iff_exists.mp hliteral
    exact Option.isSome_of_eq_some (short?_of_not_long hliteral hshort)

end Operand

/-! ### Columns that compete -/

/-- The column that takes any address where this one takes a literal of zero-page width. -/
def Column.widened? : Column → Option Column
  | zeroPage => some absolute
  | zeroPageX => some absoluteX
  | zeroPageY => some absoluteY
  | _ => none

theorem Column.widened?_of_shape (hshape : c.shape? = some shape) (hshape' : c'.shape? = some shape)
    (hne : c ≠ c') (hbranch : c ≠ .branch) (hbranch' : c' ≠ .branch) :
    c.widened? = some c' ∨ c'.widened? = some c := by
  have key : ∀ c ∈ tried, ∀ c' ∈ tried, c.shape?.isSome = true → c.shape? = c'.shape? → c ≠ c' →
      c ≠ .branch → c' ≠ .branch → c.widened? = some c' ∨ c'.widened? = some c := by
    decide
  exact key c c.mem_tried c' c'.mem_tried (Option.isSome_of_eq_some hshape)
    (hshape.trans hshape'.symm) hne hbranch hbranch'

theorem Column.isShort_of_widened? (h : c.widened? = some c') :
    c.isShort = true ∧ c'.isShort = false := by
  cases c <;> cases h <;> exact ⟨rfl, rfl⟩

/-- A column and a longer one that an operand fits as well.  Either it is about a literal of
zero-page width, or it is the letter of the accumulator. -/
inductive Rivals (operand : Text) : Column → Column → Prop
  | width {narrow wide : Column} {shape : Shape} {base : Text}
    (hwide : narrow.widened? = some wide) (hshape : narrow.shape? = some shape)
    (hbase : shape.base? operand = some base) (hliteral : (Literal.parse? base).isSome = true)
    (hshort : ¬ Operand.Long base) : Rivals operand narrow wide
  | accumulator (h : operand = ['a'] ∨ operand = ['A']) : Rivals operand .single .absolute

namespace Rivals

/-- The first is the shorter. -/
theorem size_lt (h : Rivals operand c c') (m : Mnemonic) :
    (c.mode m).size < (c'.mode m).size := by
  cases h with
  | width hwide => cases c <;> cases hwide <;> exact Nat.lt_succ_self 2
  | accumulator =>
    by_cases hm : m.hasAccumulatorForm = true
    · simp [Column.mode, Mode.size, Mode.operandLength, hm]
    · simp [Column.mode, Mode.size, Mode.operandLength, hm]

/-- And it is tried first. -/
theorem idxOf_tried_lt (h : Rivals operand c c') :
    Column.tried.idxOf c < Column.tried.idxOf c' := by
  cases h with
  | width hwide => cases c <;> cases hwide <;> decide
  | accumulator => decide

theorem isShort_wide (h : Rivals operand c c') : c'.isShort = false := by
  cases h with
  | width hwide => exact (Column.isShort_of_widened? hwide).2
  | accumulator => rfl

theorem eq_wide {wide : Column} (h : Rivals operand c c') (h' : Rivals operand c wide) :
    c' = wide := by
  cases h with
  | width hwide =>
    cases h' with
    | width hwide' => exact Option.some.inj (hwide.symm.trans hwide')
    | accumulator => cases hwide
  | accumulator =>
    cases h' with
    | width hwide' => cases hwide'
    | accumulator => rfl

end Rivals

namespace Operand

theorem sameLetters_a_iff :
    sameLetters operand ['a'] = true ↔ operand = ['a'] ∨ operand = ['A'] := by
  constructor
  · intro h
    obtain ⟨c, rfl, hc⟩ : ∃ c : Char, operand = [c] ∧ c.toLower = 'a' := by
      have hmap : operand.map Char.toLower = ['a'] := beq_iff_eq.mp h
      obtain ⟨c, rest, rfl, hc, hrest⟩ := List.map_eq_cons_iff.mp hmap
      rw [List.map_eq_nil_iff.mp hrest]
      exact ⟨c, rfl, hc⟩
    unfold Char.toLower at hc
    split at hc
    · rename_i hcapital
      have hle : c.toNat ≤ 90 := hcapital.2
      have hnat := congrArg Char.toNat hc
      have hvalue : (c.toNat + 32) % 4294967296 = 97 := by simpa using hnat
      rw [← Char.ofNat_toNat c, show c.toNat = 65 by omega]
      exact Or.inr rfl
    · exact Or.inl (by rw [hc])
  · rintro (rfl | rfl) <;> decide

theorem fits_single_iff :
    fits operand .single = true ↔ operand = [] ∨ operand = ['a'] ∨ operand = ['A'] := by
  rw [← sameLetters_a_iff, fits, encode?]
  by_cases h : operand = [] ∨ sameLetters operand ['a'] = true
  · simp [h]
  · simp [h]

/-- Only the column of that form takes an immediate operand. -/
theorem eq_immediate_of_fits_immediate (h : fits operand .immediate = true)
    (h' : fits operand c = true) : c = .immediate := by
  obtain ⟨rest, rfl⟩ : ∃ rest, operand = '#' :: rest := by
    simp only [fits, encode?, Option.isSome_map] at h
    unfold immediate? at h
    split at h <;> simp at h ⊢
  exact eq_immediate_of_fits h'

/-- Two columns for one shape take the operand for a literal of zero-page width. -/
theorem rivals_of_shape (hshape : c.shape? = some shape) (hfits : fits operand c = true)
    (hwide : c.widened? = some c') : Rivals operand c c' := by
  obtain ⟨base, hbase, htakes⟩ := exists_base_of_fits hshape hfits
  rw [takes, if_pos (Column.isShort_of_widened? hwide).1] at htakes
  obtain ⟨hliteral, hshort⟩ := isSome_short?_iff.mp htakes
  exact .width hwide hshape hbase hliteral hshort

/-- What else takes an operand of the accumulator takes it for a name. -/
theorem rivals_of_single (hshape : c.shape? = some shape) (hsingle : fits operand .single = true)
    (hfits : fits operand c = true) (hbranch : c ≠ .branch) : Rivals operand .single c := by
  obtain ⟨base, hbase, htakes⟩ := exists_base_of_fits hshape hfits
  have hatomic := isAtomic_of_takes htakes
  have hlength : operand.length ≤ 1 := by
    rcases fits_single_iff.mp hsingle with rfl | rfl | rfl <;> decide
  obtain rfl : shape = .plain := by
    obtain ⟨letter, -, rfl⟩ := Shape.base?_eq_some_iff.mp hbase
    cases shape with
    | plain => rfl
    | _ => simp [Shape.write] at hlength
  cases hbase
  have hletter : operand = ['a'] ∨ operand = ['A'] := by
    rcases fits_single_iff.mp hsingle with rfl | hletter
    · exact absurd hatomic (by decide)
    · exact hletter
  have hshort : short? operand = none := by
    rcases hletter with rfl | rfl <;> rfl
  cases c with
  | absolute => exact .accumulator hletter
  | branch => exact absurd rfl hbranch
  | zeroPage =>
    rw [takes, if_pos (show Column.zeroPage.isShort = true from rfl), hshort] at htakes
    exact absurd htakes (by decide)
  | _ => cases hshape

end Operand

namespace Mnemonic

/-- Two columns of a mnemonic that an operand fits are rivals. -/
theorem rivals_of_fits (hopcode : (m.opcode? c).isSome = true)
    (hopcode' : (m.opcode? c').isSome = true) (hne : c ≠ c')
    (hfits : Operand.fits operand c = true) (hfits' : Operand.fits operand c' = true) :
    Rivals operand c c' ∨ Rivals operand c' c := by
  have hbranch : c ≠ .branch := by
    rintro rfl
    exact hne (eq_branch_of_opcode? hopcode hopcode').symm
  have hbranch' : c' ≠ .branch := by
    rintro rfl
    exact hne (eq_branch_of_opcode? hopcode' hopcode)
  have himmediate : c ≠ .immediate := by
    rintro rfl
    exact hne (Operand.eq_immediate_of_fits_immediate hfits hfits').symm
  have himmediate' : c' ≠ .immediate := by
    rintro rfl
    exact hne (Operand.eq_immediate_of_fits_immediate hfits' hfits)
  cases hshape : c.shape? with
  | none =>
    obtain rfl := (Column.single_or_immediate hshape).resolve_right himmediate
    cases hshape' : c'.shape? with
    | none =>
      exact absurd ((Column.single_or_immediate hshape').resolve_right himmediate').symm hne
    | some shape' => exact Or.inl (Operand.rivals_of_single hshape' hfits hfits' hbranch')
  | some shape =>
    cases hshape' : c'.shape? with
    | none =>
      obtain rfl := (Column.single_or_immediate hshape').resolve_right himmediate'
      exact Or.inr (Operand.rivals_of_single hshape hfits' hfits hbranch)
    | some shape' =>
      obtain ⟨base, hbase, htakes⟩ := Operand.exists_base_of_fits hshape hfits
      obtain ⟨base', hbase', htakes'⟩ := Operand.exists_base_of_fits hshape' hfits'
      obtain rfl := Shape.eq_of_base? hbase hbase' (Operand.isAtomic_of_takes htakes)
        (Operand.isAtomic_of_takes htakes')
      rcases Column.widened?_of_shape hshape hshape' hne hbranch hbranch' with hwide | hwide
      · exact Or.inl (Operand.rivals_of_shape hshape hfits hwide)
      · exact Or.inr (Operand.rivals_of_shape hshape' hfits' hwide)

theorem fits_of_encodeAs? (h : (m.encodeAs? labels pass pc operand c).isSome = true) :
    (m.opcode? c).isSome = true ∧ Operand.fits operand c = true := by
  rw [isSome_encodeAs?, Bool.and_eq_true] at h
  refine ⟨h.1, ?_⟩
  cases pass with
  | size => rw [← Operand.isSome_encode?_size labels pc, h.2]
  | emit => exact Operand.fits_of_emit h.2

/-- The column of an operand has no rivals but longer ones. -/
theorem rivals_of_column? (hcolumn : m.column? labels pass pc operand = some c)
    (h : (m.encodeAs? labels pass pc operand c').isSome = true) (hne : c ≠ c') :
    Rivals operand c c' := by
  obtain ⟨hopcode, hfits⟩ := fits_of_encodeAs? (isSome_of_column? hcolumn)
  obtain ⟨hopcode', hfits'⟩ := fits_of_encodeAs? h
  rcases rivals_of_fits hopcode hopcode' hne hfits hfits' with hrivals | hrivals
  · exact hrivals
  · exact absurd (idxOf_tried_le_of_column? hcolumn h) (Nat.not_le_of_lt hrivals.idxOf_tried_lt)

/-! ### When no column takes the operand -/

/-- The target of a branch is an address that it does not reach. -/
def TooFar (m : Mnemonic) (labels : Labels) (pass : Pass) (pc : UInt16) (operand : Text) : Prop :=
  pass = .emit ∧ (m.opcode? .branch).isSome = true ∧ Operand.OutOfReach labels pc operand .branch

/-- A column that takes an operand makes no bytes of it for a distance only. -/
theorem encodeAs?_eq_error_iff {reason : LineError} :
    m.encodeAs? labels pass pc operand c = some (.error reason) ↔
      c = .branch ∧ reason = .branchRange ∧ m.TooFar labels pass pc operand := by
  constructor
  · intro h
    unfold encodeAs? at h
    cases hopcode : m.opcode? c with
    | none => simp [hopcode] at h
    | some opcode =>
      rw [hopcode] at h
      obtain ⟨r, hr, hmap⟩ := Option.map_eq_some_iff.mp h
      cases r with
      | ok rest => cases hmap
      | error reason =>
        cases hmap
        cases pass with
        | size =>
          obtain ⟨rest, hrest⟩ := Operand.ok_of_encode?_size hr
          cases hrest
        | emit =>
          obtain ⟨rfl, rfl, hfar⟩ := Operand.encode?_eq_error_iff.mp hr
          exact ⟨rfl, rfl, rfl, Option.isSome_of_eq_some hopcode, rfl, hfar⟩
  · rintro ⟨rfl, rfl, rfl, hopcode, hfar⟩
    obtain ⟨opcode, hopcode⟩ := Option.isSome_iff_exists.mp hopcode
    rw [encodeAs?, hopcode, Operand.encode?_eq_error_iff.mpr ⟨rfl, hfar⟩]
    rfl

theorem encode_eq_of_column?_eq_none (h : m.column? labels pass pc operand = none) :
    m.encode labels pass pc operand = .error .malformed := by
  rw [encode_eq, h]
  rfl

theorem encode_eq_of_column? {r : Except LineError (List UInt8)}
    (h : m.column? labels pass pc operand = some c)
    (hr : m.encodeAs? labels pass pc operand c = some r) :
    m.encode labels pass pc operand = r := by
  rw [encode_eq, h, Option.bind_some, hr, Option.getD_some]

end Mnemonic

/-! ### What the bytes are -/

/-- So many bytes of a number, the lowest first. -/
def littleEndian : Nat → Nat → List UInt8
  | 0, _ => []
  | count + 1, n => UInt8.ofNat n :: littleEndian count (n / 256)

theorem littleEndian_toNat (w : UInt16) : littleEndian 2 w.toNat = Operand.wordBytes w := by
  have hlow : UInt8.ofNat w.toNat = lowByte w := by
    apply UInt8.toNat_inj.mp
    rw [UInt8.toNat_ofNat', toNat_lowByte]
  rw [littleEndian, littleEndian, littleEndian, hlow]
  rfl

namespace Operand

/-- The number that an operand stands for in a column.  It is the byte behind the sign of an
immediate operand, the literal of zero-page width, the address, or the distance of a branch;
this counts from zero to 255 and is not asked for when lines are sized. -/
inductive Denotes (labels : Labels) (pass : Pass) (pc : UInt16) (operand : Text) :
    Column → Nat → Prop
  | nothing (h : operand = [] ∨ operand = ['a'] ∨ operand = ['A']) :
    Denotes labels pass pc operand .single 0
  | immediate {b : UInt8} (h : immediate? labels operand = some b) :
    Denotes labels pass pc operand .immediate b.toNat
  | short {c : Column} {shape : Shape} {base : Text} {literal : Literal} (hc : c.isShort = true)
    (hshape : c.shape? = some shape) (hbase : shape.base? operand = some base)
    (hliteral : Literal.parse? base = some literal) (hshort : ¬ Long base) :
    Denotes labels pass pc operand c literal.value.toNat
  | address {c : Column} {shape : Shape} {base : Text} {w : UInt16} (hc : c.takesAddress = true)
    (hbranch : c ≠ .branch) (hshape : c.shape? = some shape)
    (hbase : shape.base? operand = some base) (h : address? labels pass base = some w) :
    Denotes labels pass pc operand c w.toNat
  | sized {target : UInt16} (hpass : pass = .size)
    (h : address? labels pass operand = some target) :
    Denotes labels pass pc operand .branch 0
  | emitted {target : UInt16} (hpass : pass = .emit)
    (h : address? labels pass operand = some target)
    (hreach : -128 ≤ distance pc target ∧ distance pc target ≤ 127) :
    Denotes labels pass pc operand .branch (distance pc target % 256).toNat

theorem exists_literal_of_short? {b : UInt8} (h : short? base = some b) :
    ∃ literal, Literal.parse? base = some literal ∧ ¬ Long base ∧ b = literal.value.toUInt8 := by
  obtain ⟨hsome, hshort⟩ := isSome_short?_iff.mp (Option.isSome_of_eq_some h)
  obtain ⟨literal, hliteral⟩ := Option.isSome_iff_exists.mp hsome
  rw [short?_of_not_long hliteral hshort] at h
  exact ⟨literal, hliteral, hshort, (Option.some.inj h).symm⟩

/-- A column for addresses, other than that for branches, makes two bytes of an address. -/
theorem encode?_of_takesAddress (hc : c.takesAddress = true) (hbranch : c ≠ .branch)
    (hshape : c.shape? = some shape) :
    encode? labels pass pc operand c =
      ((shape.base? operand).bind (address? labels pass)).map fun w => .ok (wordBytes w) := by
  cases c with
  | branch => exact absurd rfl hbranch
  | absolute | absoluteX | absoluteY | indirect => cases hshape; rfl
  | _ => cases hc

theorem encode?_of_isShort (hc : c.isShort = true) (hshape : c.shape? = some shape) :
    encode? labels pass pc operand c =
      ((shape.base? operand).bind short?).map fun b => .ok [b] := by
  cases c with
  | zeroPage | zeroPageX | zeroPageY | indirectX | indirectY => cases hshape; rfl
  | _ => cases hc

theorem encode?_of_denotes {value : Nat} (h : Denotes labels pass pc operand c value) :
    ∃ rest, encode? labels pass pc operand c = some (.ok rest) ∧
      rest = littleEndian rest.length value := by
  cases h with
  | nothing h =>
    have hsingle : operand = [] ∨ sameLetters operand ['a'] = true :=
      h.imp_right sameLetters_a_iff.mpr
    exact ⟨[], if_pos hsingle, rfl⟩
  | immediate h =>
    refine ⟨[_], by rw [encode?, h, Option.map_some], ?_⟩
    exact congrArg (· :: []) UInt8.ofNat_toNat.symm
  | @short _ shape base literal hc hshape hbase hliteral hshort =>
    refine ⟨[literal.value.toUInt8], ?_, rfl⟩
    rw [encode?_of_isShort hc hshape, hbase, Option.bind_some,
      short?_of_not_long hliteral hshort, Option.map_some]
  | address hc hbranch hshape hbase h =>
    refine ⟨_, ?_, (littleEndian_toNat _).symm⟩
    rw [encode?_of_takesAddress hc hbranch hshape, hbase, Option.bind_some, h, Option.map_some]
  | sized hpass h =>
    subst hpass
    exact ⟨[0], by rw [encode?, h, Option.map_some], rfl⟩
  | @emitted target hpass h hreach =>
    subst hpass
    refine ⟨[UInt8.ofInt (distance pc target)], ?_, rfl⟩
    rw [encode?, h, Option.map_some]
    exact congrArg some (if_pos hreach)

theorem denotes_of_encode? {rest : List UInt8}
    (h : encode? labels pass pc operand c = some (.ok rest)) :
    ∃ value, Denotes labels pass pc operand c value ∧ rest = littleEndian rest.length value := by
  have hshort : ∀ {shape : Shape}, c.isShort = true → c.shape? = some shape →
      ∃ value, Denotes labels pass pc operand c value ∧
        rest = littleEndian rest.length value := by
    intro shape hc hshape
    rw [encode?_of_isShort hc hshape] at h
    obtain ⟨b, hb, hrest⟩ := Option.map_eq_some_iff.mp h
    obtain ⟨base, hbase, hb⟩ := Option.bind_eq_some_iff.mp hb
    obtain ⟨literal, hliteral, hlong, rfl⟩ := exists_literal_of_short? hb
    cases hrest
    exact ⟨_, .short hc hshape hbase hliteral hlong, rfl⟩
  have haddress : ∀ {shape : Shape}, c.takesAddress = true → c ≠ .branch →
      c.shape? = some shape → ∃ value, Denotes labels pass pc operand c value ∧
        rest = littleEndian rest.length value := by
    intro shape hc hbranch hshape
    rw [encode?_of_takesAddress hc hbranch hshape] at h
    obtain ⟨w, hw, hrest⟩ := Option.map_eq_some_iff.mp h
    obtain ⟨base, hbase, hw⟩ := Option.bind_eq_some_iff.mp hw
    cases hrest
    exact ⟨_, .address hc hbranch hshape hbase hw, (littleEndian_toNat w).symm⟩
  cases c with
  | single =>
    by_cases hsingle : operand = [] ∨ sameLetters operand ['a'] = true
    · rw [encode?, if_pos hsingle] at h
      cases h
      exact ⟨0, .nothing (hsingle.imp_right sameLetters_a_iff.mp), rfl⟩
    · rw [encode?, if_neg hsingle] at h
      cases h
  | immediate =>
    obtain ⟨b, hb, hrest⟩ := Option.map_eq_some_iff.mp h
    cases hrest
    exact ⟨b.toNat, .immediate hb, congrArg (· :: []) UInt8.ofNat_toNat.symm⟩
  | branch =>
    obtain ⟨target, htarget, hrest⟩ := Option.map_eq_some_iff.mp h
    cases pass with
    | size =>
      cases hrest
      exact ⟨0, .sized rfl htarget, rfl⟩
    | emit =>
      by_cases hreach : -128 ≤ distance pc target ∧ distance pc target ≤ 127
      · replace hrest : offset pc target = .ok rest := hrest
        rw [offset, if_pos hreach] at hrest
        cases hrest
        exact ⟨_, .emitted rfl htarget hreach, rfl⟩
      · replace hrest : offset pc target = .ok rest := hrest
        rw [offset, if_neg hreach] at hrest
        cases hrest
  | zeroPage | zeroPageX | zeroPageY | indirectX | indirectY => exact hshort rfl rfl
  | absolute | absoluteX | absoluteY | indirect => exact haddress rfl (by decide) rfl

/-- In a column an operand is the bytes of the number that it stands for. -/
theorem encode?_eq_ok_iff {rest : List UInt8} (m : Mnemonic) :
    encode? labels pass pc operand c = some (.ok rest) ↔
      ∃ value, Denotes labels pass pc operand c value ∧
        rest = littleEndian (c.mode m).operandLength value := by
  constructor
  · intro h
    rw [← length_of_encode? h m]
    exact denotes_of_encode? h
  · rintro ⟨value, hvalue, rfl⟩
    obtain ⟨rest, hrest, heq⟩ := encode?_of_denotes hvalue
    rw [← length_of_encode? hrest m, ← heq, hrest]

end Operand

/-! ### The form of an instruction -/

namespace Mnemonic

/-- The bytes of an instruction in a column of its mnemonic that takes the operand. -/
def HasForm (m : Mnemonic) (labels : Labels) (pass : Pass) (pc : UInt16) (operand : Text)
    (c : Column) (bytes : List UInt8) : Prop :=
  m.encodeAs? labels pass pc operand c = some (.ok bytes)

theorem HasForm.isSome (h : m.HasForm labels pass pc operand c bytes) :
    (m.encodeAs? labels pass pc operand c).isSome = true :=
  Option.isSome_of_eq_some h

/-- The opcode comes first, and the number that the operand stands for follows. -/
theorem hasForm_iff :
    m.HasForm labels pass pc operand c bytes ↔
      ∃ opcode value, m.opcode? c = some opcode ∧
        Operand.Denotes labels pass pc operand c value ∧
        bytes = opcode :: littleEndian (c.mode m).operandLength value := by
  rw [HasForm, encodeAs?_eq_ok_iff]
  constructor
  · rintro ⟨opcode, rest, hopcode, hrest, rfl⟩
    obtain ⟨value, hvalue, rfl⟩ := (Operand.encode?_eq_ok_iff m).mp hrest
    exact ⟨opcode, value, hopcode, hvalue, rfl⟩
  · rintro ⟨opcode, value, hopcode, hvalue, rfl⟩
    exact ⟨opcode, _, hopcode, (Operand.encode?_eq_ok_iff m).mpr ⟨value, hvalue, rfl⟩, rfl⟩

/-- An instruction with a form is encoded in one, and all others are rivals of this one. -/
theorem exists_form (h : m.HasForm labels pass pc operand c bytes) :
    ∃ best shortest, m.HasForm labels pass pc operand best shortest ∧
      m.encode labels pass pc operand = .ok shortest ∧
      ∀ c' bytes', m.HasForm labels pass pc operand c' bytes' → c' ≠ best →
        Rivals operand best c' := by
  cases hbest : m.column? labels pass pc operand with
  | none => exact absurd h.isSome (List.find?_eq_none.mp hbest c c.mem_tried)
  | some best =>
    obtain ⟨r, hr⟩ := Option.isSome_iff_exists.mp (isSome_of_column? hbest)
    cases r with
    | error reason =>
      -- The column for branches is the only one then, but there it is out of reach.
      obtain ⟨rfl, -, -, hbranch, -⟩ := encodeAs?_eq_error_iff.mp hr
      obtain rfl := eq_branch_of_opcode? hbranch (fits_of_encodeAs? h.isSome).1
      cases hr.symm.trans h
    | ok shortest =>
      refine ⟨best, shortest, hr, encode_eq_of_column? hbest hr, ?_⟩
      intro c' bytes' h' hne
      exact rivals_of_column? hbest h'.isSome hne.symm

/-- Of two forms an instruction is encoded in the shorter. -/
theorem encode_of_two_forms (hne : c ≠ c') (h : m.HasForm labels pass pc operand c bytes)
    (h' : m.HasForm labels pass pc operand c' bytes') :
    Rivals operand c c' ∧ m.encode labels pass pc operand = .ok bytes ∨
      Rivals operand c' c ∧ m.encode labels pass pc operand = .ok bytes' := by
  obtain ⟨best, shortest, hbest, hencode, hrivals⟩ := exists_form h
  by_cases hc : c = best
  · subst hc
    obtain rfl : shortest = bytes := by
      cases hbest.symm.trans h
      rfl
    exact Or.inl ⟨hrivals c' bytes' h' hne.symm, hencode⟩
  · by_cases hc' : c' = best
    · subst hc'
      obtain rfl : shortest = bytes' := by
        cases hbest.symm.trans h'
        rfl
      exact Or.inr ⟨hrivals c bytes h hne, hencode⟩
    · exact absurd ((hrivals c bytes h hc).eq_wide (hrivals c' bytes' h' hc')) hne

/-- Where there is a form there is one that is shorter than all others. -/
theorem exists_shortest_form (h : m.HasForm labels pass pc operand c bytes) :
    ∃ best shortest, m.HasForm labels pass pc operand best shortest ∧
      m.encode labels pass pc operand = .ok shortest ∧
      ∀ c' bytes', m.HasForm labels pass pc operand c' bytes' → c' ≠ best →
        shortest.length < bytes'.length := by
  obtain ⟨best, shortest, hbest, hencode, hrivals⟩ := exists_form h
  refine ⟨best, shortest, hbest, hencode, ?_⟩
  intro c' bytes' h' hne
  rw [length_of_encodeAs? hbest, length_of_encodeAs? h']
  exact (hrivals c' bytes' h' hne).size_lt m

/-- A literal of zero-page width is never widened. -/
theorem encode_of_short {opcode : UInt8} {literal : Literal} (hc : c.isShort = true)
    (hopcode : m.opcode? c = some opcode) (hshape : c.shape? = some shape)
    (hbase : shape.base? operand = some base) (hliteral : Literal.parse? base = some literal)
    (hshort : ¬ Operand.Long base) :
    m.encode labels pass pc operand = .ok [opcode, literal.value.toUInt8] := by
  have hform : m.HasForm labels pass pc operand c [opcode, literal.value.toUInt8] := by
    rw [HasForm, encodeAs?, hopcode]
    simp only [Operand.encode?_of_isShort hc hshape, hbase, Option.bind_some,
      Operand.short?_of_not_long hliteral hshort, Option.map_some]
    rfl
  obtain ⟨best, shortest, hbest, hencode, hrivals⟩ := exists_form hform
  by_cases hsame : c = best
  · subst hsame
    cases hbest.symm.trans hform
    exact hencode
  · have hwide := (hrivals c _ hform hsame).isShort_wide
    rw [hc] at hwide
    cases hwide

/-- What is written long has no form of zero-page width. -/
theorem not_hasForm_of_long (hc : c.isShort = true) (hbase : shape.base? operand = some base)
    (hlong : Operand.Long base) : ¬ m.HasForm labels pass pc operand c bytes := by
  intro h
  have hfits := (fits_of_encodeAs? h.isSome).2
  cases hshape : c.shape? with
  | none =>
    rcases Column.single_or_immediate hshape with rfl | rfl
    · cases hc
    · cases hc
  | some shape' =>
    obtain ⟨base', hbase', htakes⟩ := Operand.exists_base_of_fits hshape hfits
    obtain rfl := Shape.eq_of_isAtomChar hbase' hbase
      (isAtomChar_of_isAtomic (Operand.isAtomic_of_takes htakes)) hlong.isAtomChar
    rw [hbase] at hbase'
    cases hbase'
    rw [Operand.takes, if_pos hc, Operand.short?_of_long hlong] at htakes
    exact absurd htakes (by decide)

/-- Without a form the line makes no sense, unless it is a branch that does not reach. -/
theorem encode_of_no_form (h : ∀ c bytes, ¬ m.HasForm labels pass pc operand c bytes) :
    m.TooFar labels pass pc operand ∧ m.encode labels pass pc operand = .error .branchRange ∨
      ¬ m.TooFar labels pass pc operand ∧
        m.encode labels pass pc operand = .error .malformed := by
  cases hcolumn : m.column? labels pass pc operand with
  | none =>
    refine Or.inr ⟨fun hfar => ?_, encode_eq_of_column?_eq_none hcolumn⟩
    have htaken := encodeAs?_eq_error_iff.mpr ⟨rfl, rfl, hfar⟩
    exact List.find?_eq_none.mp hcolumn _ (Column.mem_tried .branch)
      (Option.isSome_of_eq_some htaken)
  | some best =>
    obtain ⟨r, hr⟩ := Option.isSome_iff_exists.mp (isSome_of_column? hcolumn)
    cases r with
    | ok shortest => exact absurd hr (h best shortest)
    | error reason =>
      obtain ⟨-, rfl, hfar⟩ := encodeAs?_eq_error_iff.mp hr
      exact Or.inl ⟨hfar, encode_eq_of_column? hcolumn hr⟩

/--
**An instruction is encoded in the shortest of its forms.**  Two columns that take an operand
are rivals: one for a literal of zero-page width and one for an address of the same shape, or
the accumulator and a label with its letter.  Of these the shorter is taken.  So where any
column takes the operand there is one whose bytes are fewer than those of all others, and they
are the encoding; the bytes of a column are its opcode and, the lowest first, the number that
the operand stands for.  A literal of zero-page width is never widened when the mnemonic has the
column for it, and an address that is written long is never taken by such a column.  If no
column takes the operand the line is malformed, except for a branch that is emitted and does
not reach its target.
-/
theorem encode_shortest (m : Mnemonic) (labels : Labels) (pass : Pass) (pc : UInt16)
    (operand : Text) :
    (∀ c c' bytes bytes', c ≠ c' → m.HasForm labels pass pc operand c bytes →
      m.HasForm labels pass pc operand c' bytes' →
        Rivals operand c c' ∧ m.encode labels pass pc operand = .ok bytes ∨
          Rivals operand c' c ∧ m.encode labels pass pc operand = .ok bytes') ∧
    (∀ c bytes, m.HasForm labels pass pc operand c bytes →
      ∃ best shortest, m.HasForm labels pass pc operand best shortest ∧
        m.encode labels pass pc operand = .ok shortest ∧
        ∀ c' bytes', m.HasForm labels pass pc operand c' bytes' → c' ≠ best →
          shortest.length < bytes'.length) ∧
    (∀ c bytes, m.HasForm labels pass pc operand c bytes ↔
      ∃ opcode value, m.opcode? c = some opcode ∧
        Operand.Denotes labels pass pc operand c value ∧
        bytes = opcode :: littleEndian (c.mode m).operandLength value) ∧
    (∀ c (shape : Shape) base opcode literal, c.isShort = true → m.opcode? c = some opcode →
      c.shape? = some shape → shape.base? operand = some base →
      Literal.parse? base = some literal → ¬ Operand.Long base →
        m.encode labels pass pc operand = .ok [opcode, literal.value.toUInt8]) ∧
    (∀ c (shape : Shape) base bytes, c.isShort = true → shape.base? operand = some base →
      Operand.Long base → ¬ m.HasForm labels pass pc operand c bytes) ∧
    ((∀ c bytes, ¬ m.HasForm labels pass pc operand c bytes) →
      m.TooFar labels pass pc operand ∧ m.encode labels pass pc operand = .error .branchRange ∨
        ¬ m.TooFar labels pass pc operand ∧
          m.encode labels pass pc operand = .error .malformed) := by
  refine ⟨?_, ?_, ?_, ?_, ?_, encode_of_no_form⟩
  · intro c c' bytes bytes' hne h h'
    exact encode_of_two_forms hne h h'
  · intro c bytes h
    exact exists_shortest_form h
  · intro c bytes
    exact hasForm_iff
  · intro c shape base opcode literal hc hopcode hshape hbase hliteral hshort
    exact encode_of_short hc hopcode hshape hbase hliteral hshort
  · intro c shape base bytes hc hbase hlong
    exact not_hasForm_of_long hc hbase hlong

/-- The letter of the accumulator stays the accumulator when there is a label of this name, and a
short literal before a register stays short. -/
theorem encode_shortest_of_rivals :
    ∃ labels : Labels,
      Mnemonic.asl.HasForm labels .emit 0x0600 ['A'] .single [0x0a] ∧
      Mnemonic.asl.HasForm labels .emit 0x0600 ['A'] .absolute [0x0e, 0x34, 0x12] ∧
      Mnemonic.asl.encode labels .emit 0x0600 ['A'] = .ok [0x0a] ∧
      Mnemonic.lda.HasForm labels .emit 0x0600 "$10,x".toList .zeroPageX [0xb5, 0x10] ∧
      Mnemonic.lda.HasForm labels .emit 0x0600 "$10,x".toList .absoluteX [0xbd, 0x10, 0x00] ∧
      Mnemonic.lda.encode labels .emit 0x0600 "$10,x".toList = .ok [0xb5, 0x10] := by
  have hwide : ∀ {operand : Text} {c : Column}, ¬ Rivals operand .absolute c := by
    intro operand c h
    cases h with
    | width hwide => cases hwide
  obtain ⟨labels, hsingle, habsolute, hzero, hlong⟩ : ∃ labels : Labels,
      Mnemonic.asl.HasForm labels .emit 0x0600 ['A'] .single [0x0a] ∧
      Mnemonic.asl.HasForm labels .emit 0x0600 ['A'] .absolute [0x0e, 0x34, 0x12] ∧
      Mnemonic.lda.HasForm labels .emit 0x0600 "$10,x".toList .zeroPageX [0xb5, 0x10] ∧
      Mnemonic.lda.HasForm labels .emit 0x0600 "$10,x".toList .absoluteX [0xbd, 0x10, 0x00] :=
    ⟨⟨[⟨['A'], 0x1234, 1⟩]⟩, rfl, rfl, rfl, rfl⟩
  refine ⟨labels, hsingle, habsolute, ?_, hzero, hlong, ?_⟩
  · rcases (encode_shortest _ _ _ _ _).1 _ _ _ _ (by decide) hsingle habsolute with h | h
    · exact h.2
    · exact absurd h.1 hwide
  · exact (encode_shortest _ _ _ _ _).2.2.2.1 .zeroPageX .x "$10".toList 0xb5 ⟨0x10, true⟩ rfl rfl
      rfl rfl rfl (fun h => by cases Operand.short?_of_long h)

end Mnemonic

end Mos6502
