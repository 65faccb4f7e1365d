/-
What shape an operand has.

Most columns ask for the same thing: a literal or a name, alone or with an index
register and brackets around it.  `Shape` is that frame.  A base is *atomic* when it
is a literal or an identifier; such a base holds no bracket, no comma and no `#`, so
the frame can be told from the text, and no operand has two shapes at once.

That is the fact on which everything about encoding rests: of the columns with a
shape, only those with one and the same shape compete for an operand, and they see
the same base.
-/
import Mos6502.Assembly.Encode

namespace Mos6502

/-! ### A literal or a name holds no punctuation of operands -/

/-- A literal or an identifier. -/
def isAtomic (base : Text) : Bool :=
  (Literal.parse? base).isSome || isIdentifier base

/-- The characters of which literals and identifiers are made. -/
def isAtomChar (c : Char) : Bool :=
  isWordChar c || c == '$' || c == '%'

theorem isWordChar_of_isDigitOf {base : Nat} (hbase : base ≤ 16) {c : Char}
    (h : isDigitOf base c = true) : isWordChar c = true := by
  have hlt : digitValue c < 16 := by
    have : digitValue c < base := by simpa [isDigitOf] using h
    omega
  unfold digitValue at hlt
  split at hlt
  · rename_i hdigit
    simp [isWordChar, Char.isAlphanum, hdigit]
  · split at hlt
    · rename_i hlower
      have hle : c ≤ 'z' := Nat.le_trans hlower.2 (by decide)
      have : c.isLower = true :=
        Bool.and_eq_true_iff.mpr ⟨decide_eq_true hlower.1, decide_eq_true hle⟩
      have : c.isAlpha = true := Bool.or_eq_true_iff.mpr (Or.inr this)
      simp [isWordChar, Char.isAlphanum, this]
    · split at hlt
      · rename_i hupper
        have hle : c ≤ 'Z' := Nat.le_trans hupper.2 (by decide)
        have : c.isUpper = true := decide_eq_true ⟨hupper.1, hle⟩
        have : c.isAlpha = true := Bool.or_eq_true_iff.mpr (Or.inl this)
        simp [isWordChar, Char.isAlphanum, this]
      · omega

theorem all_isDigitOf_of_word? {base : Nat} {digits : Text} {w : UInt16}
    (h : word? base digits = some w) : ∀ c ∈ digits, isDigitOf base c = true :=
  List.all_eq_true.mp (word?_eq_some_iff.mp h).2.1

theorem isAtomChar_of_word? {base : Nat} (hbase : base ≤ 16) {digits : Text} {w : UInt16}
    (h : word? base digits = some w) : ∀ c ∈ digits, isAtomChar c = true := by
  intro c hc
  have := isWordChar_of_isDigitOf hbase (all_isDigitOf_of_word? h c hc)
  simp [isAtomChar, this]

theorem isAtomChar_of_parse? {text : Text} {literal : Literal}
    (h : Literal.parse? text = some literal) : ∀ c ∈ text, isAtomChar c = true := by
  unfold Literal.parse? at h
  split at h
  · obtain ⟨w, hw, -⟩ := Option.map_eq_some_iff.mp h
    intro c hc
    rcases List.mem_cons.mp hc with rfl | hc
    · decide
    · exact isAtomChar_of_word? (by decide) hw c hc
  · obtain ⟨w, hw, -⟩ := Option.map_eq_some_iff.mp h
    intro c hc
    rcases List.mem_cons.mp hc with rfl | hc
    · decide
    · exact isAtomChar_of_word? (by decide) hw c hc
  · obtain ⟨w, hw, -⟩ := Option.map_eq_some_iff.mp h
    exact isAtomChar_of_word? (by decide) hw

theorem isAtomChar_of_isAtomic {base : Text} (h : isAtomic base = true) :
    ∀ c ∈ base, isAtomChar c = true := by
  simp only [isAtomic, Bool.or_eq_true] at h
  rcases h with h | h
  · obtain ⟨literal, hl⟩ := Option.isSome_iff_exists.mp h
    exact isAtomChar_of_parse? hl
  · intro c hc
    simp [isAtomChar, isWordChar_of_mem_identifier h hc]

/-- A digit of base ten is a decimal digit: the letters start at ten. -/
theorem isDigit_of_isDigitOf_ten {c : Char} (h : isDigitOf 10 c = true) :
    c.isDigit = true := by
  have hlt : digitValue c < 10 := by simpa [isDigitOf] using h
  unfold digitValue at hlt
  split at hlt
  · assumption
  · exfalso
    split at hlt
    · rename_i hlower
      have : 97 ≤ c.toNat := hlower.1
      omega
    · split at hlt
      · rename_i hupper
        have : 65 ≤ c.toNat := hupper.1
        omega
      · omega

theorem isDigit_eq_false_of_isIdentifierStart {c : Char} (h : isIdentifierStart c = true) :
    c.isDigit = false := by
  change (decide (c.val ≥ 'A'.val ∧ c.val ≤ 'Z'.val) ||
    decide (c.val ≥ 'a'.val) && decide (c.val ≤ 'z'.val) || c == '_') = true at h
  simp only [Bool.or_eq_true, Bool.and_eq_true, decide_eq_true_eq, beq_iff_eq,
    UInt32.le_iff_toNat_le, ge_iff_le] at h
  simp only [Char.isDigit, Bool.and_eq_false_iff, decide_eq_false_iff_not,
    UInt32.le_iff_toNat_le, ge_iff_le]
  rcases h with h | rfl
  · have hA : 'A'.val.toNat = 65 := rfl
    have ha : 'a'.val.toNat = 97 := rfl
    have h9 : '9'.val.toNat = 57 := rfl
    omega
  · decide

/-- No identifier is a literal: it starts with neither a sign of a base nor a digit. -/
theorem parse?_of_isIdentifier {name : Text} (h : isIdentifier name = true) :
    Literal.parse? name = none := by
  match name, h with
  | c :: rest, h =>
    have hstart : isIdentifierStart c = true := by
      simp only [isIdentifier, Bool.and_eq_true] at h
      exact h.1
    unfold Literal.parse?
    split
    · rename_i heq
      rw [(List.cons.inj heq).1] at hstart
      exact absurd hstart (by decide)
    · rename_i heq
      rw [(List.cons.inj heq).1] at hstart
      exact absurd hstart (by decide)
    · rw [Option.map_eq_none_iff, Option.eq_none_iff_forall_ne_some]
      intro w hw
      have hdigit := isDigit_of_isDigitOf_ten (all_isDigitOf_of_word? hw c (by simp))
      rw [isDigit_eq_false_of_isIdentifierStart hstart] at hdigit
      exact absurd hdigit (by decide)

/-! ### The frame around a base -/

/-- What an operand has around its base. -/
inductive Shape where
  | plain
  | x
  | y
  | indirect
  | indirectX
  | indirectY
deriving DecidableEq, Repr

namespace Shape

/-- The index register of a shape, if it has one. -/
def register? : Shape → Option Char
  | x | indirectX => some 'x'
  | y | indirectY => some 'y'
  | plain | indirect => none

/-- The base of an operand of this shape. -/
def base? : Shape → Text → Option Text
  | plain, operand => some operand
  | x, operand => Operand.indexed? 'x' operand
  | y, operand => Operand.indexed? 'y' operand
  | indirect, operand => Operand.bracketed? operand
  | indirectX, operand => (Operand.bracketed? operand).bind (Operand.indexed? 'x')
  | indirectY, operand => (Operand.indexed? 'y' operand).bind Operand.bracketed?

/-- An operand of this shape; the register is written with the given letter. -/
def write (letter : Char) (base : Text) : Shape → Text
  | plain => base
  | x | y => base ++ [',', letter]
  | indirect => '(' :: (base ++ [')'])
  | indirectX => '(' :: (base ++ [',', letter, ')'])
  | indirectY => '(' :: (base ++ [')', ',', letter])

end Shape

theorem Operand.indexed?_eq_some_iff {register : Char} {operand base : Text} :
    Operand.indexed? register operand = some base ↔
      ∃ letter, letter.toLower = register ∧ operand = base ++ [',', letter] := by
  constructor
  · intro h
    unfold Operand.indexed? at h
    split at h
    · rename_i r rest hrev
      split at h
      · rename_i hr
        cases h
        refine ⟨r, hr, ?_⟩
        rw [← List.reverse_reverse operand, hrev]
        simp
      · exact absurd h (by simp)
    · exact absurd h (by simp)
  · rintro ⟨letter, hletter, rfl⟩
    simp [Operand.indexed?, hletter]

theorem Operand.bracketed?_eq_some_iff {operand base : Text} :
    Operand.bracketed? operand = some base ↔ operand = '(' :: (base ++ [')']) := by
  constructor
  · intro h
    unfold Operand.bracketed? at h
    split at h
    · split at h
      · rename_i rest _ inner hrev
        cases h
        rw [← List.reverse_reverse rest, hrev]
        simp
      · exact absurd h (by simp)
    · exact absurd h (by simp)
  · rintro rfl
    simp [Operand.bracketed?]

namespace Shape

/-- The base is what was written into the frame. -/
theorem base?_eq_some_iff {shape : Shape} {operand base : Text} :
    shape.base? operand = some base ↔
      ∃ letter, (∀ r, shape.register? = some r → letter.toLower = r) ∧
        operand = shape.write letter base := by
  cases shape with
  | plain => simp [base?, register?, write, eq_comm]
  | x => simp [base?, register?, write, Operand.indexed?_eq_some_iff]
  | y => simp [base?, register?, write, Operand.indexed?_eq_some_iff]
  | indirect => simp [base?, register?, write, Operand.bracketed?_eq_some_iff]
  | indirectX =>
    simp only [base?, register?, write, Option.bind_eq_some_iff,
      Operand.bracketed?_eq_some_iff, Operand.indexed?_eq_some_iff, Option.some.injEq]
    constructor
    · rintro ⟨_, rfl, letter, hletter, rfl⟩
      exact ⟨letter, fun _ hr => hr ▸ hletter, by simp⟩
    · rintro ⟨letter, hletter, rfl⟩
      exact ⟨base ++ [',', letter], by simp, letter, hletter _ rfl, rfl⟩
  | indirectY =>
    simp only [base?, register?, write, Option.bind_eq_some_iff,
      Operand.bracketed?_eq_some_iff, Operand.indexed?_eq_some_iff, Option.some.injEq]
    constructor
    · rintro ⟨_, ⟨letter, hletter, rfl⟩, rfl⟩
      exact ⟨letter, fun _ hr => hr ▸ hletter, by simp⟩
    · rintro ⟨letter, hletter, rfl⟩
      exact ⟨'(' :: (base ++ [')']), ⟨letter, hletter _ rfl, by simp⟩, rfl⟩

/-! ### An operand has one shape

Three marks tell the shapes apart: whether there is a comma, whether there is a bracket,
and which letter the register has at the end.
-/

/-- Whether the frame holds a comma, whether it holds a bracket, and the last character of
an operand with a register, in small letters. -/
def marks : Shape → Bool × Bool × Option Char
  | plain => (false, false, none)
  | x => (true, false, some 'x')
  | y => (true, false, some 'y')
  | indirect => (false, true, none)
  | indirectX => (true, true, some ')')
  | indirectY => (true, true, some 'y')

theorem marks_injective : ∀ {s t : Shape}, s.marks = t.marks → s = t := by
  intro s t
  cases s <;> cases t <;> decide

/-- The marks as they are read off an operand. -/
def marksOf (operand : Text) : Bool × Bool × Option Char :=
  (operand.contains ',', operand.contains '(',
    if operand.contains ',' then operand.getLast?.map Char.toLower else none)

theorem marksOf_of_base? {shape : Shape} {operand base : Text}
    (h : shape.base? operand = some base) (hbase : ∀ c ∈ base, isAtomChar c = true) :
    marksOf operand = shape.marks := by
  have hcomma : ',' ∉ base := fun hc => absurd (hbase _ hc) (by decide)
  have hopen : '(' ∉ base := fun hc => absurd (hbase _ hc) (by decide)
  obtain ⟨letter, hletter, rfl⟩ := base?_eq_some_iff.mp h
  have hne : ∀ r, shape.register? = some r → '(' ≠ letter := by
    rintro r hr rfl
    have := hletter r hr
    cases shape <;> simp [register?] at hr <;> subst hr <;> exact absurd this (by decide)
  cases shape with
  | plain => simp [marksOf, marks, write, hcomma, hopen]
  | x => simp [marksOf, marks, write, hopen, hne _ rfl, hletter _ rfl]
  | y => simp [marksOf, marks, write, hopen, hne _ rfl, hletter _ rfl]
  | indirect => simp [marksOf, marks, write, hcomma]
  | indirectX => simp [marksOf, marks, write, List.getLast?_cons, List.getLast?_append]
  | indirectY =>
    simp [marksOf, marks, write, List.getLast?_cons, List.getLast?_append, hletter _ rfl]

/-- Two shapes never read the same operand around bases without punctuation. -/
theorem eq_of_isAtomChar {s t : Shape} {operand a b : Text}
    (hs : s.base? operand = some a) (ht : t.base? operand = some b)
    (ha : ∀ c ∈ a, isAtomChar c = true) (hb : ∀ c ∈ b, isAtomChar c = true) : s = t :=
  marks_injective ((marksOf_of_base? hs ha).symm.trans (marksOf_of_base? ht hb))

/-- In particular not around atomic bases. -/
theorem eq_of_base? {s t : Shape} {operand a b : Text}
    (hs : s.base? operand = some a) (ht : t.base? operand = some b)
    (ha : isAtomic a = true) (hb : isAtomic b = true) : s = t :=
  eq_of_isAtomChar hs ht (isAtomChar_of_isAtomic ha) (isAtomChar_of_isAtomic hb)

/-- An operand with an atomic base does not start with the sign of an immediate operand. -/
theorem head?_ne_of_base? {shape : Shape} {operand base : Text}
    (h : shape.base? operand = some base) (hbase : isAtomic base = true) :
    operand.head? ≠ some '#' := by
  obtain ⟨letter, -, rfl⟩ := base?_eq_some_iff.mp h
  cases base with
  | nil => cases shape <;> simp [write]
  | cons c rest =>
    have hc : c ≠ '#' := by
      rintro rfl
      exact absurd (isAtomChar_of_isAtomic hbase _ (List.mem_cons_self ..)) (by decide)
    cases shape <;> simp [write, hc]

end Shape

end Mos6502
