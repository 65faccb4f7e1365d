/-
Which texts are literals, and of what numbers.

A literal is the sign of a radix and a row of its digits, and stands for the number that the row
has by the places of its digits.  That is all there is to it: the row may be as long as it likes,
with any zeros in front, as long as the number fits a word.

Whether a literal is short is a matter of how long its row is, or of the number alone where there
is no sign.  In both cases a short literal is a byte, since so many digits denote no more.

No literal is a name, because every literal starts with a sign or a decimal digit.
-/
import Mathlib.Data.Nat.Digits.Defs
import Mos6502.Proofs.Spelling

namespace Mos6502

/-- The ways to write a literal. -/
inductive Radix where
  | hexadecimal
  | binary
  | decimal
deriving DecidableEq, Repr

namespace Radix

def base : Radix → Nat
  | hexadecimal => 16
  | binary => 2
  | decimal => 10

/-- What stands in front of the digits. -/
def sign : Radix → Text
  | hexadecimal => ['$']
  | binary => ['%']
  | decimal => []

/-- The digits in the order of their values, letters in lower case. -/
def digits : Radix → Text
  | hexadecimal => ['0', '1', '2', '3', '4', '5', '6', '7', '8', '9', 'a', 'b', 'c', 'd', 'e', 'f']
  | binary => ['0', '1']
  | decimal => ['0', '1', '2', '3', '4', '5', '6', '7', '8', '9']

/-- A character is a digit, a letter in either case. -/
def IsDigit (r : Radix) (c : Char) : Prop :=
  c.toLower ∈ r.digits

/-- The number that a row of digits stands for, by their places. -/
def number (r : Radix) (row : Text) : Nat :=
  Nat.ofDigits r.base (row.reverse.map fun c => r.digits.idxOf c.toLower)

/-- A row is short: two hexadecimal or eight binary digits at most, or a number of at most 255
without a sign. -/
def IsShort (r : Radix) (row : Text) : Prop :=
  match r with
  | hexadecimal => row.length ≤ 2
  | binary => row.length ≤ 8
  | decimal => decimal.number row ≤ 255

instance (r : Radix) (row : Text) : Decidable (r.IsShort row) :=
  match r with
  | hexadecimal => inferInstanceAs (Decidable (_ ≤ _))
  | binary => inferInstanceAs (Decidable (_ ≤ _))
  | decimal => inferInstanceAs (Decidable (_ ≤ _))

variable {r : Radix} {c : Char} {row text : Text} {w : UInt16}

theorem base_pos (r : Radix) : 0 < r.base := by
  cases r <;> decide

theorem base_le (r : Radix) : r.base ≤ 16 := by
  cases r <;> decide

/-! ### Digits -/

/-- A digit counts for its place among the digits. -/
theorem digitValue_of_mem {d : Char} (h : d ∈ r.digits) :
    digitValue d < r.base ∧ r.digits.idxOf d = digitValue d := by
  have key : r.digits.all (fun d =>
      digitValue d < r.base ∧ r.digits.idxOf d = digitValue d) = true := by
    cases r <;> decide
  exact of_decide_eq_true (List.all_eq_true.mp key d h)

theorem digitChar_mem {n : Nat} (h : n < r.base) : n.digitChar ∈ r.digits := by
  have key : ∀ n < r.base, n.digitChar ∈ r.digits := by
    cases r <;> decide
  exact key n h

theorem isDigit_iff : r.IsDigit c ↔ isDigitOf r.base c = true := by
  constructor
  · intro h
    have hvalue := (digitValue_of_mem h).1
    rw [digitValue_toLower] at hvalue
    exact decide_eq_true hvalue
  · intro h
    rw [IsDigit, toLower_of_isDigitOf r.base_le h]
    exact digitChar_mem (of_decide_eq_true h)

/-- Zero is a digit of every radix. -/
theorem isDigit_zeros_append (zeros : Nat) :
    (∀ c ∈ List.replicate zeros '0' ++ row, r.IsDigit c) ↔ ∀ c ∈ row, r.IsDigit c := by
  have hzero : ∀ c ∈ List.replicate zeros '0', r.IsDigit c := by
    intro c hc
    rw [(List.mem_replicate.mp hc).2]
    exact isDigit_iff.mpr (decide_eq_true r.base_pos)
  rw [List.forall_mem_append]
  exact and_iff_right hzero

theorem all_isDigitOf_iff : row.all (isDigitOf r.base) = true ↔ ∀ c ∈ row, r.IsDigit c := by
  simp only [List.all_eq_true, isDigit_iff]

/-! ### Rows of digits -/

theorem number_append_singleton (row : Text) (c : Char) :
    r.number (row ++ [c]) = r.digits.idxOf c.toLower + r.base * r.number row := by
  rw [number, List.reverse_append, List.reverse_singleton, List.singleton_append, List.map_cons,
    Nat.ofDigits_cons]
  rfl

/-- Reading from the left gives the number by the places. -/
theorem denoted_eq_number (h : ∀ c ∈ row, r.IsDigit c) : denoted r.base row = r.number row := by
  induction row using List.reverseRecOn with
  | nil => rfl
  | append_singleton front c ih =>
    obtain ⟨hfront, hc⟩ := List.forall_mem_append.mp h
    have hdigit : r.IsDigit c := hc c (List.mem_singleton_self c)
    have hvalue := (digitValue_of_mem hdigit).2
    rw [digitValue_toLower] at hvalue
    rw [denoted_append_singleton, number_append_singleton, ih hfront, hvalue, Nat.mul_comm,
      Nat.add_comm]

/-- Zeros in front make no difference. -/
theorem number_zeros (zeros : Nat) (row : Text) :
    r.number (List.replicate zeros '0' ++ row) = r.number row := by
  have hzero : r.digits.idxOf '0'.toLower = 0 := by
    cases r <;> rfl
  rw [number, List.reverse_append, List.map_append, List.reverse_replicate, List.map_replicate,
    hzero, Nat.ofDigits_append_replicate_zero, number]

/-- A row is read as a word if it is one of digits, at least one, and its number fits. -/
theorem word?_eq_some_iff :
    word? r.base row = some w ↔ row ≠ [] ∧ (∀ c ∈ row, r.IsDigit c) ∧ r.number row = w.toNat := by
  rw [Mos6502.word?_eq_some_iff, all_isDigitOf_iff]
  constructor
  · rintro ⟨hne, hdigits, hvalue⟩
    exact ⟨hne, hdigits, denoted_eq_number hdigits ▸ hvalue⟩
  · rintro ⟨hne, hdigits, hvalue⟩
    exact ⟨hne, hdigits, denoted_eq_number hdigits ▸ hvalue⟩

theorem word?_zeros (hne : row ≠ []) (zeros : Nat) :
    word? r.base (List.replicate zeros '0' ++ row) = word? r.base row := by
  refine Option.ext fun w => ?_
  rw [word?_eq_some_iff, word?_eq_some_iff, number_zeros, isDigit_zeros_append]
  constructor
  · rintro ⟨-, hdigits, hnumber⟩
    exact ⟨hne, hdigits, hnumber⟩
  · rintro ⟨-, hdigits, hnumber⟩
    exact ⟨List.append_ne_nil_of_right_ne_nil _ hne, hdigits, hnumber⟩

/-! ### Signs -/

/-- What a row of digits is read as. -/
def literal (r : Radix) (row : Text) (value : UInt16) : Literal :=
  ⟨value, decide (r.IsShort row)⟩

/-- A number without a sign is short by its value. -/
theorem literal_decimal (h : word? 10 row = some w) : decimal.literal row w = ⟨w, w ≤ 0xff⟩ := by
  have hnumber : decimal.number row = w.toNat := (word?_eq_some_iff (r := decimal).mp h).2.2
  have hshort : decimal.IsShort row ↔ w ≤ 0xff := by
    rw [UInt16.le_iff_toNat_le, IsShort, hnumber]
    rfl
  rw [literal, decide_eq_decide.mpr hshort]

/-- Every text is a sign and a row, and is read as this row is. -/
theorem exists_parse?_eq (text : Text) :
    ∃ r row, text = sign r ++ row ∧
      Literal.parse? text = (word? r.base row).map (r.literal row) := by
  unfold Literal.parse?
  split
  · rename_i row
    exact ⟨hexadecimal, row, rfl, rfl⟩
  · rename_i row
    exact ⟨binary, row, rfl, rfl⟩
  · refine ⟨decimal, text, rfl, Option.map_congr fun w hw => ?_⟩
    exact (literal_decimal hw).symm

/-- Behind the sign of a radix, digits are read as digits of this radix. -/
theorem parse?_sign_append (h : ∀ c ∈ row, r.IsDigit c) :
    Literal.parse? (r.sign ++ row) = (word? r.base row).map (r.literal row) := by
  cases r with
  | hexadecimal => rfl
  | binary => rfl
  | decimal =>
    refine (Operand.parse?_of_digits (all_isDigitOf_iff.mpr h)).trans ?_
    exact Option.map_congr fun w hw => (literal_decimal hw).symm

/-- So short a row is a byte. -/
theorem number_le_of_isShort (h : ∀ c ∈ row, r.IsDigit c) (hshort : r.IsShort row) :
    r.number row ≤ 255 := by
  have hlt : r.number row < r.base ^ row.length := by
    rw [← denoted_eq_number h]
    exact denoted_lt (all_isDigitOf_iff.mpr h)
  refine Nat.le_of_lt_succ ?_
  cases r with
  | hexadecimal => exact hlt.trans_le (Nat.pow_le_pow_right (by decide) hshort)
  | binary => exact hlt.trans_le (Nat.pow_le_pow_right (by decide) hshort)
  | decimal => exact Nat.lt_succ_of_le hshort

/-- Zeros in front of the digits do not change the value. -/
theorem value_parse?_zeros (hne : row ≠ []) (h : ∀ c ∈ row, r.IsDigit c) (zeros : Nat) :
    (Literal.parse? (r.sign ++ (List.replicate zeros '0' ++ row))).map Literal.value =
      (Literal.parse? (r.sign ++ row)).map Literal.value := by
  have hvalue : ∀ row w, (r.literal row w).value = w := fun _ _ => rfl
  have hdigits := (isDigit_zeros_append zeros).mpr h
  simp only [parse?_sign_append hdigits, parse?_sign_append h, Option.map_map, Function.comp_def,
    hvalue, word?_zeros hne]

-- They can change the width, since this one goes by how long the row is.
example : Literal.parse? ['$', '0', '0', '1'] = some ⟨1, false⟩ := by decide

/-- A text is read as a literal exactly if it is a sign and digits behind it whose number is the
value of the literal. -/
theorem parse?_eq_some_iff {literal : Literal} :
    Literal.parse? text = some literal ↔
      ∃ r row, text = sign r ++ row ∧ row ≠ [] ∧ (∀ c ∈ row, r.IsDigit c) ∧
        literal.value.toNat = r.number row ∧ (literal.short = true ↔ r.IsShort row) := by
  constructor
  · intro h
    obtain ⟨r, row, htext, hparse⟩ := exists_parse?_eq text
    rw [hparse] at h
    obtain ⟨w, hw, rfl⟩ := Option.map_eq_some_iff.mp h
    obtain ⟨hne, hdigits, hnumber⟩ := word?_eq_some_iff.mp hw
    exact ⟨r, row, htext, hne, hdigits, hnumber.symm, decide_eq_true_iff⟩
  · rintro ⟨r, row, rfl, hne, hdigits, hnumber, hshort⟩
    have hwidth : decide (r.IsShort row) = literal.short := by
      rw [Bool.eq_iff_iff, decide_eq_true_iff]
      exact hshort.symm
    rw [parse?_sign_append hdigits, word?_eq_some_iff.mpr ⟨hne, hdigits, hnumber.symm⟩,
      Option.map_some, Radix.literal, hwidth]

end Radix

/-! ### Literals -/

/--
**Literals are read exactly.**  A text is read as a literal if and only if it is the sign of a
radix with one digit or more behind it, and nothing else, and their number is at most 65535.  The
value of the literal is this number, and it is short exactly if it is written with one or two
hexadecimal digits, one to eight binary ones, or is at most 255 without a sign.  Zeros may stand
in front of the digits in any amount, and make no difference to the value.  A short literal is a
byte, and no identifier is a literal.
-/
theorem literals_read_exactly (text : Text) :
    ((Literal.parse? text).isSome = true ↔
      ∃ (r : Radix) (row : Text), text = r.sign ++ row ∧ row ≠ [] ∧ (∀ c ∈ row, r.IsDigit c) ∧
        r.number row ≤ 65535) ∧
      (∀ literal, Literal.parse? text = some literal ↔
        ∃ (r : Radix) (row : Text), text = r.sign ++ row ∧ row ≠ [] ∧ (∀ c ∈ row, r.IsDigit c) ∧
          literal.value.toNat = r.number row ∧ (literal.short = true ↔ r.IsShort row)) ∧
      (∀ (r : Radix) (row : Text) (zeros : Nat), row ≠ [] → (∀ c ∈ row, r.IsDigit c) →
        (Literal.parse? (r.sign ++ (List.replicate zeros '0' ++ row))).map Literal.value =
          (Literal.parse? (r.sign ++ row)).map Literal.value) ∧
      (∀ literal, Literal.parse? text = some literal → literal.short = true →
        literal.value ≤ 255) ∧
      ¬ ((Literal.parse? text).isSome = true ∧ isIdentifier text = true) := by
  refine ⟨?_, fun literal => Radix.parse?_eq_some_iff, ?_, ?_, ?_⟩
  · constructor
    · intro h
      obtain ⟨literal, hliteral⟩ := Option.isSome_iff_exists.mp h
      obtain ⟨r, row, htext, hne, hdigits, hnumber, -⟩ := Radix.parse?_eq_some_iff.mp hliteral
      exact ⟨r, row, htext, hne, hdigits, hnumber ▸ Nat.le_of_lt_succ literal.value.toNat_lt⟩
    · rintro ⟨r, row, htext, hne, hdigits, hle⟩
      have hvalue : (UInt16.ofNat (r.number row)).toNat = r.number row :=
        UInt16.toNat_ofNat_of_lt (Nat.lt_succ_of_le hle)
      have hparse : Literal.parse? text = some (r.literal row (UInt16.ofNat (r.number row))) :=
        Radix.parse?_eq_some_iff.mpr ⟨r, row, htext, hne, hdigits, hvalue, decide_eq_true_iff⟩
      exact Option.isSome_of_eq_some hparse
  · intro r row zeros hne hdigits
    exact Radix.value_parse?_zeros hne hdigits zeros
  · intro literal hliteral hshort
    obtain ⟨r, row, -, -, hdigits, hnumber, hwidth⟩ := Radix.parse?_eq_some_iff.mp hliteral
    refine UInt16.le_iff_toNat_le.mpr ?_
    rw [hnumber]
    exact Radix.number_le_of_isShort hdigits (hwidth.mp hshort)
  · rintro ⟨hliteral, hname⟩
    rw [parse?_of_isIdentifier hname] at hliteral
    cases hliteral

end Mos6502
