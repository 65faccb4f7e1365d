/-
Numbers of many bytes, shifted by one place.

A shift of one byte is a rotation that finds the carry clear, so there are only two kinds of steps.
Both are exact with the carry as one more place.  To the left the carry comes in at the bottom and
goes out at the top, and to the right it comes in at the top and goes out at the bottom.

In a row every byte finds the carry that the one before it left.  What goes out of one byte is what
comes into the next, so a whole row is exact in the same sense as one byte (`Row.total_rol`,
`Row.total_ror`).  Rows to the left start at the lowest byte and rows to the right at the highest.
-/
import Mathlib.Data.FinEnum
import Mathlib.Data.Nat.Digits.Lemmas
import Mos6502.Proofs.CarryChain

namespace Mos6502

/-- The instructions that shift a byte by one place. -/
inductive Shift where
  | asl
  | lsr
  | rol
  | ror
deriving DecidableEq, Repr

namespace Shift

def mnemonic : Shift → Mnemonic
  | asl => .asl
  | lsr => .lsr
  | rol => .rol
  | ror => .ror

/-- What becomes of a byte, with the carry that is found. -/
def apply : Shift → UInt8 → Bool → Shifted
  | asl, byte, _ => Alu.shiftLeft byte
  | lsr, byte, _ => Alu.shiftRight byte
  | rol, byte, carry => Alu.rotateLeft byte carry
  | ror, byte, carry => Alu.rotateRight byte carry

/-! ### One byte -/

theorem apply_asl (byte : UInt8) (carry : Bool) : asl.apply byte carry = rol.apply byte false := by
  simp [apply, Alu.shiftLeft, Alu.rotateLeft]

theorem apply_lsr (byte : UInt8) (carry : Bool) : lsr.apply byte carry = ror.apply byte false := by
  simp [apply, Alu.shiftRight, Alu.rotateRight]

/-- To the left, a byte is doubled, and the carry goes in below and out above. -/
theorem rol_total : ∀ (byte : UInt8) (carry : Bool),
    (rol.apply byte carry).value.toNat + 256 * (rol.apply byte carry).carry.toNat =
      2 * byte.toNat + carry.toNat := by
  decide +kernel

/-- To the right, a byte is halved, and the carry goes in above and out below. -/
theorem ror_total : ∀ (byte : UInt8) (carry : Bool),
    2 * (ror.apply byte carry).value.toNat + (ror.apply byte carry).carry.toNat =
      byte.toNat + 256 * carry.toNat := by
  decide +kernel

/-- A carry can be told from what it counts for. -/
theorem carry_ext {carry out : Bool} (h : carry.toNat = out.toNat) : carry = out := by
  cases carry <;> cases out <;> trivial

end Shift

/-! ### Reading rows -/

namespace Numeral

variable {bytes results : List UInt8}

theorem binary_value_cons (byte : UInt8) (bytes : List UInt8) :
    binary.value (byte :: bytes) = byte.toNat + 256 * binary.value bytes :=
  value_cons byte

/-- The byte in front is the highest one if the row is read backwards. -/
theorem binary_value_reverse_cons (byte : UInt8) (bytes : List UInt8) :
    binary.value (byte :: bytes).reverse =
      binary.value bytes.reverse + 256 ^ bytes.length * byte.toNat := by
  have hvalue := Nat.ofDigits_reverse_cons (b := 256) (bytes.map binary.digit) byte.toNat
  rw [List.length_map, ← List.map_reverse] at hvalue
  rw [value, List.map_reverse, List.map_cons]
  exact hvalue

theorem binary_value_lt (bytes : List UInt8) : binary.value bytes < 256 ^ bytes.length :=
  value_lt fun _ _ => trivial

/-- Rows of one length that stand for one number are the same. -/
theorem binary_value_inj (hlength : bytes.length = results.length)
    (h : binary.value bytes = binary.value results) : bytes = results := by
  have hbytes : ∀ bytes : List UInt8, ∀ d ∈ bytes.map binary.digit, d < 256 := by
    intro bytes d hd
    obtain ⟨byte, -, rfl⟩ := List.mem_map.mp hd
    exact byte.toNat_lt
  have hdigits : bytes.map binary.digit = results.map binary.digit :=
    Nat.ofDigits_inj_of_len_eq (by decide) (by simpa using hlength) (hbytes bytes)
      (hbytes results) h
  exact List.map_injective_iff.mpr (fun _ _ => UInt8.toNat_inj.mp) hdigits

end Numeral

/-! ### A row of bytes -/

/-- A row of bytes is shifted, each with the carry that the one before it left.  With the bytes
there are what becomes of them and the carry that is left in the end. -/
inductive Row : List Shift → Bool → List UInt8 → List UInt8 → Bool → Prop
  | nil {carry : Bool} : Row [] carry [] [] carry
  | cons {shift : Shift} {shifts : List Shift} {byte : UInt8} {bytes results : List UInt8}
      {carry out : Bool} (rest : Row shifts (shift.apply byte carry).carry bytes results out) :
      Row (shift :: shifts) carry (byte :: bytes) ((shift.apply byte carry).value :: results) out

namespace Row

open Numeral (binary)

variable {shifts : List Shift} {bytes results between : List UInt8} {carry turned out : Bool}
  {k n : Nat}

theorem length_eq (h : Row shifts carry bytes results out) :
    bytes.length = shifts.length ∧ results.length = shifts.length := by
  induction h with
  | nil => exact ⟨rfl, rfl⟩
  | cons rest ih => exact ⟨congrArg Nat.succ ih.1, congrArg Nat.succ ih.2⟩

/-- From the lowest byte up, a row is doubled, with the carry below it and above it. -/
theorem total_rol (h : Row shifts carry bytes results out) (hrol : ∀ shift ∈ shifts, shift = .rol) :
    binary.value results + 256 ^ bytes.length * out.toNat =
      2 * binary.value bytes + carry.toNat := by
  induction h with
  | nil => simp [Numeral.value]
  | @cons shift shifts byte bytes results carry out rest ih =>
    obtain ⟨rfl, hrest⟩ := List.forall_mem_cons.mp hrol
    have hbyte := Shift.rol_total byte carry
    have htotal := ih hrest
    -- What goes out of this byte is what the others begin with, one place further up.
    calc binary.value ((Shift.rol.apply byte carry).value :: results) +
          256 ^ (bytes.length + 1) * out.toNat
        = (Shift.rol.apply byte carry).value.toNat +
          256 * (binary.value results + 256 ^ bytes.length * out.toNat) := by
          rw [Numeral.binary_value_cons]
          ring
      _ = (Shift.rol.apply byte carry).value.toNat +
          256 * (Shift.rol.apply byte carry).carry.toNat + 256 * (2 * binary.value bytes) := by
          rw [htotal]
          ring
      _ = 2 * binary.value (byte :: bytes) + carry.toNat := by
          rw [hbyte, Numeral.binary_value_cons]
          ring

/-- From the highest byte down, a row is halved, with the carry above it and below it. -/
theorem total_ror (h : Row shifts carry bytes results out) (hror : ∀ shift ∈ shifts, shift = .ror) :
    2 * binary.value results.reverse + out.toNat =
      binary.value bytes.reverse + 256 ^ bytes.length * carry.toNat := by
  induction h with
  | nil => simp [Numeral.value]
  | @cons shift shifts byte bytes results carry out rest ih =>
    obtain ⟨rfl, hrest⟩ := List.forall_mem_cons.mp hror
    have hbyte := Shift.ror_total byte carry
    have htotal := ih hrest
    have hlength : results.length = bytes.length := rest.length_eq.2.trans rest.length_eq.1.symm
    -- What goes out of this byte is what the others begin with, above their highest place.
    calc 2 * binary.value ((Shift.ror.apply byte carry).value :: results).reverse + out.toNat
        = 2 * binary.value results.reverse + out.toNat +
          256 ^ bytes.length * (2 * (Shift.ror.apply byte carry).value.toNat) := by
          rw [Numeral.binary_value_reverse_cons, hlength]
          ring
      _ = binary.value bytes.reverse + 256 ^ bytes.length *
          (2 * (Shift.ror.apply byte carry).value.toNat +
            (Shift.ror.apply byte carry).carry.toNat) := by
          rw [htotal]
          ring
      _ = binary.value (byte :: bytes).reverse + 256 ^ (bytes.length + 1) * carry.toNat := by
          rw [hbyte, Numeral.binary_value_reverse_cons]
          ring

/-! ### Whole numbers -/

theorem rol_of_asl (h : Row (.asl :: shifts) carry bytes results out) :
    Row (.rol :: shifts) false bytes results out := by
  cases h with
  | cons rest =>
    rw [Shift.apply_asl] at rest ⊢
    exact .cons rest

theorem ror_of_lsr (h : Row (.lsr :: shifts) carry bytes results out) :
    Row (.ror :: shifts) false bytes results out := by
  cases h with
  | cons rest =>
    rw [Shift.apply_lsr] at rest ⊢
    exact .cons rest

/-- A shift to the left doubles a number, up to what falls out. -/
theorem doubles (h : Row (.asl :: List.replicate k .rol) carry bytes results out) :
    binary.value results = 2 * binary.value bytes % 256 ^ (k + 1) ∧
      out = (binary.value bytes).testBit (8 * k + 7) := by
  have htotal := h.rol_of_asl.total_rol fun _ => List.eq_of_mem_replicate (n := k + 1)
  rw [Bool.toNat_false, Nat.add_zero] at htotal
  have hlength : bytes.length = k + 1 ∧ results.length = k + 1 := by
    simpa using h.length_eq
  have hresults := Numeral.binary_value_lt results
  rw [hlength.1] at htotal
  rw [hlength.2] at hresults
  -- The top bit is worth half of what the row has room for.
  have hroom : 256 ^ (k + 1) = 2 * 2 ^ (8 * k + 7) := by
    rw [← pow_succ', show (256 : Nat) = 2 ^ 8 from rfl, ← pow_mul]
    ring_nf
  constructor
  · rw [← htotal, Nat.add_mul_mod_self_left, Nat.mod_eq_of_lt hresults]
  · rw [hroom] at htotal hresults
    have htop : binary.value bytes / 2 ^ (8 * k + 7) = out.toNat :=
      Nat.div_eq_of_lt_le (by linarith) (by linarith)
    refine Shift.carry_ext ?_
    rw [Nat.toNat_testBit, htop, Nat.mod_eq_of_lt (Bool.toNat_lt out)]

/-- A shift to the right halves a number, and what falls out is the rest. -/
theorem halves
    (h : Row (.lsr :: List.replicate k .ror) carry bytes.reverse results.reverse out) :
    binary.value results = binary.value bytes / 2 ∧ out = (binary.value bytes).testBit 0 := by
  have htotal := h.ror_of_lsr.total_ror fun _ => List.eq_of_mem_replicate (n := k + 1)
  rw [List.reverse_reverse, List.reverse_reverse, Bool.toNat_false, Nat.mul_zero,
    Nat.add_zero] at htotal
  have hrest : out.toNat < 2 := Bool.toNat_lt out
  refine ⟨by omega, Shift.carry_ext ?_⟩
  rw [Nat.toNat_testBit, pow_zero, Nat.div_one]
  omega

/-- A rotation to the right undoes one to the left. -/
theorem restores (hup : Row (List.replicate n .rol) carry bytes between turned)
    (hdown : Row (List.replicate n .ror) turned between.reverse results.reverse out) :
    results = bytes ∧ out = carry := by
  have hleft := hup.total_rol fun _ => List.eq_of_mem_replicate
  have hright := hdown.total_ror fun _ => List.eq_of_mem_replicate
  have hbytes : bytes.length = n ∧ between.length = n := by
    simpa using hup.length_eq
  have hresults : results.length = n := by
    simpa using hdown.length_eq.2
  rw [List.reverse_reverse, List.reverse_reverse, List.length_reverse, hbytes.2, ← hbytes.1,
    hleft] at hright
  have hout : out.toNat < 2 := Bool.toNat_lt out
  have hcarry : carry.toNat < 2 := Bool.toNat_lt carry
  exact ⟨Numeral.binary_value_inj (hresults.trans hbytes.1.symm) (by omega),
    Shift.carry_ext (by omega)⟩

end Row

end Mos6502
