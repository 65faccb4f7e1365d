/-
Numbers of many bytes, added and subtracted byte by byte.

A row of bytes, the lowest first, is a number in base 256, or in base 100 where every byte holds
two decimal digits; `Numeral` is either way of reading.  An addition of one byte is exact if its
result and its carry, read as a number of two places, are the sum (`Sum.Represents`).  A
subtraction is exact in the same sense, only that the operand counts with its distance to the
largest digit.  This holds for each of the four kinds of sums, the decimal ones as far as their
operands are decimal.

A row is then no more than an induction: what the carry of one byte stands for is what the sum of
the next byte begins with.
-/
import Mathlib.Data.Nat.Digits.Defs
import Mathlib.Tactic.Ring
import Mos6502.Proofs.Decoding
import Mos6502.Proofs.Execution

namespace Mos6502

/-! ### Reading bytes as numbers -/

/-- How a byte is read as a digit. -/
inductive Numeral where
  /-- As it is, in base 256. -/
  | binary
  /-- As two decimal digits, in base 100. -/
  | decimal
deriving DecidableEq, Repr

namespace Numeral

/-- The decimal flag under which bytes are read so. -/
def flag : Numeral → Bool
  | binary => false
  | decimal => true

def base : Numeral → Nat
  | binary => 256
  | decimal => 100

def digit : Numeral → UInt8 → Nat
  | binary, byte => byte.toNat
  | decimal, byte => byte.toNat / 16 * 10 + byte.toNat % 16

/-- The bytes that stand for a digit. -/
def Valid : Numeral → UInt8 → Prop
  | binary, _ => True
  | decimal, byte => byte.toNat / 16 ≤ 9 ∧ byte.toNat % 16 ≤ 9

instance (n : Numeral) (byte : UInt8) : Decidable (n.Valid byte) :=
  match n with
  | binary => inferInstanceAs (Decidable True)
  | decimal => inferInstanceAs (Decidable (_ ∧ _))

theorem one_lt_base (n : Numeral) : 1 < n.base := by
  cases n <;> decide

theorem digit_lt {n : Numeral} {byte : UInt8} (h : n.Valid byte) : n.digit byte < n.base := by
  cases n with
  | binary => exact byte.toNat_lt
  | decimal =>
    obtain ⟨hhigh, hlow⟩ := h
    show byte.toNat / 16 * 10 + byte.toNat % 16 < 100
    omega

/-- The number that a row of bytes stands for, the lowest first. -/
def value (n : Numeral) (bytes : List UInt8) : Nat :=
  Nat.ofDigits n.base (bytes.map n.digit)

/-- What an operand counts for: its digit, or the distance of this to the largest one if it is
subtracted. -/
def addend (n : Numeral) (m : Mnemonic) (byte : UInt8) : Nat :=
  if m = .sbc then n.base - 1 - n.digit byte else n.digit byte

variable {n : Numeral} {m : Mnemonic} {bytes : List UInt8}

theorem value_cons (byte : UInt8) :
    n.value (byte :: bytes) = n.digit byte + n.base * n.value bytes :=
  Nat.ofDigits_cons

theorem value_lt (hvalid : ∀ byte ∈ bytes, n.Valid byte) :
    n.value bytes < n.base ^ bytes.length := by
  have hdigits : ∀ d ∈ bytes.map n.digit, d < n.base := by
    intro d hd
    obtain ⟨byte, hbyte, rfl⟩ := List.mem_map.mp hd
    exact digit_lt (hvalid byte hbyte)
  simpa [value] using Nat.ofDigits_lt_base_pow_length n.one_lt_base hdigits

/-- The addends of a row that is added are the row itself. -/
theorem addends_of_ne (hm : m ≠ .sbc) :
    Nat.ofDigits n.base (bytes.map (n.addend m)) = n.value bytes := by
  have haddend : n.addend m = n.digit := funext fun byte => if_neg hm
  rw [haddend, value]

/-- The addends of a row that is subtracted are its distance to the largest row. -/
theorem addends_sbc (hvalid : ∀ byte ∈ bytes, n.Valid byte) :
    Nat.ofDigits n.base (bytes.map (n.addend .sbc)) + n.value bytes + 1 =
      n.base ^ bytes.length := by
  induction bytes with
  | nil => rfl
  | cons byte rest ih =>
    obtain ⟨hbyte, hrest⟩ := List.forall_mem_cons.mp hvalid
    have haddend : n.addend .sbc byte + n.digit byte + 1 = n.base := by
      have hlt := digit_lt hbyte
      rw [addend, if_pos rfl]
      omega
    rw [List.map_cons, Nat.ofDigits_cons, value_cons, List.length_cons, pow_succ, ← ih hrest]
    calc n.addend .sbc byte + n.base * Nat.ofDigits n.base (rest.map (n.addend .sbc)) +
          (n.digit byte + n.base * n.value rest) + 1
        = (n.addend .sbc byte + n.digit byte + 1) +
          n.base * (Nat.ofDigits n.base (rest.map (n.addend .sbc)) + n.value rest) := by ring
      _ = (Nat.ofDigits n.base (rest.map (n.addend .sbc)) + n.value rest + 1) * n.base := by
        rw [haddend]
        ring

end Numeral

/-! ### One byte -/

/-- A sum stands for a number: its value is the digit, and its carry the next place. -/
structure Sum.Represents (n : Numeral) (sum : Sum) (total : Nat) : Prop where
  valid : n.Valid sum.value
  total_eq : n.digit sum.value + n.base * sum.carry.toNat = total

namespace Alu

variable {a b : UInt8} {carry : Bool} {m : Mnemonic} {n : Numeral}

theorem subtract_represents (a b : UInt8) (carry : Bool) :
    (subtract a b carry).Represents .binary (a.toNat + (255 - b.toNat) + carry.toNat) := by
  refine ⟨trivial, (toNat_add a (~~~b) carry).trans ?_⟩
  rw [UInt8.toNat_not]
  rfl

/-- A sum is given by the two digits of its value. -/
theorem represents_of_digits {sum : Sum} {total : Nat} (high low : Nat)
    (h : high ≤ 9 ∧ low ≤ 9 ∧ sum.value.toNat = 16 * high + low ∧
      10 * high + low + 100 * sum.carry.toNat = total) : sum.Represents .decimal total := by
  obtain ⟨hhigh, hlow, hvalue, htotal⟩ := h
  constructor
  · show sum.value.toNat / 16 ≤ 9 ∧ sum.value.toNat % 16 ≤ 9
    omega
  · show sum.value.toNat / 16 * 10 + sum.value.toNat % 16 + 100 * sum.carry.toNat = total
    omega

theorem addDecimal_represents (ha : Numeral.decimal.Valid a) (hb : Numeral.decimal.Valid b)
    (carry : Bool) :
    (addDecimal a b carry).Represents .decimal
      (Numeral.decimal.digit a + Numeral.decimal.digit b + carry.toNat) := by
  obtain ⟨ha1, ha0⟩ := ha
  obtain ⟨hb1, hb0⟩ := hb
  have hc : carry.toNat ≤ 1 := Bool.toNat_le carry
  simp only [addDecimal, Numeral.digit]
  -- Each digit is a sum of its own, with the carry of the low one in the high one.
  by_cases hlow : 10 ≤ a.toNat % 16 + b.toNat % 16 + carry.toNat
  · simp only [if_pos hlow]
    split_ifs
    · refine represents_of_digits (a.toNat / 16 + b.toNat / 16 + 1 - 10)
        (a.toNat % 16 + b.toNat % 16 + carry.toNat - 10) ?_
      simp only [UInt8.toNat_ofNat', Bool.toNat_true]
      omega
    · refine represents_of_digits (a.toNat / 16 + b.toNat / 16 + 1)
        (a.toNat % 16 + b.toNat % 16 + carry.toNat - 10) ?_
      simp only [UInt8.toNat_ofNat', Bool.toNat_false]
      omega
  · simp only [if_neg hlow]
    split_ifs
    · refine represents_of_digits (a.toNat / 16 + b.toNat / 16 - 10)
        (a.toNat % 16 + b.toNat % 16 + carry.toNat) ?_
      simp only [UInt8.toNat_ofNat', Bool.toNat_true]
      omega
    · refine represents_of_digits (a.toNat / 16 + b.toNat / 16)
        (a.toNat % 16 + b.toNat % 16 + carry.toNat) ?_
      simp only [UInt8.toNat_ofNat', Bool.toNat_false]
      omega

theorem subtractDecimal_represents (ha : Numeral.decimal.Valid a) (hb : Numeral.decimal.Valid b)
    (carry : Bool) :
    (subtractDecimal a b carry).Represents .decimal
      (Numeral.decimal.digit a + (99 - Numeral.decimal.digit b) + carry.toNat) := by
  obtain ⟨ha1, ha0⟩ := ha
  obtain ⟨hb1, hb0⟩ := hb
  have hc : carry.toNat ≤ 1 := Bool.toNat_le carry
  simp only [subtractDecimal, Numeral.digit]
  -- Each digit is a difference of its own, with the borrow of the low one in the high one.
  by_cases hlow : 16 ≤ 15 + a.toNat % 16 + carry.toNat - b.toNat % 16
  · simp only [if_pos hlow]
    split_ifs
    · refine represents_of_digits (a.toNat / 16 - b.toNat / 16)
        (a.toNat % 16 + carry.toNat - 1 - b.toNat % 16) ?_
      simp only [UInt8.toNat_add, UInt8.toNat_sub, UInt8.toNat_ofNat', UInt8.reduceToNat,
        Bool.toNat_true]
      omega
    · refine represents_of_digits (a.toNat / 16 + 10 - b.toNat / 16)
        (a.toNat % 16 + carry.toNat - 1 - b.toNat % 16) ?_
      simp only [UInt8.toNat_add, UInt8.toNat_sub, UInt8.toNat_ofNat', UInt8.reduceToNat,
        Bool.toNat_false]
      omega
  · simp only [if_neg hlow]
    split_ifs
    · refine represents_of_digits (a.toNat / 16 - 1 - b.toNat / 16)
        (a.toNat % 16 + carry.toNat + 9 - b.toNat % 16) ?_
      simp only [UInt8.toNat_add, UInt8.toNat_sub, UInt8.toNat_ofNat', UInt8.reduceToNat,
        Bool.toNat_true]
      omega
    · refine represents_of_digits (a.toNat / 16 + 9 - b.toNat / 16)
        (a.toNat % 16 + carry.toNat + 9 - b.toNat % 16) ?_
      simp only [UInt8.toNat_add, UInt8.toNat_sub, UInt8.toNat_ofNat', UInt8.reduceToNat,
        Bool.toNat_false]
      omega

/-- The sum that an addition or a subtraction takes over. -/
def sum (m : Mnemonic) (n : Numeral) (a b : UInt8) (carry : Bool) : Sum :=
  match m, n with
  | .sbc, .decimal => subtractDecimal a b carry
  | .sbc, .binary => subtract a b carry
  | _, .decimal => addDecimal a b carry
  | _, .binary => add a b carry

/-- All four kinds of sums are exact. -/
theorem sum_represents (hm : m = .adc ∨ m = .sbc) (ha : n.Valid a) (hb : n.Valid b)
    (carry : Bool) :
    (sum m n a b carry).Represents n (n.digit a + n.addend m b + carry.toNat) := by
  rcases hm with rfl | rfl
  · cases n with
    | binary => exact ⟨trivial, toNat_add a b carry⟩
    | decimal => exact addDecimal_represents ha hb carry
  · cases n with
    | binary => exact subtract_represents a b carry
    | decimal => exact subtractDecimal_represents ha hb carry

end Alu

/-! ### A row of bytes -/

namespace Cpu

variable {m : Mnemonic} {n : Numeral} {carry : Bool} {a b : UInt8} {as bs : List UInt8}
  {s : Cpu} {states : List Cpu}

/-- A state that is about to execute an instruction on a byte in the accumulator and one that
its operand names, with a carry, and in the mode of a numeral. -/
structure Link (m : Mnemonic) (n : Numeral) (carry : Bool) (a b : UInt8) (s : Cpu) : Prop where
  reads : ∃ mode, decode (s.memory.get s.pc) = some ⟨m, mode⟩ ∧ s.operand mode = b
  a_eq : s.a = a
  decimal_eq : s.flags.decimal = n.flag
  carry_eq : s.flags.carry = carry

/-- States that are about to execute the same instruction on one pair of bytes after the other,
each with the carry that the one before it left.  How the bytes came there is left open. -/
inductive Chain (m : Mnemonic) (n : Numeral) : Bool → List UInt8 → List UInt8 → List Cpu → Prop
  | nil {carry : Bool} : Chain m n carry [] [] []
  | cons {carry : Bool} {a b : UInt8} {as bs : List UInt8} {s : Cpu} {states : List Cpu}
      (link : Link m n carry a b s) (rest : Chain m n s.step.1.flags.carry as bs states) :
      Chain m n carry (a :: as) (b :: bs) (s :: states)

/-- The bytes that a chain leaves in the accumulator. -/
def results (states : List Cpu) : List UInt8 :=
  states.map fun s => s.step.1.a

/-- The carry that a chain leaves. -/
def carryBehind (carry : Bool) (states : List Cpu) : Bool :=
  states.foldl (fun _ s => s.step.1.flags.carry) carry

/-- An addition or subtraction is executed, and takes over its sum. -/
theorem Link.step_eq (hm : m = .adc ∨ m = .sbc) (h : Link m n carry a b s) :
    ∃ pc, s.step = (((s.jump pc).accumulate (Alu.sum m n a b carry)).count, none) := by
  obtain ⟨⟨mode, hdecode, rfl⟩, rfl, hdecimal, rfl⟩ := h
  refine ⟨s.pc + UInt16.ofNat mode.size, ?_⟩
  have hplain : m ≠ .cli ∧ m ≠ .sei := by
    rcases hm with rfl | rfl <;> decide
  rw [step_of_decode hdecode hplain.1 hplain.2]
  rcases hm with rfl | rfl
  all_goals
    simp only [executed, hdecimal]
    cases n <;> rfl

/-- What one instruction computes, with the carry as one more place. -/
theorem Link.total (hm : m = .adc ∨ m = .sbc) (h : Link m n carry a b s) (ha : n.Valid a)
    (hb : n.Valid b) :
    n.Valid s.step.1.a ∧
      n.digit s.step.1.a + n.base * s.step.1.flags.carry.toNat =
        n.digit a + n.addend m b + carry.toNat := by
  obtain ⟨pc, hstep⟩ := h.step_eq hm
  rw [hstep]
  obtain ⟨hvalid, htotal⟩ := Alu.sum_represents hm ha hb carry
  exact ⟨hvalid, htotal⟩

/-- What a chain computes, with the carry as one more place. -/
theorem Chain.total (hm : m = .adc ∨ m = .sbc) (h : Chain m n carry as bs states)
    (has : ∀ byte ∈ as, n.Valid byte) (hbs : ∀ byte ∈ bs, n.Valid byte) :
    (∀ byte ∈ results states, n.Valid byte) ∧
      n.value (results states) + n.base ^ as.length * (carryBehind carry states).toNat =
        n.value as + Nat.ofDigits n.base (bs.map (n.addend m)) + carry.toNat := by
  induction h with
  | nil =>
    refine ⟨fun _ hmem => absurd hmem List.not_mem_nil, ?_⟩
    simp [results, carryBehind]
  | @cons carry a b as bs s states link rest ih =>
    obtain ⟨ha, has⟩ := List.forall_mem_cons.mp has
    obtain ⟨hb, hbs⟩ := List.forall_mem_cons.mp hbs
    obtain ⟨hbyte, hdigit⟩ := link.total hm ha hb
    obtain ⟨hrest, htotal⟩ := ih has hbs
    refine ⟨List.forall_mem_cons.mpr ⟨hbyte, hrest⟩, ?_⟩
    -- The carry of this byte is what the others begin with, one place further up.
    have hbehind : carryBehind carry (s :: states) = carryBehind s.step.1.flags.carry states := rfl
    rw [hbehind]
    calc n.value (s.step.1.a :: results states) + n.base ^ (as.length + 1) *
          (carryBehind s.step.1.flags.carry states).toNat
        = n.digit s.step.1.a + n.base * (n.value (results states) + n.base ^ as.length *
            (carryBehind s.step.1.flags.carry states).toNat) := by
          rw [Numeral.value_cons]
          ring
      _ = (n.digit s.step.1.a + n.base * s.step.1.flags.carry.toNat) +
          n.base * (n.value as + Nat.ofDigits n.base (bs.map (n.addend m))) := by
          rw [htotal]
          ring
      _ = n.value (a :: as) + Nat.ofDigits n.base ((b :: bs).map (n.addend m)) +
          carry.toNat := by
          rw [hdigit, Numeral.value_cons, List.map_cons, Nat.ofDigits_cons]
          ring

theorem Chain.length_eq (h : Chain m n carry as bs states) : states.length = as.length := by
  induction h with
  | nil => rfl
  | cons link rest ih => rw [List.length_cons, List.length_cons, ih]

/-- Every instruction of a chain is executed. -/
theorem Chain.step_eq (hm : m = .adc ∨ m = .sbc) (h : Chain m n carry as bs states) :
    ∀ s ∈ states, ∃ pc sum, s.step = (((s.jump pc).accumulate sum).count, none) := by
  induction h with
  | nil => exact fun _ hmem => absurd hmem List.not_mem_nil
  | cons link rest ih =>
    obtain ⟨pc, hstep⟩ := link.step_eq hm
    exact List.forall_mem_cons.mpr ⟨⟨pc, _, hstep⟩, ih⟩

/-- A state with an instruction on two bytes in front of it.  The flags stay. -/
def withBytes (s : Cpu) (opcode a b : UInt8) : Cpu :=
  { s with
    a
    pc := startAddress
    memory := (s.memory.set startAddress opcode).set (startAddress + 1) b }

theorem link_withBytes {opcode : UInt8} (hopcode : decode opcode = some ⟨m, .immediate⟩)
    (a b : UInt8) (hdecimal : s.flags.decimal = n.flag) :
    Link m n s.flags.carry a b (s.withBytes opcode a b) := by
  refine ⟨⟨.immediate, ?_, ?_⟩, rfl, hdecimal, rfl⟩
  · show decode (((s.memory.set startAddress opcode).set (startAddress + 1) b).get
      startAddress) = _
    rw [Memory.get_set, if_neg (by decide), Memory.get_set, if_pos rfl, hopcode]
  · show ((s.memory.set startAddress opcode).set (startAddress + 1) b).get
      (startAddress + 1) = b
    rw [Memory.get_set, if_pos rfl]

/-- From any state, there is a chain on any two rows. -/
theorem exists_chain (hm : m = .adc ∨ m = .sbc) (hlength : as.length = bs.length)
    (s : Cpu) (hdecimal : s.flags.decimal = n.flag) :
    ∃ states, Chain m n s.flags.carry as bs states := by
  have himmediate : ∃ opcode, decode opcode = some ⟨m, .immediate⟩ := by
    rcases hm with rfl | rfl
    · exact ⟨0x69, by decide +kernel⟩
    · exact ⟨0xe9, by decide +kernel⟩
  obtain ⟨opcode, hopcode⟩ := himmediate
  induction as generalizing bs s with
  | nil =>
    obtain rfl := List.length_eq_zero_iff.mp hlength.symm
    exact ⟨[], .nil⟩
  | cons a as ih =>
    cases bs with
    | nil => cases hlength
    | cons b bs =>
      have hlink := link_withBytes hopcode a b hdecimal
      obtain ⟨pc, hstep⟩ := hlink.step_eq hm
      have hkept : (s.withBytes opcode a b).step.1.flags.decimal = n.flag := by
        rw [hstep]
        exact hdecimal
      obtain ⟨states, hrest⟩ := ih (Nat.succ.inj hlength) _ hkept
      exact ⟨_, .cons hlink hrest⟩

/-- A chain leaves the carry of its last instruction. -/
theorem carryBehind_of_getLast? {last : Cpu} (hlast : states.getLast? = some last) :
    carryBehind carry states = last.step.1.flags.carry := by
  obtain ⟨before, rfl⟩ := List.getLast?_eq_some_iff.mp hlast
  rw [carryBehind, List.foldl_append]
  rfl

/-- A chain on rows that are not empty has a last state, and leaves the carry of its instruction. -/
theorem Chain.exists_last (h : Chain m n carry as bs states) (hne : as ≠ []) :
    ∃ last ∈ states, states.getLast? = some last ∧
      carryBehind carry states = last.step.1.flags.carry := by
  have hstates : states ≠ [] := by
    intro hnil
    have hlength := h.length_eq
    rw [hnil] at hlength
    exact hne (List.length_eq_zero_iff.mp hlength.symm)
  have hlast := List.getLast?_eq_some_getLast hstates
  exact ⟨states.getLast hstates, List.getLast_mem hstates, hlast, carryBehind_of_getLast? hlast⟩

end Cpu

/-- A sum with the distance to the largest row, read with its carry as a borrow. -/
theorem Numeral.difference_of_total {size row a b addends : Nat} {carry carryOut : Bool}
    (hrow : row < size) (haddends : addends + b + 1 = size)
    (htotal : row + size * carryOut.toNat = a + addends + carry.toNat) :
    (row : Int) = ((a : Int) - b - (1 - carry.toNat)) % size ∧
      (carryOut = true ↔ 0 ≤ (a : Int) - b - (1 - carry.toNat)) := by
  have hlt : (row : Int) < size := Int.ofNat_lt.mpr hrow
  cases carryOut with
  | true =>
    have hdifference : (a : Int) - b - (1 - carry.toNat) = row := by
      rw [Bool.toNat_true] at htotal
      omega
    rw [hdifference, Int.emod_eq_of_lt (Int.natCast_nonneg row) hlt]
    exact ⟨rfl, iff_of_true rfl (Int.natCast_nonneg row)⟩
  | false =>
    have hdifference : (a : Int) - b - (1 - carry.toNat) = row - size := by
      rw [Bool.toNat_false] at htotal
      omega
    rw [hdifference, Int.sub_emod_right, Int.emod_eq_of_lt (Int.natCast_nonneg row) hlt]
    exact ⟨rfl, iff_of_false Bool.false_ne_true (by omega)⟩

/-! ### Chains are exact -/

/--
**A chain of additions or subtractions is exact.**  For two rows of bytes that are equally long
and not empty there is a chain, and every chain on them is executed to its end.  Zero and negative
are those of its last byte.  If the bytes are valid, so are the results: with the last carry as
one more place they are the sum, or they are the difference up to a multiple of that place, and
the carry is set exactly if nothing was borrowed.
-/
theorem carry_chain_exact {m : Mnemonic} {n : Numeral} {carry : Bool} {as bs : List UInt8}
    (hm : m = .adc ∨ m = .sbc) (hlength : as.length = bs.length) (hne : as ≠ []) :
    (∃ states, Cpu.Chain m n carry as bs states) ∧
      ∀ states, Cpu.Chain m n carry as bs states →
        (∀ s ∈ states, s.step.2 = none) ∧
          (Cpu.results states).length = as.length ∧
          ∃ last, states.getLast? = some last ∧
            last.step.1.flags.negative = (last.step.1.a &&& 0x80 != 0) ∧
            last.step.1.flags.zero = (last.step.1.a == 0) ∧
            ((∀ byte ∈ as, n.Valid byte) → (∀ byte ∈ bs, n.Valid byte) →
              (∀ byte ∈ Cpu.results states, n.Valid byte) ∧
                (m = .adc →
                  n.value (Cpu.results states) +
                      n.base ^ as.length * last.step.1.flags.carry.toNat =
                    n.value as + n.value bs + carry.toNat) ∧
                (m = .sbc →
                  (n.value (Cpu.results states) : Int) =
                      ((n.value as : Int) - n.value bs - (1 - carry.toNat)) %
                        (n.base ^ as.length : Nat) ∧
                    (last.step.1.flags.carry = true ↔
                      0 ≤ (n.value as : Int) - n.value bs - (1 - carry.toNat)))) := by
  constructor
  · let s : Cpu :=
      { Cpu.ofMemory .empty with flags := { Flags.ofByte 0x30 with decimal := n.flag, carry } }
    exact Cpu.exists_chain hm hlength s rfl
  · intro states hchain
    have hresults : (Cpu.results states).length = as.length := by
      rw [Cpu.results, List.length_map, hchain.length_eq]
    have hsteps := hchain.step_eq hm
    obtain ⟨last, hmem, hlast, hcarry⟩ := hchain.exists_last hne
    obtain ⟨pc, sum, hstep⟩ := hsteps last hmem
    refine ⟨?_, hresults, last, hlast, by rw [hstep]; rfl, by rw [hstep]; rfl, ?_⟩
    · intro s hs
      obtain ⟨pc, sum, hstep⟩ := hsteps s hs
      rw [hstep]
    · intro has hbs
      obtain ⟨hvalid, htotal⟩ := hchain.total hm has hbs
      rw [hcarry] at htotal
      refine ⟨hvalid, ?_, ?_⟩
      · rintro rfl
        rwa [Numeral.addends_of_ne (by decide)] at htotal
      · rintro rfl
        have hrow := Numeral.value_lt hvalid
        have haddends := Numeral.addends_sbc hbs
        rw [hresults] at hrow
        rw [← hlength] at haddends
        exact Numeral.difference_of_total hrow haddends htotal

/-- Decimal 1000 - 201 is 799, with a borrow between the bytes and none in the end. -/
theorem carry_chain_exact_with_borrow :
    (∃ states, Cpu.Chain .sbc .decimal true [0x00, 0x10] [0x01, 0x02] states) ∧
      ∀ states, Cpu.Chain .sbc .decimal true [0x00, 0x10] [0x01, 0x02] states →
        Numeral.decimal.value (Cpu.results states) = 799 ∧
          ∃ last, states.getLast? = some last ∧ last.step.1.flags.carry = true := by
  obtain ⟨hchain, hexact⟩ := @carry_chain_exact .sbc .decimal true [0x00, 0x10] [0x01, 0x02]
    (.inr rfl) rfl (by decide)
  refine ⟨hchain, fun states h => ?_⟩
  obtain ⟨-, -, last, hlast, -, -, hvalues⟩ := hexact states h
  obtain ⟨-, -, hdifference⟩ := hvalues (by decide +kernel) (by decide +kernel)
  obtain ⟨hvalue, hcarry⟩ := hdifference rfl
  have has : Numeral.decimal.value [0x00, 0x10] = 1000 := by decide
  have hbs : Numeral.decimal.value [0x01, 0x02] = 201 := by decide
  rw [has, hbs] at hvalue hcarry
  exact ⟨Int.ofNat_inj.mp hvalue, last, hlast, hcarry.mpr (by decide)⟩

end Mos6502
