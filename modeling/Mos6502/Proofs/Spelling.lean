/-
How numbers are spelled.

A number is spelled with its digits in some base, the letters among them in either case, and with
any amount of zeros in front (`Spells`).  A row of digits is read as a word exactly if it spells
this word, so every number that fits has infinitely many spellings, and each of them is read alike.

The base is told by a sign in front.  Where bytes are listed there is a sign for base two and for
base sixteen, and a number without one is decimal; where an address is expected the sign for base
two is not known.

Bytes are listed between commas, and nothing between two commas stands for no byte (`ListsBytes`).
-/
import Mathlib.Data.List.Induction
import Mos6502.Proofs.LineMap
import Mos6502.Proofs.PutProgram
import Mos6502.Proofs.ShortestForm

namespace Mos6502

/-- The digits of a number, behind any amount of zeros and with the letters in either case. -/
def Spells (base n : Nat) (digits : Text) : Prop :=
  ∃ zeros, digits.map Char.toLower = List.replicate zeros '0' ++ Nat.toDigits base n

variable {base n : Nat} {c : Char} {digits front text : Text} {w : UInt16} {b : UInt8}

/-! ### Digits -/

theorem digitValue_digitChar : ∀ n < 16, digitValue n.digitChar = n := by
  decide

theorem isDigitOf_digitChar (hbase : base ≤ 16) (h : n < base) :
    isDigitOf base n.digitChar = true := by
  rw [isDigitOf, digitValue_digitChar n (Nat.lt_of_lt_of_le h hbase)]
  exact decide_eq_true h

/-- The case of a letter does not matter to its value as a digit. -/
theorem digitValue_toLower (c : Char) : digitValue c.toLower = digitValue c := by
  have key : ∀ n < 26,
      digitValue (Char.ofNat (65 + n)).toLower = digitValue (Char.ofNat (65 + n)) := by
    decide
  by_cases hcapital : 65 ≤ c.toNat ∧ c.toNat ≤ 90
  · rw [← Char.ofNat_toNat c, ← Nat.add_sub_of_le hcapital.1]
    exact key _ (by omega)
  · have hsame : c.toLower = c := dif_neg hcapital
    rw [hsame]

theorem toLower_of_isDigitOf (hbase : base ≤ 16) (h : isDigitOf base c = true) :
    c.toLower = (digitValue c).digitChar := by
  have key : (printedChars.all fun c =>
      decide (digitValue c < 16 → c.toLower = (digitValue c).digitChar)) = true := by
    decide
  have hvalue : digitValue c < 16 := Nat.lt_of_lt_of_le (of_decide_eq_true h) hbase
  have hprinted : c ∈ printedChars := mem_printedChars_of_isDigitOf (decide_eq_true hvalue)
  exact of_decide_eq_true (List.all_eq_true.mp key c hprinted) hvalue

/-! ### Rows of digits -/

theorem denoted_append_singleton (base : Nat) (front : Text) (c : Char) :
    denoted base (front ++ [c]) = denoted base front * base + digitValue c :=
  List.foldl_append ..

theorem denoted_map_toLower (base : Nat) (digits : Text) :
    denoted base (digits.map Char.toLower) = denoted base digits := by
  rw [denoted, List.foldl_map]
  simp only [digitValue_toLower]
  rfl

theorem all_map_toLower (base : Nat) (digits : Text) :
    (digits.map Char.toLower).all (isDigitOf base) = digits.all (isDigitOf base) := by
  simp only [List.all_map, Function.comp_def, isDigitOf, digitValue_toLower]
  rfl

theorem denoted_zeros (base zeros : Nat) (digits : Text) :
    denoted base (List.replicate zeros '0' ++ digits) = denoted base digits := by
  induction zeros with
  | zero => rfl
  | succ zeros ih =>
    rw [List.replicate_succ, List.cons_append, ← ih, denoted, List.foldl_cons, Nat.zero_mul]
    rfl

/-- The digits of a number denote it. -/
theorem denoted_toDigits (hbase : 1 < base) (hle : base ≤ 16) (n : Nat) :
    (Nat.toDigits base n).all (isDigitOf base) = true ∧ denoted base (Nat.toDigits base n) = n := by
  induction n using Nat.strong_induction_on with
  | _ n ih =>
    by_cases hlt : n < base
    · rw [Nat.toDigits_of_lt_base hlt]
      refine ⟨by simp [isDigitOf_digitChar hle hlt], ?_⟩
      show 0 * base + digitValue n.digitChar = n
      rw [digitValue_digitChar n (Nat.lt_of_lt_of_le hlt hle), Nat.zero_mul, Nat.zero_add]
    · have hle' : base ≤ n := Nat.le_of_not_lt hlt
      have hlast : n % base < base := Nat.mod_lt n (Nat.lt_of_succ_lt hbase)
      obtain ⟨hall, hdenoted⟩ := ih (n / base) (Nat.div_lt_self (by omega) hbase)
      rw [Nat.toDigits_of_base_le hbase hle']
      refine ⟨by simp [hall, isDigitOf_digitChar hle hlast], ?_⟩
      rw [denoted_append_singleton, hdenoted,
        digitValue_digitChar _ (Nat.lt_of_lt_of_le hlast hle), Nat.mul_comm]
      exact Nat.div_add_mod n base

namespace Spells

theorem ne_nil (h : Spells base n digits) : digits ≠ [] := by
  rintro rfl
  obtain ⟨zeros, heq⟩ := h
  exact Nat.toDigits_ne_nil (List.append_eq_nil_iff.mp heq.symm).2

theorem all_isDigitOf (hbase : 1 < base) (hle : base ≤ 16) (h : Spells base n digits) :
    digits.all (isDigitOf base) = true := by
  obtain ⟨zeros, heq⟩ := h
  have hzero : isDigitOf base '0' = true := decide_eq_true (Nat.lt_of_succ_lt hbase)
  rw [← all_map_toLower, heq, List.all_append, (denoted_toDigits hbase hle n).1, Bool.and_true]
  exact List.all_eq_true.mpr fun c hc => (List.mem_replicate.mp hc).2 ▸ hzero

theorem denoted_eq (hbase : 1 < base) (hle : base ≤ 16) (h : Spells base n digits) :
    denoted base digits = n := by
  obtain ⟨zeros, heq⟩ := h
  rw [← denoted_map_toLower, heq, denoted_zeros, (denoted_toDigits hbase hle n).2]

/-- One more digit at the end. -/
theorem append_singleton (hbase : 1 < base) (hle : base ≤ 16) (h : Spells base n front)
    (hc : isDigitOf base c = true) : Spells base (n * base + digitValue c) (front ++ [c]) := by
  obtain ⟨zeros, heq⟩ := h
  have hvalue : digitValue c < base := of_decide_eq_true hc
  have hlower : (front ++ [c]).map Char.toLower =
      List.replicate zeros '0' ++ (Nat.toDigits base n ++ [(digitValue c).digitChar]) := by
    rw [List.map_append, List.map_singleton, heq, toLower_of_isDigitOf hle hc, List.append_assoc]
  rcases Nat.eq_zero_or_pos n with rfl | hpos
  · -- What was a number of its own is one more zero in front of the new digit.
    refine ⟨zeros + 1, ?_⟩
    rw [hlower, Nat.toDigits_zero, Nat.zero_mul, Nat.zero_add, Nat.toDigits_of_lt_base hvalue,
      List.replicate_succ', List.append_assoc]
  · refine ⟨zeros, ?_⟩
    rw [hlower, ← Nat.toDigits_of_lt_base hvalue,
      Nat.toDigits_append_toDigits hbase hpos hvalue, Nat.mul_comm]

end Spells

/-- Every row of digits spells the number that it denotes. -/
theorem spells_denoted (hbase : 1 < base) (hle : base ≤ 16) (hne : digits ≠ [])
    (hall : digits.all (isDigitOf base) = true) : Spells base (denoted base digits) digits := by
  induction digits using List.reverseRecOn with
  | nil => exact absurd rfl hne
  | append_singleton front c ih =>
    rw [List.all_append, Bool.and_eq_true] at hall
    have hc : isDigitOf base c = true := by simpa using hall.2
    rw [denoted_append_singleton]
    by_cases hfront : front = []
    · subst hfront
      have hvalue : digitValue c < base := of_decide_eq_true hc
      refine ⟨0, ?_⟩
      show [c.toLower] = Nat.toDigits base (0 * base + digitValue c)
      rw [Nat.zero_mul, Nat.zero_add, Nat.toDigits_of_lt_base hvalue, toLower_of_isDigitOf hle hc]
    · exact (ih hfront hall.1).append_singleton hbase hle hc

/-- A row of digits is read as the word that it spells. -/
theorem word?_eq_some_iff_spells (hbase : 1 < base) (hle : base ≤ 16) :
    word? base digits = some w ↔ Spells base w.toNat digits := by
  rw [word?_eq_some_iff]
  constructor
  · rintro ⟨hne, hall, hvalue⟩
    rw [← hvalue]
    exact spells_denoted hbase hle hne hall
  · intro h
    exact ⟨h.ne_nil, h.all_isDigitOf hbase hle, h.denoted_eq hbase hle⟩

/-! ### Numbers with the sign of their base -/

/-- The bases in which an address can be written, with their signs. -/
def originBases : List (Text × Nat) :=
  [(['$'], 16), ([], 10)]

/-- The bases in which other numbers can be written. -/
def literalBases : List (Text × Nat) :=
  (['%'], 2) :: originBases

/-- The sign of a base, and digits that spell the number in it. -/
def Writes (bases : List (Text × Nat)) (n : Nat) (text : Text) : Prop :=
  ∃ sign base digits, (sign, base) ∈ bases ∧ text = sign ++ digits ∧ Spells base n digits

theorem originAddress?_of_digits (h : digits.all (isDigitOf 10) = true) :
    originAddress? digits = word? 10 digits := by
  unfold originAddress?
  split
  · rw [List.all_cons] at h
    exact absurd h (by simp [isDigitOf, digitValue])
  · rfl

theorem originAddress?_eq_some_iff :
    originAddress? text = some w ↔ Writes originBases w.toNat text := by
  constructor
  · intro h
    unfold originAddress? at h
    split at h
    · rename_i digits
      exact ⟨['$'], 16, digits, by simp [originBases], rfl,
        (word?_eq_some_iff_spells (by decide) (by decide)).mp h⟩
    · exact ⟨[], 10, text, by simp [originBases], rfl,
        (word?_eq_some_iff_spells (by decide) (by decide)).mp h⟩
  · rintro ⟨sign, base, digits, hbase, rfl, h⟩
    simp only [originBases, List.mem_cons, List.not_mem_nil, or_false, Prod.mk.injEq] at hbase
    rcases hbase with ⟨rfl, rfl⟩ | ⟨rfl, rfl⟩
    · exact (word?_eq_some_iff_spells (by decide) (by decide)).mpr h
    · rw [List.nil_append, originAddress?_of_digits (h.all_isDigitOf (by decide) (by decide))]
      exact (word?_eq_some_iff_spells (by decide) (by decide)).mpr h

theorem value_parse?_eq_some_iff :
    (Literal.parse? text).map Literal.value = some w ↔ Writes literalBases w.toNat text := by
  constructor
  · intro h
    unfold Literal.parse? at h
    split at h
    · rename_i digits
      rw [Option.map_map] at h
      obtain ⟨value, hvalue, rfl⟩ := Option.map_eq_some_iff.mp h
      exact ⟨['$'], 16, digits, by simp [literalBases, originBases], rfl,
        (word?_eq_some_iff_spells (by decide) (by decide)).mp hvalue⟩
    · rename_i digits
      rw [Option.map_map] at h
      obtain ⟨value, hvalue, rfl⟩ := Option.map_eq_some_iff.mp h
      exact ⟨['%'], 2, digits, by simp [literalBases], rfl,
        (word?_eq_some_iff_spells (by decide) (by decide)).mp hvalue⟩
    · rw [Option.map_map] at h
      obtain ⟨value, hvalue, rfl⟩ := Option.map_eq_some_iff.mp h
      exact ⟨[], 10, text, by simp [literalBases, originBases], rfl,
        (word?_eq_some_iff_spells (by decide) (by decide)).mp hvalue⟩
  · rintro ⟨sign, base, digits, hbase, rfl, h⟩
    simp only [literalBases, originBases, List.mem_cons, List.not_mem_nil, or_false,
      Prod.mk.injEq] at hbase
    rcases hbase with ⟨rfl, rfl⟩ | ⟨rfl, rfl⟩ | ⟨rfl, rfl⟩
    · have hword := (word?_eq_some_iff_spells (by decide) (by decide)).mpr h
      rw [List.singleton_append, Literal.parse?, hword]
      rfl
    · have hword := (word?_eq_some_iff_spells (by decide) (by decide)).mpr h
      rw [List.singleton_append, Literal.parse?, hword]
      rfl
    · have hword := (word?_eq_some_iff_spells (by decide) (by decide)).mpr h
      rw [List.nil_append, Operand.parse?_of_digits (h.all_isDigitOf (by decide) (by decide)),
        hword]
      rfl

theorem Literal.byte?_eq_some_iff {literal : Literal} :
    literal.byte? = some b ↔ literal.value = b.toUInt16 := by
  constructor
  · intro h
    unfold byte? at h
    split at h
    · rename_i hle
      obtain rfl := Option.some.inj h
      refine UInt16.toNat_inj.mp ?_
      rw [UInt8.toNat_toUInt16, UInt16.toNat_toUInt8, Nat.mod_eq_of_lt]
      exact Nat.lt_of_le_of_lt (UInt16.le_iff_toNat_le.mp hle) (by decide)
    · cases h
  · intro h
    obtain ⟨value, short⟩ := literal
    obtain rfl : value = b.toUInt16 := h
    exact byte?_toUInt16 b short

/-- A literal is read as a byte exactly if it writes this byte. -/
theorem byte?_parse?_eq_some_iff :
    (Literal.parse? text).bind Literal.byte? = some b ↔ Writes literalBases b.toNat text := by
  have hvalue := @value_parse?_eq_some_iff text b.toUInt16
  rw [UInt8.toNat_toUInt16] at hvalue
  rw [← hvalue]
  constructor
  · intro h
    obtain ⟨literal, hliteral, hbyte⟩ := Option.bind_eq_some_iff.mp h
    rw [hliteral, Option.map_some, Literal.byte?_eq_some_iff.mp hbyte]
  · intro h
    obtain ⟨literal, hliteral, hbyte⟩ := Option.map_eq_some_iff.mp h
    rw [hliteral, Option.bind_some, Literal.byte?_eq_some_iff.mpr hbyte]

theorem writes_dollarByte (b : UInt8) :
    Writes literalBases b.toNat (Instruction.dollarByte b) := by
  rw [← byte?_parse?_eq_some_iff, parse?_dollarByte]
  exact byte?_toUInt16 b true

theorem writes_dollarWord (w : UInt16) :
    Writes originBases w.toNat (Instruction.dollarWord w) :=
  originAddress?_eq_some_iff.mp (word?_hexWord w)

/-! ### How numbers look -/

theorem isBlank_of_isAtomChar (h : isAtomChar c = true) : isBlank c = false := by
  simp only [isAtomChar, Bool.or_eq_true, beq_iff_eq] at h
  rcases h with (h | rfl) | rfl
  · exact isBlank_of_isWordChar h
  · decide
  · decide

namespace Writes

/-- An address can be written wherever a number can. -/
theorem of_originBases (h : Writes originBases n text) : Writes literalBases n text := by
  obtain ⟨sign, base, digits, hbase, htext, hdigits⟩ := h
  exact ⟨sign, base, digits, List.mem_cons_of_mem _ hbase, htext, hdigits⟩

theorem ne_nil {bases : List (Text × Nat)} (h : Writes bases n text) : text ≠ [] := by
  obtain ⟨sign, base, digits, -, rfl, hdigits⟩ := h
  exact List.append_ne_nil_of_right_ne_nil sign hdigits.ne_nil

/-- A number is written without blanks and commas. -/
theorem isAtomChar (h : Writes literalBases n text) : ∀ c ∈ text, isAtomChar c = true := by
  have key : ∀ x ∈ literalBases, 1 < x.2 ∧ x.2 ≤ 16 ∧ x.1.all Mos6502.isAtomChar = true := by
    decide
  obtain ⟨sign, base, digits, hbase, rfl, hdigits⟩ := h
  obtain ⟨hone, hle, hsign⟩ := key _ hbase
  intro c hc
  rcases List.mem_append.mp hc with hc | hc
  · exact List.all_eq_true.mp hsign c hc
  · have hdigit := List.all_eq_true.mp (hdigits.all_isDigitOf hone hle) c hc
    simp [Mos6502.isAtomChar, isWordChar_of_isDigitOf hle hdigit]

theorem isBlank (h : Writes literalBases n text) : ∀ c ∈ text, isBlank c = false :=
  fun c hc => isBlank_of_isAtomChar (h.isAtomChar c hc)

end Writes

/-! ### Bytes between commas -/

/-- Some entries of a list and the bytes in it.  An entry is a byte or empty. -/
inductive Lists : List Text → List UInt8 → Prop
  | nil : Lists [] []
  | empty {entries : List Text} {bytes : List UInt8} (h : Lists entries bytes) :
      Lists ([] :: entries) bytes
  | byte {b : UInt8} {entry : Text} {entries : List Text} {bytes : List UInt8}
      (hentry : Writes literalBases b.toNat entry) (h : Lists entries bytes) :
      Lists (entry :: entries) (b :: bytes)

/-- A text that lists bytes, one of them at least, between commas. -/
def ListsBytes (text : Text) (bytes : List UInt8) : Prop :=
  bytes ≠ [] ∧ ∃ entries, text = joinWith [','] entries ∧ Lists entries bytes

variable {entries : List Text} {bytes : List UInt8}

/-- All bytes can be listed. -/
theorem exists_listsBytes (hne : bytes ≠ []) : ∃ text, ListsBytes text bytes := by
  refine ⟨_, hne, bytes.map Instruction.dollarByte, rfl, ?_⟩
  clear hne
  induction bytes with
  | nil => exact .nil
  | cons b bytes ih => exact .byte (writes_dollarByte b) ih

theorem Lists.isAtomChar (h : Lists entries bytes) :
    ∀ entry ∈ entries, ∀ c ∈ entry, Mos6502.isAtomChar c = true := by
  induction h with
  | nil => exact fun _ hentry => absurd hentry (List.not_mem_nil)
  | empty h ih => exact List.forall_mem_cons.mpr ⟨fun _ hc => absurd hc (List.not_mem_nil), ih⟩
  | byte hentry h ih => exact List.forall_mem_cons.mpr ⟨hentry.isAtomChar, ih⟩

theorem ListsBytes.isBlank (h : ListsBytes text bytes) : ∀ c ∈ text, isBlank c = false := by
  obtain ⟨-, entries, rfl, hlist⟩ := h
  intro c hc
  rcases mem_joinWith hc with hc | ⟨entry, hentry, hc⟩
  · rw [List.mem_singleton.mp hc]
    decide
  · exact isBlank_of_isAtomChar (hlist.isAtomChar entry hentry c hc)

/-- The entries that are not empty are read one by one. -/
theorem lists_iff :
    Lists entries bytes ↔
      (entries.filter (· ≠ [])).mapM (fun entry => (Literal.parse? entry).bind Literal.byte?) =
        some bytes := by
  induction entries generalizing bytes with
  | nil =>
    constructor
    · rintro ⟨⟩
      rfl
    · intro h
      cases h
      exact .nil
  | cons entry entries ih =>
    by_cases hempty : entry = []
    · subst hempty
      rw [List.filter_cons_of_neg (by simp), ← ih]
      constructor
      · intro h
        cases h with
        | empty h => exact h
        | byte hentry => exact absurd rfl hentry.ne_nil
      · exact .empty
    · rw [List.filter_cons_of_pos (by simpa using hempty), List.mapM_cons]
      constructor
      · intro h
        cases h with
        | empty => exact absurd rfl hempty
        | byte hentry h =>
          rw [byte?_parse?_eq_some_iff.mpr hentry, ih.mp h]
          rfl
      · intro h
        obtain ⟨b, hb, h⟩ := Option.bind_eq_some_iff.mp h
        obtain ⟨rest, hrest, h⟩ := Option.bind_eq_some_iff.mp h
        cases h
        exact .byte (byte?_parse?_eq_some_iff.mp hb) (ih.mpr hrest)

/-- A text without blanks is read as the bytes that it lists. -/
theorem dataBytes?_eq_some_iff (hsolid : ∀ c ∈ text, isBlank c = false) :
    dataBytes? text = some bytes ↔ ListsBytes text bytes := by
  have htrim : (pieces ',' text).map trim = pieces ',' text := by
    refine (List.map_congr_left fun piece hpiece => ?_).trans (List.map_id' _)
    exact trim_of_solid fun c hc => hsolid c (joinWith_pieces ',' text ▸ subset_joinWith hpiece hc)
  have hread : dataBytes? text =
      if (pieces ',' text).filter (· ≠ []) = [] then none
      else ((pieces ',' text).filter (· ≠ [])).mapM
        fun entry => (Literal.parse? entry).bind Literal.byte? := by
    rw [dataBytes?, htrim]
  constructor
  · intro h
    refine ⟨dataBytes?_ne_nil h, pieces ',' text, (joinWith_pieces ',' text).symm, ?_⟩
    rw [hread] at h
    split at h
    · cases h
    · exact lists_iff.mpr h
  · rintro ⟨hne, entries, rfl, hlist⟩
    have hentries : entries ≠ [] := by
      rintro rfl
      cases hlist
      exact hne rfl
    have hcomma : ∀ entry ∈ entries, ',' ∉ entry := fun entry hentry hc =>
      absurd (hlist.isAtomChar entry hentry ',' hc) (by decide)
    rw [hread, pieces_joinWith hentries hcomma, if_neg]
    · exact lists_iff.mp hlist
    · intro hnone
      have hbytes := lists_iff.mp hlist
      rw [hnone] at hbytes
      cases hbytes
      exact hne rfl

end Mos6502
