/-
Where a word ends.

A word is as long as it can be, so a text that goes on with any other character leaves the word
in front of it whole (`EndsWord`).  If it does not go on with a colon either, the word is no
label.  So it is the first word of a statement: the command, unless the line makes no sense.

Commands are words of three letters, in any mixture of cases.
-/
import Mathlib.Data.List.Basic
import Mathlib.Data.List.TakeWhile
import Mos6502.Source.Statement

namespace Mos6502

variable {c : Char} {text tail word : Text}

/-! ### Characters of words, and others -/

theorem isWordChar_of_toLower (h : isWordChar c.toLower = true) : isWordChar c = true := by
  by_cases hupper : c.isUpper = true
  · show (((c.isUpper || c.isLower) || c.isDigit) || c == '_') = true
    rw [hupper]
    rfl
  · have hsame : c.toLower = c := dif_neg fun hcapital => hupper (decide_eq_true hcapital)
    rwa [hsame] at h

/-- A text that is spelled like a word in any mixture of cases is a word. -/
theorem isWordChar_of_sameLetters (h : sameLetters text word = true)
    (hword : word.all (fun c => isWordChar c.toLower) = true) :
    ∀ c ∈ text, isWordChar c = true := by
  intro c hc
  have hmem : c.toLower ∈ word.map Char.toLower := by
    rw [← beq_iff_eq.mp h]
    exact List.mem_map_of_mem hc
  obtain ⟨d, hd, heq⟩ := List.mem_map.mp hmem
  exact isWordChar_of_toLower (heq ▸ List.all_eq_true.mp hword d hd)

/-- No blank is part of a word, which is checked one by one. -/
theorem isWordChar_of_isBlank (h : isBlank c = true) : isWordChar c = false := by
  have key : (blankRanges.all fun range =>
      (List.range' range.1 (range.2 + 1 - range.1)).all fun n => !isWordChar (Char.ofNat n)) =
        true := by
    decide
  obtain ⟨range, hrange, hc⟩ := List.any_eq_true.mp h
  simp only [Bool.and_eq_true, decide_eq_true_eq] at hc
  have hmem : c.toNat ∈ List.range' range.1 (range.2 + 1 - range.1) := by
    rw [List.mem_range'_1]
    omega
  have hword := List.all_eq_true.mp (List.all_eq_true.mp key range hrange) c.toNat hmem
  rw [Char.ofNat_toNat] at hword
  simpa using hword

theorem isBlank_of_isWordChar (h : isWordChar c = true) : isBlank c = false := by
  cases hblank : isBlank c with
  | false => rfl
  | true =>
    rw [isWordChar_of_isBlank hblank] at h
    cases h

theorem all_solid_of_word (hword : ∀ c ∈ word, isWordChar c = true) :
    ∀ c ∈ word, (!isBlank c) = true := by
  intro c hc
  rw [isBlank_of_isWordChar (hword c hc)]
  rfl

/-- An identifier in front of a colon is a label. -/
theorem splitLabel?_of_isIdentifier (h : isIdentifier word = true) (tail : Text) :
    splitLabel? (word ++ ':' :: tail) = some (word, tail) := by
  have hcolon : ∀ c ∈ word, (c != ':') = true := by
    intro c hc
    have hword := isWordChar_of_mem_identifier h hc
    simpa using fun heq : c = ':' => by simp [heq, isWordChar] at hword
  rw [splitLabel?, List.dropWhile_append_of_pos hcolon, List.takeWhile_append_of_pos hcolon]
  simp [h]

/-! ### What does not go on with a word -/

theorem splitWord_append_of_stops (hword : ∀ c ∈ word, isWordChar c = true)
    (htail : tail.head?.any isWordChar = false) : splitWord (word ++ tail) = (word, tail) := by
  rw [splitWord, List.takeWhile_append_of_pos hword, List.dropWhile_append_of_pos hword]
  cases tail with
  | nil => simp
  | cons c tail =>
    have hc : isWordChar c = false := htail
    simp [hc]

/-- Whether a text does not go on with a word, nor makes a label of it. -/
def EndsWord (tail : Text) : Prop :=
  ∀ c, tail.head? = some c → isWordChar c = false ∧ c ≠ ':'

theorem EndsWord.trimRight (h : EndsWord tail) : EndsWord (trimRight tail) :=
  fun c hc => h c (head?_of_trimRight hc)

namespace EndsWord

variable (h : EndsWord tail) (hword : ∀ c ∈ word, isWordChar c = true)

include h hword

theorem splitWord_append : splitWord (word ++ tail) = (word, tail) := by
  refine splitWord_append_of_stops hword ?_
  cases tail with
  | nil => rfl
  | cons c tail => exact (h c rfl).1

/-- Before the first colon, if there is one, is more than a word. -/
theorem splitLabel?_append : splitLabel? (word ++ tail) = none := by
  cases hlabel : splitLabel? (word ++ tail) with
  | none => rfl
  | some split =>
    obtain ⟨name, rest⟩ := split
    obtain ⟨hname, -, heq⟩ := eq_of_splitLabel? hlabel
    have hfirst : (word ++ tail).takeWhile isWordChar = word :=
      congrArg Prod.fst (h.splitWord_append hword)
    have hsame := congrArg (List.takeWhile isWordChar) heq
    rw [hfirst,
      List.takeWhile_append_of_pos fun c hc => isWordChar_of_mem_identifier hname hc,
      List.takeWhile_cons_of_neg (by decide), List.append_nil] at hsame
    subst hsame
    obtain rfl := List.append_cancel_left heq
    exact absurd rfl (h ':' rfl).2

/-- A statement that starts with a word is no origin, and the word is its command. -/
theorem parse?_append (hne : word ≠ []) :
    Statement.parse? (word ++ tail) =
      if sameLetters word ['d', 'c', 'b'] then (dataBytes? (squeeze tail)).map Statement.data
      else (Mnemonic.ofText? word).map fun m => .instruction m (squeeze tail) := by
  have horigin : originText? (word ++ tail) = none := by
    obtain ⟨c, rest, rfl⟩ := List.exists_cons_of_ne_nil hne
    have hsign : c ≠ '*' := by
      rintro rfl
      exact absurd (hword _ (List.mem_cons_self ..)) (by decide)
    rw [List.cons_append]
    unfold originText?
    split
    · rename_i hcons
      exact absurd (List.cons.inj hcons).1 hsign
    · rfl
  rw [Statement.parse?, if_neg (List.append_ne_nil_of_left_ne_nil hne tail), horigin,
    h.splitWord_append hword]

end EndsWord

/-! ### Commands -/

/-- The name of an instruction, or the one for data. -/
def IsCommand (word : Text) : Prop :=
  sameLetters word ['d', 'c', 'b'] = true ∨ (Mnemonic.ofText? word).isSome = true

namespace IsCommand

/-- A command is spelled like a word of three letters. -/
theorem exists_letters (h : IsCommand word) :
    ∃ letters, sameLetters word letters = true ∧ letters.length = 3 ∧
      letters.all (fun c => isWordChar c.toLower) = true := by
  rcases h with h | h
  · exact ⟨['d', 'c', 'b'], h, rfl, by decide⟩
  · have key : ∀ m ∈ Mnemonic.all, m.name.all (fun c => isWordChar c.toLower) = true := by decide
    obtain ⟨m, hm⟩ := Option.isSome_iff_exists.mp h
    have hsame : sameLetters m.name word = true := by
      simpa using List.find?_some hm
    refine ⟨m.name, ?_, m.length_name, key m m.mem_all⟩
    rw [sameLetters, beq_iff_eq] at hsame ⊢
    exact hsame.symm

theorem isWordChar (h : IsCommand word) : ∀ c ∈ word, isWordChar c = true := by
  obtain ⟨letters, hsame, -, hletters⟩ := h.exists_letters
  exact isWordChar_of_sameLetters hsame hletters

theorem length_eq (h : IsCommand word) : word.length = 3 := by
  obtain ⟨letters, hsame, hlength, -⟩ := h.exists_letters
  have heq := congrArg List.length (beq_iff_eq.mp hsame)
  rw [List.length_map, List.length_map, hlength] at heq
  exact heq

theorem ne_nil (h : IsCommand word) : word ≠ [] := by
  rintro rfl
  exact absurd h.length_eq (by decide)

end IsCommand

end Mos6502
