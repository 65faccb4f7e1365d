/-
The parts of a line, and what may follow them.

A line is a label or none, a command word, and an operand.  The reader of a line takes it apart
in this way (`parse?_eq_parts`), and so does the one that puts in constants, but for the end of
the command, which is the next blank there (`splitHead_eq`).  What is between the two ends is
glued to the command.

Up to this blank a line can be kept and all behind it replaced.  As long as the new text starts
with a blank as well, the line is taken apart at the same places (`parts_append`): a label or a
word goes across no blank, so the text behind can neither make one nor end one.
-/
import Mathlib.Data.List.DropRight
import Mos6502.Proofs.Substitution

namespace Mos6502

variable {c : Char} {behind line : Text}

/-! ### The parts of a line -/

/-- A label, a command word and the text behind it, which is what a line is read from
(`parse?_eq_parts`). -/
structure Parts where
  label : Option Text
  command : Text
  operand : Text
deriving DecidableEq, Repr

/-- A line without its label. -/
def behindLabel (line : Text) : Text :=
  match splitLabel? line with
  | some (_, rest) => rest
  | none => line

/-- What stands in front of the command word of a line: a label and its colon, and blanks. -/
def margin (line : Text) : Text :=
  ((splitLabel? line).elim [] fun split => split.1 ++ [':']) ++ (behindLabel line).takeWhile isBlank

/-- The parts of a line. -/
def parts (line : Text) : Parts where
  label := (splitLabel? line).map Prod.fst
  command := (splitWord (trimLeft (behindLabel line))).1
  operand := (splitWord (trimLeft (behindLabel line))).2

theorem trim_trim (text : Text) : trim (trim text) = trim text := by
  conv_lhs => rw [trim, trimLeft_trim]
  rw [trim, trimRight, trimRight, List.reverse_reverse, List.dropWhile_idempotent]

theorem command_append (line : Text) :
    (parts line).command ++ (parts line).operand = trimLeft (behindLabel line) :=
  splitWord_append _

theorem margin_append (line : Text) :
    margin line ++ ((parts line).command ++ (parts line).operand) = line := by
  rw [command_append, margin, List.append_assoc, trimLeft, List.takeWhile_append_dropWhile,
    behindLabel]
  cases hlabel : splitLabel? line with
  | none => rfl
  | some split =>
    rw [Option.elim, List.append_assoc]
    exact (eq_of_splitLabel? hlabel).2.2.symm

/-- A line is read by its parts. -/
theorem parse?_eq_parts (line : Text) :
    Line.parse? line =
      (Statement.parse? ((parts (trim line)).command ++ (parts (trim line)).operand)).map
        fun s => ⟨(parts (trim line)).label, s⟩ := by
  rw [command_append, Line.parse?, parts, behindLabel]
  cases hlabel : splitLabel? (trim line) with
  | none =>
    simp only
    rw [trimLeft_trim]
    rfl
  | some split => rfl

theorem isWordChar_command (line : Text) : ∀ c ∈ (parts line).command, isWordChar c = true :=
  fun _ hc => List.mem_takeWhile_imp hc

theorem head?_operand (line : Text) : (parts line).operand.head?.any isWordChar = false :=
  head?_splitWord _

/-- Blanks in front of the operand are found in the margin only. -/
theorem head?_body (h : ((parts line).command ++ (parts line).operand).head? = some c) :
    isBlank c = false := by
  rw [command_append] at h
  exact isBlank_of_head?_trimLeft h

/-- The command and what is glued to it, where nothing is put in. -/
def kept (line : Text) : Text :=
  (parts line).command ++ glued (parts line).operand

theorem isBlank_of_mem_kept (hc : c ∈ kept line) : isBlank c = false := by
  rcases List.mem_append.mp hc with hc | hc
  · exact isBlank_of_isWordChar (isWordChar_command line c hc)
  · exact isBlank_of_mem_glued hc

theorem operand_of_kept (h : kept line = []) : (parts line).operand = [] := by
  obtain ⟨hcommand, hglued⟩ := List.append_eq_nil_iff.mp h
  cases hoperand : (parts line).operand with
  | nil => rfl
  | cons c operand =>
    have hsolid : isBlank c = false := @head?_body c line (by rw [hcommand, hoperand]; rfl)
    rw [hoperand, glued, List.takeWhile_cons_of_pos (by simp [hsolid])] at hglued
    cases hglued

/-- A line is cut where the first blank behind its command is. -/
theorem splitHead_eq (line : Text) :
    splitHead line = (margin line ++ kept line, loose (parts line).operand) := by
  have hsolid : ∀ c ∈ (parts line).command, (!isBlank c) = true :=
    all_solid_of_word (isWordChar_command line)
  have hkept : (trimLeft (behindLabel line)).takeWhile (fun c => !isBlank c) = kept line := by
    rw [← command_append]
    exact List.takeWhile_append_of_pos hsolid
  have hloose : (trimLeft (behindLabel line)).dropWhile (fun c => !isBlank c) =
      loose (parts line).operand := by
    rw [← command_append]
    exact List.dropWhile_append_of_pos hsolid
  rw [← hkept, ← hloose, margin, behindLabel, splitHead]
  cases splitLabel? line with
  | none => rfl
  | some split => rfl

theorem inLine_eq (symbols : Symbols) (line : Text) :
    symbols.inLine line =
      margin line ++ (kept line ++ symbols.inOperand (loose (parts line).operand)) := by
  rw [Symbols.inLine, splitHead_eq, List.append_assoc]

/-! ### A line with other text behind its command -/

/-- Whether a text starts with a blank, if it is not empty. -/
def StartsBlank (text : Text) : Prop :=
  ∀ c, text.head? = some c → isBlank c = true

namespace StartsBlank

variable (h : StartsBlank behind)

include h

theorem head? : behind.head?.any isWordChar = false := by
  cases behind with
  | nil => rfl
  | cons c behind => exact isWordChar_of_isBlank (h c rfl)

theorem trimRight : StartsBlank (trimRight behind) :=
  fun c hc => h c (head?_of_trimRight hc)

end StartsBlank

theorem startsBlank_loose (operand : Text) : StartsBlank (loose operand) := by
  intro c hc
  obtain ⟨rest, heq⟩ := List.head?_eq_some_iff.mp hc
  exact isBlank_of_loose heq

/-- Behind a blank there is no colon for a label. -/
theorem splitLabel?_append_eq_none_iff (h : StartsBlank behind) (text : Text) :
    splitLabel? (text ++ behind) = none ↔ splitLabel? text = none := by
  constructor
  · intro hnone
    by_contra hsome
    obtain ⟨⟨name, rest⟩, hlabel⟩ := Option.ne_none_iff_exists'.mp hsome
    obtain ⟨hname, -, rfl⟩ := eq_of_splitLabel? hlabel
    rw [List.append_assoc, List.cons_append, splitLabel?_of_isIdentifier hname] at hnone
    cases hnone
  · intro hnone
    by_contra hsome
    obtain ⟨⟨name, rest⟩, hlabel⟩ := Option.ne_none_iff_exists'.mp hsome
    obtain ⟨hname, -, heq⟩ := eq_of_splitLabel? hlabel
    have hcolon : ∀ rest, behind ≠ ':' :: rest := by
      rintro rest rfl
      exact absurd (h ':' rfl) (by decide)
    rcases List.append_eq_append_iff.mp heq with ⟨more, rfl, hbehind⟩ | ⟨more, rfl, hrest⟩
    · cases more with
      | nil => exact hcolon rest hbehind
      | cons c more =>
        have hword := isWordChar_of_mem_identifier hname (c := c) (by simp)
        rw [hbehind] at h
        rw [isWordChar_of_isBlank (h c rfl)] at hword
        cases hword
    · cases more with
      | nil => exact hcolon rest hrest.symm
      | cons c more =>
        obtain ⟨rfl, -⟩ := List.cons.inj hrest
        rw [splitLabel?_of_isIdentifier hname] at hnone
        cases hnone

theorem splitWord_kept (h : StartsBlank behind) :
    splitWord (kept line ++ behind) =
      ((parts line).command, glued (parts line).operand ++ behind) := by
  rw [kept, List.append_assoc]
  refine splitWord_append_of_stops (isWordChar_command line) ?_
  have hoperand := head?_operand line
  rw [← glued_append_loose (parts line).operand] at hoperand
  cases hglued : glued (parts line).operand with
  | nil => exact h.head?
  | cons c rest =>
    rw [hglued] at hoperand
    exact hoperand

theorem trimLeft_kept (hkept : kept line ≠ []) (behind : Text) :
    trimLeft (kept line ++ behind) = kept line ++ behind := by
  obtain ⟨c, rest, heq⟩ := List.exists_cons_of_ne_nil hkept
  have hsolid : isBlank c = false := isBlank_of_mem_kept (heq ▸ List.mem_cons_self ..)
  rw [heq]
  exact trimLeft_cons_of_not_blank hsolid _

theorem splitLabel?_kept (h : StartsBlank behind) :
    splitLabel? (margin line ++ (kept line ++ behind)) =
      (splitLabel? line).map fun split =>
        (split.1, split.2.takeWhile isBlank ++ (kept line ++ behind)) := by
  cases hlabel : splitLabel? line with
  | none =>
    have hnone : splitLabel? (margin line ++ kept line) = none := by
      rw [← splitLabel?_append_eq_none_iff (startsBlank_loose (parts line).operand), kept,
        List.append_assoc, List.append_assoc, glued_append_loose, margin_append]
      exact hlabel
    rwa [← splitLabel?_append_eq_none_iff h, List.append_assoc] at hnone
  | some split =>
    rw [margin, behindLabel, hlabel, Option.elim, List.append_assoc, List.append_assoc,
      List.singleton_append, splitLabel?_of_isIdentifier (eq_of_splitLabel? hlabel).1]
    rfl

theorem behindLabel_kept (h : StartsBlank behind) :
    behindLabel (margin line ++ (kept line ++ behind)) =
      (behindLabel line).takeWhile isBlank ++ (kept line ++ behind) := by
  rw [behindLabel, splitLabel?_kept h]
  cases hlabel : splitLabel? line with
  | none => rw [margin, behindLabel, hlabel]; rfl
  | some split => rw [behindLabel, hlabel]; rfl

/-- Whatever follows behind a blank, label and command stay the same. -/
theorem parts_append (hkept : kept line ≠ []) (h : StartsBlank behind) :
    parts (margin line ++ (kept line ++ behind)) =
      ⟨(parts line).label, (parts line).command, glued (parts line).operand ++ behind⟩ := by
  have hblank : ∀ c ∈ (behindLabel line).takeWhile isBlank, isBlank c = true :=
    fun _ hc => List.mem_takeWhile_imp hc
  conv_lhs => rw [parts, behindLabel_kept h, trimLeft_append_of_blank hblank, trimLeft_kept hkept,
    splitWord_kept h, splitLabel?_kept h, Option.map_map]
  rfl

/-- Trimming stops at what is not blank. -/
theorem trim_kept (hkept : kept line ≠ []) (hline : trim line = line) (behind : Text) :
    trim (margin line ++ (kept line ++ behind)) =
      margin line ++ (kept line ++ trimRight behind) := by
  have hfirst : ∀ c, (margin line ++ kept line).head? = some c → isBlank c = false := by
    intro c hc
    refine @isBlank_of_head?_trim line c ?_
    rw [hline, ← margin_append line, ← glued_append_loose (parts line).operand,
      ← List.append_assoc (parts line).command, ← List.append_assoc, List.head?_append, ← kept, hc]
    rfl
  have hne : margin line ++ kept line ≠ [] := List.append_ne_nil_of_right_ne_nil _ hkept
  obtain ⟨first, rest, heq⟩ := List.exists_cons_of_ne_nil hne
  have hleft : trimLeft (margin line ++ kept line ++ behind) =
      margin line ++ kept line ++ behind := by
    rw [heq]
    exact trimLeft_cons_of_not_blank (hfirst first (by rw [heq]; rfl)) _
  have hlast : (margin line ++ kept line).getLast? = some ((kept line).getLast hkept) := by
    rw [List.getLast?_append_of_ne_nil _ hkept, List.getLast?_eq_some_getLast hkept]
  have hsolid := isBlank_of_mem_kept (List.getLast_mem hkept)
  rw [← List.append_assoc, trim, hleft, trimRight_append hlast hsolid, List.append_assoc]

theorem trimRight_glued (operand behind : Text) :
    trimRight (glued operand ++ behind) = glued operand ++ trimRight behind := by
  by_cases hglued : glued operand = []
  · rw [hglued]
    rfl
  · exact trimRight_append (List.getLast?_eq_some_getLast hglued)
      (isBlank_of_mem_glued (List.getLast_mem hglued)) behind

end Mos6502
