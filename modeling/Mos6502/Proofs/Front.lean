/-
What a line holds in front of its operand.

A label, if there is one, and a command are followed by text that does not go on with the
command's word.  Three functions look for the end of this front: the one that collects
definitions finds that there is none, the one that puts in constants goes on to the next blank,
and the one that reads the line stops where the word does.  Each is a short computation once
the front is known, and the text behind enters it only through its first character.
-/
import Mos6502.Proofs.LineParts

namespace Mos6502

variable {c : Char} {tail word : Text}

/-! ### Fronts -/

/-- What a line holds in front of its operand: blanks, a label with its colon and blanks behind
it or neither, and a command. -/
structure Front where
  margin : Text
  label : Option Text
  gap : Text
  command : Text
  isBlank_margin : ∀ c ∈ margin, isBlank c = true ∧ c ≠ '\n'
  isBlank_gap : ∀ c ∈ gap, isBlank c = true ∧ c ≠ '\n'
  isIdentifier_label : ∀ name, label = some name → isIdentifier name = true
  isCommand : IsCommand command

namespace Front

/-- The front as it is written. -/
def text (front : Front) : Text :=
  front.margin ++ (front.label.elim [] (· ++ [':']) ++ (front.gap ++ front.command))

/-- What is between the label and the command, if there is a label. -/
def inner (front : Front) : Text :=
  front.label.elim [] fun _ => front.gap

/-- The front without the blanks that it starts with. -/
def head (front : Front) : Text :=
  front.label.elim [] (· ++ [':']) ++ (front.inner ++ front.command)

variable {front : Front}

theorem isBlank_inner : ∀ c ∈ front.inner, isBlank c = true := by
  intro c hc
  unfold inner at hc
  cases hlabel : front.label with
  | none =>
    rw [hlabel] at hc
    exact absurd hc (List.not_mem_nil)
  | some name =>
    rw [hlabel] at hc
    exact (front.isBlank_gap c hc).1

theorem mem_text (h : c ∈ front.text) :
    (isBlank c = true ∧ c ≠ '\n') ∨ isWordChar c = true ∨ c = ':' := by
  simp only [text, List.mem_append] at h
  rcases h with h | h | h | h
  · exact .inl (front.isBlank_margin c h)
  · cases hlabel : front.label with
    | none =>
      rw [hlabel] at h
      exact absurd h (List.not_mem_nil)
    | some name =>
      rw [hlabel, Option.elim, List.mem_append, List.mem_singleton] at h
      refine .inr (h.imp_left fun h => ?_)
      exact isWordChar_of_mem_identifier (front.isIdentifier_label name hlabel) h
  · exact .inl (front.isBlank_gap c h)
  · exact .inr (.inl (front.isCommand.isWordChar c h))

/-- Neither a comment nor another line starts in a front. -/
theorem notMem_text (front : Front) : ';' ∉ front.text ∧ '\n' ∉ front.text := by
  have key : isBlank ';' = false ∧ isWordChar ';' = false ∧ isWordChar '\n' = false := by decide
  constructor <;> intro h <;> simpa [key] using mem_text h

theorem exists_head (front : Front) : ∃ c rest, front.head = c :: rest ∧ isWordChar c = true := by
  cases hlabel : front.label with
  | none =>
    obtain ⟨c, rest, heq⟩ := List.exists_cons_of_ne_nil front.isCommand.ne_nil
    refine ⟨c, rest, ?_, front.isCommand.isWordChar c (heq ▸ List.mem_cons_self ..)⟩
    rw [head, inner, hlabel, heq]
    rfl
  | some name =>
    have hname := front.isIdentifier_label name hlabel
    obtain ⟨c, rest, rfl⟩ := List.exists_cons_of_ne_nil (ne_nil_of_isIdentifier hname)
    refine ⟨c, rest ++ [':'] ++ (front.inner ++ front.command), ?_,
      isWordChar_of_mem_identifier hname (List.mem_cons_self ..)⟩
    rw [head, hlabel]
    rfl

theorem exists_last (front : Front) :
    ∃ c, front.head.getLast? = some c ∧ isWordChar c = true := by
  have hne : front.command ≠ [] := front.isCommand.ne_nil
  refine ⟨front.command.getLast hne, ?_,
    front.isCommand.isWordChar _ (List.getLast_mem hne)⟩
  rw [head, ← List.append_assoc, List.getLast?_append_of_ne_nil _ hne,
    List.getLast?_eq_some_getLast hne]

/-! ### Comments and blanks -/

theorem trim_head (front : Front) (tail : Text) :
    trim (front.head ++ tail) = front.head ++ trimRight tail := by
  obtain ⟨c, rest, heq, hc⟩ := front.exists_head
  obtain ⟨last, hlast, hword⟩ := front.exists_last
  rw [← trimRight_append hlast (isBlank_of_isWordChar hword), heq, trim, List.cons_append,
    trimLeft_cons_of_not_blank (isBlank_of_isWordChar hc)]

theorem trim_text (front : Front) (tail : Text) :
    trim (front.text ++ tail) = trim (front.head ++ tail) := by
  have hmargin : ∀ c ∈ front.margin, isBlank c = true := fun c hc => (front.isBlank_margin c hc).1
  have hgap : ∀ c ∈ front.gap, isBlank c = true := fun c hc => (front.isBlank_gap c hc).1
  rw [trim, trim, text, head, inner, List.append_assoc, trimLeft_append_of_blank hmargin]
  cases front.label with
  | some name => rfl
  | none =>
    simp only [Option.elim, List.nil_append, List.append_assoc]
    rw [trimLeft_append_of_blank hgap]

/-- A comment starts behind the front, and only blanks in front are taken off it. -/
theorem code_text (front : Front) (tail : Text) :
    code (front.text ++ tail) = front.head ++ trimRight (tail.takeWhile (· != ';')) := by
  have hcomment : ∀ c ∈ front.text, (c != ';') = true := by
    intro c hc
    simpa using fun heq : c = ';' => front.notMem_text.1 (heq ▸ hc)
  rw [code, List.takeWhile_append_of_pos hcomment, trim_text, trim_head]

/-! ### Where the front ends -/

theorem splitLabel?_head (front : Front) (h : EndsWord tail) :
    splitLabel? (front.head ++ tail) =
      front.label.map fun name => (name, front.inner ++ (front.command ++ tail)) := by
  rw [head]
  cases hlabel : front.label with
  | none =>
    rw [inner, hlabel]
    exact h.splitLabel?_append front.isCommand.isWordChar
  | some name =>
    have hname := front.isIdentifier_label name hlabel
    simp only [Option.elim, List.append_assoc, List.cons_append]
    rw [splitLabel?_of_isIdentifier hname]
    rfl

theorem trimLeft_inner (front : Front) (tail : Text) :
    trimLeft (front.inner ++ (front.command ++ tail)) = front.command ++ tail := by
  obtain ⟨c, rest, heq⟩ := List.exists_cons_of_ne_nil front.isCommand.ne_nil
  have hc : isWordChar c = true := front.isCommand.isWordChar c (heq ▸ List.mem_cons_self ..)
  rw [trimLeft_append_of_blank front.isBlank_inner, heq, List.cons_append,
    trimLeft_cons_of_not_blank (isBlank_of_isWordChar hc)]

/-- The front is a label and a command. -/
theorem parts_head (front : Front) (h : EndsWord tail) :
    parts (front.head ++ tail) = ⟨front.label, front.command, tail⟩ := by
  have hlabel := splitLabel?_head front h
  have hbehind : behindLabel (front.head ++ tail) = front.inner ++ (front.command ++ tail) := by
    rw [behindLabel, hlabel]
    cases hnone : front.label with
    | some name => rfl
    | none =>
      simp only [Option.map_none]
      rw [head, hnone, Option.elim, List.nil_append, List.append_assoc]
  rw [parts, hbehind, hlabel, trimLeft_inner, h.splitWord_append front.isCommand.isWordChar,
    Option.map_map]
  exact congrArg (Parts.mk · _ _) Option.map_id'

/-- What a line with this front is read as. -/
theorem parse?_head (front : Front) (h : EndsWord tail) :
    Line.parse? (front.head ++ tail) =
      (if sameLetters front.command ['d', 'c', 'b'] then
        (dataBytes? (squeeze tail)).map Statement.data
      else (Mnemonic.ofText? front.command).map fun m => .instruction m (squeeze tail)).map
        fun s => ⟨front.label, s⟩ := by
  rw [← squeeze_trimRight,
    ← h.trimRight.parse?_append front.isCommand.isWordChar front.isCommand.ne_nil,
    parse?_eq_parts, trim_head, parts_head front h.trimRight]

/-- Constants are put in from the first blank on. -/
theorem splitHead_head (front : Front) (h : EndsWord tail) :
    splitHead (front.head ++ tail) = (front.head ++ glued tail, loose tail) := by
  have hmargin := margin_append (front.head ++ tail)
  rw [parts_head front h, ← List.append_assoc] at hmargin
  rw [splitHead_eq, kept, parts_head front h, ← List.append_assoc,
    List.append_cancel_right hmargin]

theorem inLine_head (front : Front) (h : EndsWord tail) (symbols : Symbols) :
    symbols.inLine (front.head ++ tail) =
      front.head ++ (glued tail ++ symbols.inOperand (loose tail)) := by
  rw [Symbols.inLine, splitHead_head front h, List.append_assoc]

theorem glued_of_label (front : Front) {name : Text} (hlabel : front.label = some name)
    (tail : Text) : ∃ rest, glued (front.head ++ tail) = name ++ ':' :: rest := by
  have hsolid : ∀ c ∈ name, (!isBlank c) = true :=
    all_solid_of_word fun c hc =>
      isWordChar_of_mem_identifier (front.isIdentifier_label name hlabel) hc
  refine ⟨glued (front.inner ++ (front.command ++ tail)), ?_⟩
  rw [head, hlabel, Option.elim, List.append_assoc, List.append_assoc, List.singleton_append,
    List.append_assoc, glued, List.takeWhile_append_of_pos hsolid,
    List.takeWhile_cons_of_pos (by decide), ← glued]

theorem glued_of_bare (front : Front) (hlabel : front.label = none) (tail : Text) :
    glued (front.head ++ tail) = front.command ++ glued tail := by
  rw [head, inner, hlabel, Option.elim, Option.elim, List.nil_append, List.nil_append, glued,
    List.takeWhile_append_of_pos (all_solid_of_word front.isCommand.isWordChar), ← glued]

/-- With a colon, or anything else that a word does not hold, a line does not start with the
keyword of a definition, and a command alone is too short for it. -/
theorem definition?_head (front : Front) (h : EndsWord tail) :
    definition? (front.head ++ tail) = none := by
  have hkeyword : sameLetters (glued (front.head ++ tail)) ['d', 'e', 'f', 'i', 'n', 'e'] =
      false := by
    rw [Bool.eq_false_iff]
    intro hsame
    have hword := isWordChar_of_sameLetters hsame (by decide)
    have hlength := congrArg List.length (beq_iff_eq.mp hsame)
    rw [List.length_map, List.length_map] at hlength
    cases hlabel : front.label with
    | some name =>
      obtain ⟨rest, hglued⟩ := front.glued_of_label hlabel tail
      exact absurd (hword ':' (by simp [hglued])) (by decide)
    | none =>
      rw [front.glued_of_bare hlabel tail] at hword hlength
      cases hglued : glued tail with
      | nil =>
        rw [hglued, List.append_nil, front.isCommand.length_eq] at hlength
        exact absurd hlength (by decide)
      | cons c rest =>
        have hhead : tail.head? = some c := by
          rw [← glued_append_loose tail, hglued]
          rfl
        have hc := hword c (by simp [hglued])
        rw [(h c hhead).1] at hc
        cases hc
  rw [glued] at hkeyword
  unfold definition?
  simp [hkeyword]

end Front

end Mos6502
