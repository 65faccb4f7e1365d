/-
Where constants are put in, and where not.

A definition holds for the whole source.  The table is complete before the first constant is put
in, so it is the same wherever the definitions stand, and only their order among themselves
matters: the first of a name wins.

Constants stand for any text, also for text with a colon or a blank in it, and a line is taken
apart once more when it is read.  Still its label and its command are those of the line before
(`parts_trim_inLine`).  Text that was put in comes behind a blank, and a label or a word goes
across none.

In the operand the words are replaced that name a constant and are neither numbers nor index
registers.  This is said of the operand as it is read, which starts where the command word ends;
the one that constants are put into starts at the first blank only.  In between nothing is
replaced.  The difference matters to an index register behind the blank with its comma in front
of the blank: it is replaced like any word (`register_replaced`).
-/
import Mos6502.Proofs.LineParts
import Mos6502.Proofs.Rewriting
import Mos6502.Proofs.Spacing

namespace Mos6502

variable {line source source' : Text}

/-! ### The table of constants -/

/-- The definitions of a source text, in the order of their lines. -/
def definitions (source : Text) : List (Text × Text) :=
  ((splitLines source).map code).filterMap definition?

/-- The other lines, less their comments. -/
def statements (source : Text) : List Text :=
  ((splitLines source).map code).filter fun line => (definition? line).isNone

/-- What becomes of the other lines. -/
def preparedStatements (source : Text) : List Text :=
  (((splitLines source).map code).zip (Prepared.ofText source).lines).filterMap fun line =>
    if (definition? line.1).isNone then some line.2 else none

theorem symbols_ofText (source : Text) :
    (Prepared.ofText source).symbols =
      (definitions source).foldl (fun symbols d => symbols.define d.1 d.2) {} := rfl

theorem lookup?_foldl_define (ds : List (Text × Text)) (symbols : Symbols) (name : Text) :
    (ds.foldl (fun symbols d => symbols.define d.1 d.2) symbols).lookup? name =
      (symbols.lookup? name).or (ds.lookup name) := by
  induction ds generalizing symbols with
  | nil => exact (Option.or_none).symm
  | cons d ds ih =>
    rw [List.foldl_cons, ih, Symbols.lookup?_define, Option.or_assoc, List.lookup_cons]
    by_cases h : name = d.1
    · simp [h]
    · have hbeq : (name == d.1) = false := by simpa using h
      simp [h, hbeq]

/-- A name stands for the value of its first definition. -/
theorem lookup?_ofText (source name : Text) :
    (Prepared.ofText source).symbols.lookup? name = (definitions source).lookup name :=
  lookup?_foldl_define (definitions source) {} name

theorem preparedStatements_eq (source : Text) :
    preparedStatements source =
      (statements source).map (Prepared.ofText source).symbols.inLine := by
  have key : ∀ (codes : List Text) (symbols : Symbols),
      (codes.zip (codes.map fun line =>
          if (definition? line).isSome then [] else symbols.inLine line)).filterMap
        (fun line => if (definition? line.1).isNone then some line.2 else none) =
      (codes.filter fun line => (definition? line).isNone).map symbols.inLine := by
    intro codes symbols
    induction codes with
    | nil => rfl
    | cons line codes ih =>
      rw [List.map_cons, List.zip_cons_cons, List.filterMap_cons, ih]
      cases hline : definition? line with
      | none => simp [hline]
      | some d => simp [hline]
  exact key _ _

/-- Where the definitions stand makes no difference. -/
theorem prepared_congr (hdefinitions : definitions source = definitions source')
    (hstatements : statements source = statements source') :
    (Prepared.ofText source).symbols = (Prepared.ofText source').symbols ∧
      preparedStatements source = preparedStatements source' := by
  have hsymbols : (Prepared.ofText source).symbols = (Prepared.ofText source').symbols := by
    rw [symbols_ofText, symbols_ofText, hdefinitions]
  rw [preparedStatements_eq, preparedStatements_eq, hsymbols, hstatements]
  exact ⟨rfl, rfl⟩

theorem getElem?_lines (source : Text) (n : Nat) :
    (Prepared.ofText source).lines[n]? =
      (splitLines source)[n]?.map (Prepared.ofText source).symbols.prepare := by
  simp only [Prepared.ofText, List.map_map, List.getElem?_map]
  rfl

/-! ### What is put in changes neither label nor command -/

theorem startsBlank_inOperand (symbols : Symbols) (operand : Text) :
    StartsBlank (symbols.inOperand (loose operand)) := by
  by_cases haccumulator : sameLetters (trim (loose operand)) ['a'] = true
  · rw [Symbols.inOperand, if_pos haccumulator]
    exact startsBlank_loose operand
  · rw [Symbols.inOperand_eq (by simpa using haccumulator)]
    cases hloose : loose operand with
    | nil =>
      intro c hc
      cases hc
    | cons b rest =>
      have hblank := isBlank_of_loose hloose
      have hword := isWordChar_of_isBlank hblank
      rw [tokens_cons_of_not_word hword, Symbols.replaced_cons_of_not_word hword]
      intro c hc
      obtain rfl := Option.some.inj hc
      exact hblank

/-- A line with its constants put in is read with the label and the command it had. -/
theorem parts_trim_inLine (symbols : Symbols) (hline : trim line = line) :
    parts (trim (symbols.inLine line)) =
      ⟨(parts line).label, (parts line).command, trimRight (glued (parts line).operand ++
        symbols.inOperand (loose (parts line).operand))⟩ := by
  by_cases hkept : kept line = []
  · have hoperand := operand_of_kept hkept
    have hcommand := (List.append_eq_nil_iff.mp hkept).1
    have hself : symbols.inLine line = line := by
      rw [inLine_eq, hkept, hoperand]
      conv_rhs => rw [← margin_append line, hcommand, hoperand]
      rfl
    rw [hself, hline, hoperand]
    conv_lhs => rw [show parts line =
      ⟨(parts line).label, (parts line).command, (parts line).operand⟩ from rfl, hoperand]
    rfl
  · rw [inLine_eq, trim_kept hkept hline,
      parts_append hkept (startsBlank_inOperand symbols _).trimRight, trimRight_glued]

/-! ### What is put in, and where -/

/-- What becomes of a line, with `operand` behind its command. -/
structure PutIn (symbols : Symbols) (line out operand : Text) : Prop where
  /-- Up to the operand the text stays as it is. -/
  text : out = margin line ++ ((parts line).command ++ operand)
  /-- Taken apart once more, the line has the label and the command it had. -/
  reread : parts (trim out) = ⟨(parts line).label, (parts line).command, trimRight operand⟩
  /-- An accumulator is never replaced. -/
  accumulator : sameLetters (trim (loose (parts line).operand)) ['a'] = true →
    operand = (parts line).operand
  /-- Otherwise every word behind the first blank is replaced that may be. -/
  every : sameLetters (trim (loose (parts line).operand)) ['a'] = false →
    ∃ behind, operand = glued (parts line).operand ++ behind ∧
      Rewritten symbols True [] (loose (parts line).operand) behind
  /-- Nothing else is replaced, and nothing else in the operand changes. -/
  only : ¬symbols.Misleading (parts line).operand →
    Rewritten symbols False [] (parts line).operand operand

theorem putIn_inLine (symbols : Symbols) (hline : trim line = line) :
    PutIn symbols line (symbols.inLine line)
      (glued (parts line).operand ++ symbols.inOperand (loose (parts line).operand)) where
  text := by rw [inLine_eq, kept, List.append_assoc]
  reread := parts_trim_inLine symbols hline
  accumulator := by
    intro haccumulator
    rw [Symbols.inOperand, if_pos haccumulator, glued_append_loose]
  every := fun haccumulator => ⟨_, rfl, Symbols.rewritten_loose haccumulator⟩
  only := Symbols.rewritten_operand

/--
**Constants hold for the whole source, and are put into operands only.**  A name stands for the
value of its first definition, above it and below, so definitions can be moved as long as their
order stays.  Every line of the source has its line in the outcome, which is empty for a
definition.  And whatever the constants are, and whatever text they stand for, a line keeps its
label and its command, and in its operand nothing is replaced but words that a constant may be
put in for.  The latter is not said of an index register whose comma is glued to the command,
with a blank in between.
-/
theorem constants_put_in (source : Text) :
    (∀ name, (Prepared.ofText source).symbols.lookup? name =
        (definitions source).lookup name) ∧
      (∀ moved, definitions moved = definitions source → statements moved = statements source →
        (Prepared.ofText moved).symbols = (Prepared.ofText source).symbols ∧
          preparedStatements moved = preparedStatements source) ∧
      (Prepared.ofText source).lines.length = (splitLines source).length ∧
      (∀ (n : Nat) (line : Text), (splitLines source)[n]? = some line →
        (Prepared.ofText source).lines[n]? =
          some (if (definition? (code line)).isSome then []
            else (Prepared.ofText source).symbols.inLine (code line))) ∧
      ∀ (symbols : Symbols) (line : Text),
        ∃ operand, PutIn symbols (code line) (symbols.inLine (code line)) operand := by
  refine ⟨lookup?_ofText source, ?_, Prepared.length_lines source, ?_, ?_⟩
  · intro moved hdefinitions hstatements
    exact prepared_congr hdefinitions hstatements
  · intro n line hline
    rw [getElem?_lines, hline]
    rfl
  · intro symbols line
    exact ⟨_, putIn_inLine symbols (trim_trim _)⟩

/-- A definition below its use stands for text with a colon, a comma and a blank. -/
theorem constants_put_in_above :
    (definitions "define v m: 1,\ngo: LDA v".toList =
        definitions "go: LDA v\ndefine v m: 1,".toList ∧
      statements "define v m: 1,\ngo: LDA v".toList =
        statements "go: LDA v\ndefine v m: 1,".toList) ∧
      preparedStatements "define v m: 1,\ngo: LDA v".toList =
        preparedStatements "go: LDA v\ndefine v m: 1,".toList := by
  have hmoved : definitions "define v m: 1,\ngo: LDA v".toList =
        definitions "go: LDA v\ndefine v m: 1,".toList ∧
      statements "define v m: 1,\ngo: LDA v".toList =
        statements "go: LDA v\ndefine v m: 1,".toList := by
    decide +kernel
  refine ⟨hmoved, ?_⟩
  exact ((constants_put_in _).2.1 _ hmoved.1 hmoved.2).2

/-- The comma is glued to the command, and the index register behind the blank gives way to a
constant of its name. -/
theorem register_replaced :
    (Prepared.ofText "define x 5\nLDA$10, x".toList).lines = [[], "LDA$10, 5".toList] ∧
      parts "LDA$10, x".toList = ⟨none, "LDA".toList, "$10, x".toList⟩ ∧
      ¬Rewritten (Prepared.ofText "define x 5\nLDA$10, x".toList).symbols False []
        "$10, x".toList "$10, 5".toList := by
  refine ⟨by decide +kernel, by decide +kernel, ?_⟩
  intro h
  refine absurd (h.eq_self ?_) (by decide)
  intro front word rest value heq hword heligible
  have hdefinitions : definitions "define x 5\nLDA$10, x".toList = [(['x'], ['5'])] := by
    decide +kernel
  have hdefined := heligible.defined
  rw [lookup?_ofText, hdefinitions] at hdefined
  obtain rfl : word = ['x'] := by
    by_contra hne
    have hbeq : (word == ['x']) = false := by simpa using hne
    simp [List.lookup_cons, hbeq] at hdefined
  -- There is one `x` in the operand, so it is the one behind the comma.
  obtain ⟨rfl, -⟩ : front = "$10, ".toList ∧ rest = [] := by
    simpa [List.cons_eq_append_iff] using heq
  exact absurd (heligible.index (by decide)).1 (by decide)

end Mos6502
