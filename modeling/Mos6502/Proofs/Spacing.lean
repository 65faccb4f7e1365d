/-
The blank between a command and its operand.

A command ends where its word does, so a blank in front of an operand that does not start with
a letter says nothing to the reader of a line.  It does say something to the one that puts in
constants, which takes what follows the command without a blank for part of it.  So the blank
can be left out where this makes no difference: up to the next blank there is nothing to put in,
and behind it constants are found as they would be behind what is glued to the command
(`Symbols.Separable`).

One line is changed, which is no definition, so the constants are the same and all other lines
stay as they are.
-/
import Mos6502.Proofs.Front
import Mos6502.Proofs.Readings

namespace Mos6502

variable {c : Char} {above after rest operand line : Text} {front : Front} {symbols : Symbols}
  {source : Text} {before behind : List Text}

/-! ### One line of a source text -/

/-- Where a line starts and ends, it is a piece, and the other pieces do not depend on it. -/
theorem exists_pieces (habove : above = [] ∨ above.getLast? = some '\n')
    (hafter : after = [] ∨ after.head? = some '\n') :
    ∃ before behind, ∀ line, '\n' ∉ line →
      pieces '\n' (above ++ (line ++ after)) = before ++ line :: behind := by
  obtain ⟨behind, hbehind⟩ : ∃ behind, ∀ line, '\n' ∉ line →
      pieces '\n' (line ++ after) = line :: behind := by
    rcases hafter with rfl | hafter
    · refine ⟨[], fun line hline => ?_⟩
      rw [List.append_nil, pieces_of_not_mem hline]
    · obtain ⟨next, rfl⟩ := List.head?_eq_some_iff.mp hafter
      exact ⟨pieces '\n' next, fun line hline => pieces_append_separator hline next⟩
  rcases habove with rfl | habove
  · exact ⟨[], behind, hbehind⟩
  · obtain ⟨front, rfl⟩ := List.getLast?_eq_some_iff.mp habove
    refine ⟨pieces '\n' front, behind, fun line hline => ?_⟩
    rw [List.append_assoc, List.singleton_append, pieces_append, hbehind line hline]

/-- The same of lines, as long as the line is not an empty one at the end.  It may lose a
carriage return, which is nothing to what is left of it. -/
theorem exists_splitLines (habove : above = [] ∨ above.getLast? = some '\n')
    (hafter : after = [] ∨ after.head? = some '\n') :
    ∃ before behind, ∀ line, line ≠ [] → '\n' ∉ line → ∃ line', code line' = code line ∧
      splitLines (above ++ (line ++ after)) = before ++ line' :: behind := by
  obtain ⟨before, behind, hpieces⟩ := exists_pieces habove hafter
  rcases behind.eq_nil_or_concat' with rfl | ⟨ended, last, rfl⟩
  · refine ⟨before.map dropReturn, [], fun line hne hline => ⟨line, rfl, ?_⟩⟩
    rw [splitLines_of_pieces (hpieces line hline), if_neg hne]
  · refine ⟨before.map dropReturn, ended.map dropReturn ++ if last = [] then [] else [last], ?_⟩
    intro line hne hline
    refine ⟨dropReturn line, code_dropReturn line, ?_⟩
    have hcut : pieces '\n' (above ++ (line ++ after)) = (before ++ line :: ended) ++ [last] := by
      rw [hpieces line hline, List.append_assoc, List.cons_append]
    rw [splitLines_of_pieces hcut, List.map_append, List.map_cons, List.append_assoc,
      List.cons_append]

/-- What is left to assemble of a line, once the constants are known. -/
def Symbols.prepare (symbols : Symbols) (line : Text) : Text :=
  if (definition? (code line)).isSome then [] else symbols.inLine (code line)

/-- A line that is no definition adds no constant. -/
theorem prepared_of_line (hlines : splitLines source = before ++ line :: behind)
    (hline : definition? (code line) = none) :
    (Prepared.ofText source).symbols = Symbols.ofLines ((before ++ behind).map code) ∧
      (Prepared.ofText source).lines =
        before.map (Prepared.ofText source).symbols.prepare ++
          (Prepared.ofText source).symbols.inLine (code line) ::
            behind.map (Prepared.ofText source).symbols.prepare := by
  constructor
  · simp only [Prepared.ofText, Symbols.ofLines, hlines, List.map_append, List.map_cons,
      List.filterMap_append, List.filterMap_cons_none hline]
  · rw [Prepared.ofText]
    simp only [hlines, List.map_append, List.map_cons, List.map_map, hline]
    rfl

/-! ### One blank more -/

/-- An operand that cannot be taken for part of the command. -/
structure StartsOperand (c : Char) : Prop where
  notWord : isWordChar c = false
  notBlank : isBlank c = false
  notColon : c ≠ ':'
  notComment : c ≠ ';'

namespace StartsOperand

variable (hc : StartsOperand c)

include hc

theorem code_eq (rest : Text) :
    code (c :: rest) = c :: trimRight (rest.takeWhile (· != ';')) := by
  rw [code, List.takeWhile_cons_of_pos (by simpa using hc.notComment),
    trim_cons_of_not_blank hc.notBlank]

theorem code_text (front : Front) (rest : Text) :
    code (front.text ++ c :: rest) = front.head ++ code (c :: rest) := by
  have hlast : [c].getLast? = some c := rfl
  rw [front.code_text, hc.code_eq, List.takeWhile_cons_of_pos (by simpa using hc.notComment)]
  exact congrArg (front.head ++ ·) (trimRight_append hlast hc.notBlank _)

theorem code_text_spaced (front : Front) (rest : Text) :
    code (front.text ++ ' ' :: c :: rest) = front.head ++ ' ' :: code (c :: rest) := by
  have hlast : [' ', c].getLast? = some c := rfl
  rw [front.code_text, hc.code_eq, List.takeWhile_cons_of_pos (by decide),
    List.takeWhile_cons_of_pos (by simpa using hc.notComment)]
  exact congrArg (front.head ++ ·) (trimRight_append hlast hc.notBlank _)

theorem endsWord (operand : Text) : EndsWord (c :: operand) := by
  intro d hd
  obtain rfl := Option.some.inj hd
  exact ⟨hc.notWord, hc.notColon⟩

omit hc in
theorem endsWord_blank (operand : Text) : EndsWord (' ' :: operand) := by
  intro d hd
  obtain rfl := Option.some.inj hd
  decide

/-- With its constants put in, the line is read alike. -/
theorem parse?_spaced (front : Front) (h : symbols.Separable (c :: operand)) :
    Line.parse? (symbols.inLine (front.head ++ ' ' :: c :: operand)) =
      Line.parse? (symbols.inLine (front.head ++ c :: operand)) := by
  have hglued : EndsWord
      (glued (c :: operand) ++ symbols.inOperand (loose (c :: operand))) := by
    rw [glued, List.takeWhile_cons_of_pos (by simp [hc.notBlank])]
    exact hc.endsWord _
  have hspaced : symbols.inLine (front.head ++ ' ' :: c :: operand) =
      front.head ++ ' ' :: (glued (c :: operand) ++ symbols.inOperand (loose (c :: operand))) := by
    rw [front.inLine_head (endsWord_blank _), ← Symbols.inOperand_spaced hc.notWord hc.notBlank h]
    rfl
  rw [hspaced, front.inLine_head (hc.endsWord operand), front.parse?_head (endsWord_blank _),
    front.parse?_head hglued]
  rfl

end StartsOperand

/--
**The blank before an operand is optional.**  Whether or not there is a blank between a command
and an operand that cannot go on with its word, the source text assembles to the same program,
or fails both times, with the same labels and the same bytes in memory.  It is so for every
line, with or without a label, unless a constant in the operand is found in one place and not
in the other.
-/
theorem blank_optional (front : Front) (hc : StartsOperand c)
    (habove : above = [] ∨ above.getLast? = some '\n')
    (hafter : after = [] ∨ after.head? = some '\n') (hrest : '\n' ∉ rest)
    (hconstants : (Prepared.ofText (above ++ (front.text ++ c :: rest ++ after))).symbols.Separable
      (code (c :: rest))) :
    Assembly.SameProgram (Assembly.ofText (above ++ (front.text ++ ' ' :: c :: rest ++ after)))
      (Assembly.ofText (above ++ (front.text ++ c :: rest ++ after))) := by
  obtain ⟨before, behind, hlines⟩ := exists_splitLines habove hafter
  have hfeed : c ≠ '\n' := by
    rintro rfl
    exact absurd hc.notBlank (by decide)
  obtain ⟨glued, hcodeGlued, hglued⟩ := hlines (front.text ++ c :: rest) (by simp)
    (by simp [front.notMem_text.2, hfeed.symm, hrest])
  obtain ⟨spaced, hcodeSpaced, hspaced⟩ := hlines (front.text ++ ' ' :: c :: rest) (by simp)
    (by simp [front.notMem_text.2, hfeed.symm, hrest])
  rw [hc.code_text] at hcodeGlued
  rw [hc.code_text_spaced] at hcodeSpaced
  have hcode := hc.code_eq rest
  obtain ⟨hsymbols, hprepared⟩ := prepared_of_line hglued (by
    rw [hcodeGlued, hcode]
    exact front.definition?_head (hc.endsWord _))
  obtain ⟨hsymbols', hprepared'⟩ := prepared_of_line hspaced (by
    rw [hcodeSpaced, hcode]
    exact front.definition?_head (StartsOperand.endsWord_blank _))
  have hsame := hsymbols'.trans hsymbols.symm
  refine Assembly.sameProgram_of_readAlike hsame ?_
  rw [hprepared, hprepared', hsame, hcodeGlued, hcodeSpaced]
  rw [hcode] at hconstants ⊢
  exact readAlike_of_line (hc.parse?_spaced front hconstants) _ _

/-- A label, a number and a comment that names a constant, which another line uses. -/
theorem blank_optional_of_number :
    Assembly.SameProgram (Assembly.ofText "define v 5\ngo:LDA #$01;v\nSTA v".toList)
      (Assembly.ofText "define v 5\ngo:LDA#$01;v\nSTA v".toList) :=
  @blank_optional '#' "define v 5\n".toList "\nSTA v".toList "$01;v".toList
    { margin := [], label := some "go".toList, gap := [], command := "LDA".toList
      isBlank_margin := by simp
      isBlank_gap := by simp
      isIdentifier_label := by rintro _ ⟨⟩; decide
      isCommand := .inr (by decide) }
    ⟨by decide, by decide, by decide, by decide⟩ (.inr (by decide)) (.inr (by decide)) (by decide)
    (Symbols.separable_of_free (by decide +kernel))

/-- A constant is not found in an operand that is glued to its command. -/
theorem blank_not_optional :
    (Assembly.ofText "define v 5\nLDA#v".toList).result.isOk = false ∧
      (Assembly.ofText "define v 5\nLDA #v".toList).result.isOk = true := by
  decide +kernel

end Mos6502
