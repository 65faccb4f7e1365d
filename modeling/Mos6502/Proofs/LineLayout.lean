/-
The layout of a source text does not matter.

Blanks around a line, a comment behind it and the way it ends are gone before anything else is
looked at: what is left of a line (`code`) is the same without them.  Since a line is cut at the
first `;` before it is trimmed, blanks in front of a comment are trimmed with the rest, and blanks
behind it are part of it.  A definition is looked for in what is left, so it makes no difference
to definitions either.

A source text is written down line by line here, and each line knows that it holds no line feed,
so what is added to it holds none either.
-/
import Mathlib.Data.List.Forall2
import Mathlib.Logic.Relation
import Mos6502.Assembly.Assembler
import Mos6502.Proofs.Rendering

namespace Mos6502

variable {text blanks : Text}

/-! ### What is left of a line -/

theorem code_of_blank_append (h : AllBlank blanks) (text : Text) :
    code (blanks ++ text) = code text := by
  rw [code, code, List.takeWhile_append_of_pos h.noComment, trim, trimLeft_append_of_blank h,
    ← trim]

/-- A comment goes to the end of the line, also if there is one in front of it. -/
theorem code_append_comment (text comment : Text) : code (text ++ ';' :: comment) = code text := by
  rw [code, code, List.takeWhile_append, List.takeWhile_cons_of_neg (by decide), List.append_nil]
  split
  · rename_i hlength
    rw [(List.takeWhile_prefix _).eq_of_length hlength]
  · rfl

/-! ### Lines of a source text -/

/-- What ends a line. -/
inductive Ending where
  | lineFeed
  | returnLineFeed
deriving DecidableEq, Repr

/-- What stands in front of the line feed. -/
def Ending.lead : Ending → Text
  | lineFeed => []
  | returnLineFeed => ['\r']

/-- A line of a source text, and what ends it. -/
structure SourceLine where
  text : Text
  ending : Ending
  notMem_lineFeed : '\n' ∉ text

namespace SourceLine

/-- The line up to the line feed. -/
def full (line : SourceLine) : Text :=
  line.text ++ line.ending.lead

/-- A source text with some lines. -/
def source (lines : List SourceLine) : Text :=
  lines.flatMap fun line => line.full ++ ['\n']

/-- A change in the layout of a line. -/
inductive Edit (line line' : SourceLine) : Prop
  /-- Blanks in front of it. -/
  | blanksBefore (blanks : Text) (hblanks : AllBlank blanks)
      (htext : line'.text = blanks ++ line.text) (hending : line'.ending = line.ending)
  /-- Blanks behind it. -/
  | blanksBehind (blanks : Text) (hblanks : AllBlank blanks)
      (htext : line'.text = line.text ++ blanks) (hending : line'.ending = line.ending)
  /-- A comment behind it. -/
  | comment (comment : Text) (htext : line'.text = line.text ++ ';' :: comment)
      (hending : line'.ending = line.ending)
  /-- Another ending. -/
  | ending (htext : line'.text = line.text)

/-- Any number of changes in the layout of a line. -/
def Relaid : SourceLine → SourceLine → Prop :=
  Relation.ReflTransGen Edit

variable {line line' : SourceLine} {lines lines' : List SourceLine}

/-- A carriage return is blank, so it is trimmed like any other blank. -/
theorem code_full (line : SourceLine) : code line.full = code line.text := by
  have hlead : AllBlank line.ending.lead := by
    cases line.ending with
    | lineFeed => exact List.forall_mem_nil _
    | returnLineFeed => exact List.forall_mem_singleton.mpr (by decide)
  exact code_append_of_blank hlead line.text

/-- A change in the layout leaves what is left of the line. -/
theorem Edit.code_eq (h : Edit line line') : code line'.full = code line.full := by
  rw [code_full, code_full]
  cases h with
  | blanksBefore blanks hblanks htext hending => rw [htext, code_of_blank_append hblanks]
  | blanksBehind blanks hblanks htext hending => rw [htext, code_append_of_blank hblanks]
  | comment comment htext hending => rw [htext, code_append_comment]
  | ending htext => rw [htext]

theorem Relaid.code_eq (h : Relaid line line') : code line'.full = code line.full := by
  induction h with
  | refl => rfl
  | tail _ hlast ih => exact hlast.code_eq.trans ih

theorem notMem_full (line : SourceLine) : '\n' ∉ line.full := by
  have hlead : '\n' ∉ line.ending.lead := by
    cases line.ending <;> decide
  rw [full, List.mem_append, not_or]
  exact ⟨line.notMem_lineFeed, hlead⟩

/-- The lines of a source text are its lines, but for a carriage return at the end of each. -/
theorem splitLines_source (lines : List SourceLine) :
    splitLines (source lines) = lines.map fun line => dropReturn line.full := by
  have hpieces : pieces '\n' (source lines) = lines.map full ++ [[]] := by
    induction lines with
    | nil => rfl
    | cons line rest ih =>
      have hsource : source (line :: rest) = line.full ++ '\n' :: source rest := by
        simp [source]
      rw [hsource, pieces_append_separator line.notMem_full, ih]
      rfl
  rw [splitLines_of_pieces hpieces, if_pos rfl, List.append_nil, List.map_map]
  rfl

theorem codes_source (lines : List SourceLine) :
    (splitLines (source lines)).map code = lines.map fun line => code line.full := by
  rw [splitLines_source, List.map_map]
  exact List.map_congr_left fun line _ => code_dropReturn line.full

end SourceLine

/-- Only what is left of the lines matters. -/
theorem prepared_of_codes {source source' : Text}
    (h : (splitLines source).map code = (splitLines source').map code) :
    Prepared.ofText source = Prepared.ofText source' := by
  unfold Prepared.ofText
  rw [h]

/--
**The layout of a source text makes no difference.**  Put blanks around its lines, add comments
behind them, end them with or without a carriage return, as often and in whatever order.  What is
prepared is the same, line by line and with the same constants.  So an assembler does the same on
both: it has the same result, holds the same labels with the same line numbers, the same segments
and the same map, has written the same to memory and has reported the same.
-/
theorem layout_makes_no_difference {lines lines' : List SourceLine}
    (h : List.Forall₂ SourceLine.Relaid lines lines') :
    Prepared.ofText (SourceLine.source lines') = Prepared.ofText (SourceLine.source lines) ∧
      ∀ w : Workbench,
        w.assemble (SourceLine.source lines') = w.assemble (SourceLine.source lines) := by
  have hcodes : (lines'.map fun line => code line.full) = lines.map fun line => code line.full := by
    induction h with
    | nil => rfl
    | cons hline _ ih => rw [List.map_cons, List.map_cons, hline.code_eq, ih]
  have hprepared : Prepared.ofText (SourceLine.source lines') =
      Prepared.ofText (SourceLine.source lines) := by
    apply prepared_of_codes
    rw [SourceLine.codes_source, SourceLine.codes_source, hcodes]
  refine ⟨hprepared, fun w => ?_⟩
  rw [Workbench.assemble, Workbench.assemble, hprepared]

/-- A definition behind a tab, a comment that starts with `;;`, and lines that end in different
ways. -/
theorem layout_makes_no_difference_to_define :
    List.Forall₂ SourceLine.Relaid
      [⟨"define v 5".toList, .lineFeed, by decide⟩, ⟨"LDA #v".toList, .returnLineFeed, by decide⟩]
      [⟨"\tdefine v 5;; 6".toList, .lineFeed, by decide⟩,
        ⟨"LDA #v".toList, .lineFeed, by decide⟩] ∧
    (Prepared.ofText "\tdefine v 5;; 6\nLDA #v\n".toList).lines = [[], "LDA #5".toList] ∧
    ∀ w : Workbench, w.assemble "\tdefine v 5;; 6\nLDA #v\n".toList =
      w.assemble "define v 5\nLDA #v\r\n".toList := by
  have htab : AllBlank ['\t'] := List.forall_mem_singleton.mpr (by decide)
  have hbefore : SourceLine.Edit ⟨"define v 5".toList, .lineFeed, by decide⟩
      ⟨"\tdefine v 5".toList, .lineFeed, by decide⟩ := .blanksBefore ['\t'] htab rfl rfl
  have hcomment : SourceLine.Edit ⟨"\tdefine v 5".toList, .lineFeed, by decide⟩
      ⟨"\tdefine v 5;; 6".toList, .lineFeed, by decide⟩ := .comment "; 6".toList rfl rfl
  have hending : SourceLine.Edit ⟨"LDA #v".toList, .returnLineFeed, by decide⟩
      ⟨"LDA #v".toList, .lineFeed, by decide⟩ := .ending rfl
  have hrelaid := List.Forall₂.cons (Relation.ReflTransGen.tail (.single hbefore) hcomment)
    (.cons (.single hending) .nil)
  obtain ⟨hprepared, hassemble⟩ := layout_makes_no_difference hrelaid
  have hplain :
      (Prepared.ofText "define v 5\nLDA #v\r\n".toList).lines = [[], "LDA #5".toList] := by
    decide +kernel
  exact ⟨hrelaid, (congrArg Prepared.lines hprepared).trans hplain, hassemble⟩

end Mos6502
