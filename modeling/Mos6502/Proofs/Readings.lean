/-
Lines that are read alike.

An assembly knows its lines by what they are read as, a label and a statement.  The text of a
line is kept for one thing only, to be shown if the line is at fault.  So it is the same program
that comes out, or none, where other lines stand that are read alike.
-/
import Mathlib.Data.List.Forall2
import Mos6502.Assembly.Basic

namespace Mos6502

variable {text text' : Text} {lines lines' : List Text}

/-- Lines that are read as the same labels and statements. -/
def ReadAlike : List Text → List Text → Prop :=
  List.Forall₂ fun text text' => Line.parse? text = Line.parse? text'

/-- One line instead of another. -/
theorem readAlike_of_line (h : Line.parse? text = Line.parse? text') (before behind : List Text) :
    ReadAlike (before ++ text :: behind) (before ++ text' :: behind) := by
  refine List.rel_append ?_ (.cons h ?_) <;> exact List.forall₂_same.mpr fun _ _ => rfl

/-- Assemblies that differ at most in what they say about a line at fault. -/
structure Assembly.SameProgram (a b : Assembly) : Prop where
  /-- Both succeed, with the same report, or none does. -/
  report : a.result.toOption = b.result.toOption
  labels : a.labels = b.labels
  pc : a.pc = b.pc
  count : a.count = b.count
  segments : a.segments = b.segments
  sourceMap : a.sourceMap = b.sourceMap
  changes : a.changes = b.changes

theorem emitLine_of_readAlike (h : Line.parse? text = Line.parse? text') (labels : Labels)
    (pc : UInt16) : emitLine labels pc text = emitLine labels pc text' := by
  unfold emitLine
  rw [h]

/-- Either all lines are emitted or the same one is rejected. -/
theorem emitFrom_of_readAlike (h : ReadAlike lines lines') (labels : Labels) (e : Emitted)
    (line : Nat) :
    (∃ e', emitFrom labels e line lines = (e', none) ∧
        emitFrom labels e line lines' = (e', none)) ∨
      ∃ e' r r', emitFrom labels e line lines = (e', some r) ∧
        emitFrom labels e line lines' = (e', some r') := by
  induction h generalizing e line with
  | nil => exact .inl ⟨e, rfl, rfl⟩
  | @cons text text' lines lines' hfirst _ ih =>
    rw [emitFrom, emitFrom, emitLine_of_readAlike hfirst]
    cases emitLine labels e.pc text' with
    | error reason => exact .inr ⟨e, _, _, rfl, rfl⟩
    | ok effect => exact ih ..

namespace Labels

theorem indexLine_of_readAlike (h : Line.parse? text = Line.parse? text') (symbols : Symbols)
    (labels : Labels) (pc : UInt16) (line : Nat) :
    (indexLine symbols labels pc line text).toOption =
      (indexLine symbols labels pc line text').toOption := by
  unfold indexLine
  rw [h]
  cases Line.parse? text' with
  | none => rfl
  | some parsed =>
    dsimp only
    cases parsed.statement.effect labels .size pc <;> rfl

/-- Either all labels are listed or the list ends at the same line. -/
theorem indexFrom_of_readAlike (h : ReadAlike lines lines') (symbols : Symbols)
    (labels : Labels) (pc : UInt16) (line : Nat) :
    (∃ seen, indexFrom symbols labels pc line lines = (seen, none) ∧
        indexFrom symbols labels pc line lines' = (seen, none)) ∨
      ∃ seen error error', indexFrom symbols labels pc line lines = (seen, some error) ∧
        indexFrom symbols labels pc line lines' = (seen, some error') := by
  induction h generalizing labels pc line with
  | nil => exact .inl ⟨labels, rfl, rfl⟩
  | @cons text text' lines lines' hfirst _ ih =>
    have hline := indexLine_of_readAlike hfirst symbols labels pc line
    rw [indexFrom, indexFrom]
    cases hleft : indexLine symbols labels pc line text with
    | error error =>
      rw [hleft] at hline
      cases hright : indexLine symbols labels pc line text' with
      | error error' => exact .inr ⟨labels, error, error', rfl, rfl⟩
      | ok next =>
        rw [hright] at hline
        cases hline
    | ok next =>
      rw [hleft] at hline
      cases hright : indexLine symbols labels pc line text' with
      | error error =>
        rw [hright] at hline
        cases hline
      | ok next' =>
        rw [hright] at hline
        obtain rfl : next = next' := Option.some.inj hline
        exact ih ..

end Labels

/-- Sources with the same constants, whose lines are read alike, are the same program. -/
theorem Assembly.sameProgram_of_readAlike {source source' : Prepared}
    (hsymbols : source.symbols = source'.symbols) (h : ReadAlike source.lines source'.lines) :
    SameProgram (ofPrepared source) (ofPrepared source') := by
  unfold ofPrepared Labels.index
  rw [hsymbols]
  obtain ⟨labels, hindex, hindex'⟩ | ⟨labels, error, error', hindex, hindex'⟩ :=
    Labels.indexFrom_of_readAlike h source'.symbols {} startAddress 1
  · obtain ⟨e, hemit, hemit'⟩ | ⟨e, r, r', hemit, hemit'⟩ :=
      emitFrom_of_readAlike h labels Emitted.initial 1
    · simp only [hindex, hindex', hemit, hemit']
      exact ⟨rfl, rfl, rfl, rfl, rfl, rfl, rfl⟩
    · simp only [hindex, hindex', hemit, hemit']
      exact ⟨rfl, rfl, rfl, rfl, rfl, rfl, rfl⟩
  · simp only [hindex, hindex']
    exact ⟨rfl, rfl, rfl, rfl, rfl, rfl, rfl⟩

end Mos6502
