/-
What comes of assembling a source text.

There are four outcomes: the labels cannot be listed, a line is at fault, no line holds a
byte, or the program is in memory.  Which one it is can be told from the text alone, without
emitting anything, and what was written to memory by then are the writes of the lines before
the one at fault.  Every outcome but the third is reported, once.
-/
import Mos6502.Proofs.Faults

namespace Mos6502

variable {labels seen : Labels} {symbols : Symbols} {pc : UInt16} {line n : Nat}
  {name text : Text} {lines : List Text} {e : Emitted} {source : Text} {error : LabelError}
  {reason : LineError}

/-! ### The line at which listing the labels ends -/

namespace Labels

theorem line_of_define {label : Option Text}
    (h : labels.define symbols label pc line = .error error) : error.line = line := by
  cases label with
  | none => cases h
  | some name =>
    simp only [define, refuse?] at h
    split at h
    · rename_i hrefused
      cases h
      split at hrefused
      · cases hrefused
        rfl
      · split at hrefused
        · cases hrefused
          rfl
        · cases hrefused
    · cases h

theorem line_of_indexLine (h : indexLine symbols labels pc line text = .error error) :
    error.line = line := by
  unfold indexLine at h
  cases hparse : Line.parse? text with
  | none =>
    rw [hparse] at h
    cases h
    rfl
  | some parsed =>
    simp only [hparse] at h
    cases hsized : parsed.statement.effect labels .size pc with
    | error reason =>
      rw [hsized] at h
      cases h
      rfl
    | ok effect =>
      cases hdefine : labels.define symbols parsed.label pc line with
      | error refused =>
        rw [hsized, hdefine] at h
        cases h
        exact line_of_define hdefine
      | ok added =>
        rw [hsized, hdefine] at h
        cases h

/-- The error of a listing names one of the lines. -/
theorem exists_of_indexFrom (h : indexFrom symbols labels pc line lines = (seen, some error)) :
    ∃ before text rest, lines = before ++ text :: rest ∧ error.line = line + before.length := by
  induction lines generalizing labels pc line with
  | nil => cases h
  | cons text rest ih =>
    rw [indexFrom] at h
    cases hline : indexLine symbols labels pc line text with
    | error error =>
      rw [hline] at h
      cases h
      exact ⟨[], text, rest, rfl, line_of_indexLine hline⟩
    | ok next =>
      rw [hline] at h
      obtain ⟨before, text', behind, rfl, hnumber⟩ := ih h
      refine ⟨text :: before, text', behind, rfl, ?_⟩
      rw [hnumber, List.length_cons, Nat.add_assoc, Nat.add_comm 1]

end Labels

/-! ### Which assembly it is -/

/-- Whether an event says how an assembly ended. -/
def Event.isOutcome : Event → Bool
  | .assembleSuccess _ | .assembleFailure .. => true
  | _ => false

namespace Assembly

/-- What an assembly reports of how it ended. -/
def outcomes (assembly : Assembly) : List Event :=
  assembly.events.filter Event.isOutcome

section

variable (hindex : Labels.index (Prepared.ofText source) = (labels, none))

include hindex

/-- Only at a line that was rejected does an assembly end with the error of a line. -/
theorem result_eq_line_iff :
    (ofText source).result = .error (.line reason n text) ↔
      ∃ e, emitFrom labels Emitted.initial 1 (Prepared.ofText source).lines =
        (e, some ⟨reason, n, text⟩) := by
  cases hrun : emitFrom labels Emitted.initial 1 (Prepared.ofText source).lines with
  | mk e r =>
    cases r with
    | some r =>
      obtain ⟨reason', n', text'⟩ := r
      rw [ofText_eq_rejected hindex hrun]
      simp [rejected]
    | none =>
      rw [ofText_eq_complete hindex hrun, complete]
      split <;> simp

/-- What is left behind by an assembly that ends at a line. -/
theorem of_rejected {r : Rejected}
    (h : emitFrom labels Emitted.initial 1 (Prepared.ofText source).lines = (e, some r)) :
    (emitted source).map Emission.text = (Prepared.ofText source).lines.take (r.line - 1) ∧
      (ofText source).changes = written source ∧
      (Prepared.ofText source).lines[r.line - 1]? = some r.text ∧
      (ofText source).outcomes = [.assembleFailure r.line r.text r.reason] := by
  obtain ⟨before, rest, hlines, hline, hbefore, herror⟩ := exists_of_rejected h
  have heq := ofText_eq_rejected hindex h
  have hnumber : r.line - 1 = before.length := by
    omega
  have hemitted : emitted source = emissions labels Emitted.initial.pc before := by
    rw [emitted, heq, hlines]
    exact emissions_of_rejected hbefore herror rest
  refine ⟨?_, ?_, ?_, ?_⟩
  · rw [hemitted, map_text_emissions hbefore, hnumber, hlines, List.take_left]
  · rw [written, hemitted, heq]
    exact changes_emitFrom hbefore
  · rw [hnumber, hlines, List.getElem?_append_right (Nat.le_refl _), Nat.sub_self,
      List.getElem?_cons_zero]
  · rw [heq]
    rfl

/-- What is left behind when all lines were emitted. -/
theorem of_emitted
    (h : emitFrom labels Emitted.initial 1 (Prepared.ofText source).lines = (e, none)) :
    if written source = [] then
      (ofText source).result = .error .noCode ∧ (ofText source).changes = [] ∧
        (ofText source).outcomes = []
    else
      ∃ report, (ofText source).result = .ok report ∧
        (ofText source).outcomes = [.assembleSuccess report.bytes] := by
  have heq := ofText_eq_complete hindex h
  have hwritten : e.changes.toList = written source := by
    rw [written, emitted, heq, labels_complete]
    exact changes_emitFrom h
  have hcount : e.count = (written source).length := by
    rw [← hwritten, Array.length_toList]
    exact count_emitFrom rfl h
  rw [heq, complete]
  split
  · rename_i hnone
    rw [if_pos (by rw [hcount, hnone]; rfl)]
    exact ⟨rfl, rfl, rfl⟩
  · rename_i hsome
    rw [if_neg (by simpa [hcount] using hsome)]
    exact ⟨_, rfl, rfl⟩

end

end Assembly

/--
**What comes of a source text.**  If the labels cannot be listed, this is the error, and
nothing is written.  Otherwise the first line at fault is the error: one that is about a name
that no label has, or a branch that does not reach.  What was written are then the writes of
the lines before it.  No line is at fault for what stands behind the sign of an immediate
operand.  If no line is at fault, there is nothing to assemble or the assembly succeeds.
A failure is reported once, with the line and its text, and so is a success.
-/
theorem assembly_outcome (source : Text) :
    (∀ labels error, Labels.index (Prepared.ofText source) = (labels, some error) →
      (Assembly.ofText source).result = .error (.label error) ∧
        (Assembly.ofText source).changes = [] ∧ (Assembly.ofText source).segments = [] ∧
        (Assembly.ofText source).sourceMap = {} ∧ (Assembly.ofText source).count = 0 ∧
        ∃ before text rest, (Prepared.ofText source).lines = before ++ text :: rest ∧
          error.line = before.length + 1 ∧
          (Assembly.ofText source).outcomes = [.assembleFailure error.line text .malformed]) ∧
    (∀ labels, Labels.index (Prepared.ofText source) = (labels, none) →
      (∀ reason n text, (Assembly.ofText source).result = .error (.line reason n text) ↔
        (Prepared.ofText source).Faulty labels reason n text ∧
          ∀ k < n, ∀ reason text, ¬ (Prepared.ofText source).Faulty labels reason k text) ∧
      (∀ reason n text, (Assembly.ofText source).result = .error (.line reason n text) →
        (Assembly.emitted source).map Emission.text =
            (Prepared.ofText source).lines.take (n - 1) ∧
          (Assembly.ofText source).changes = Assembly.written source ∧
          (Prepared.ofText source).lines[n - 1]? = some text ∧
          (Assembly.ofText source).outcomes = [.assembleFailure n text reason]) ∧
      (∀ label m value text, Line.parse? text = some ⟨label, .instruction m ('#' :: value)⟩ →
        ∀ reason n, ¬ (Prepared.ofText source).Faulty labels reason n text) ∧
      ((∀ reason n text, ¬ (Prepared.ofText source).Faulty labels reason n text) →
        if Assembly.written source = [] then
          (Assembly.ofText source).result = .error .noCode ∧
            (Assembly.ofText source).changes = [] ∧ (Assembly.ofText source).outcomes = []
        else
          ∃ report, (Assembly.ofText source).result = .ok report ∧
            (Assembly.ofText source).outcomes = [.assembleSuccess report.bytes])) := by
  refine ⟨fun labels error hindex => ?_, fun labels hindex => ⟨?_, ?_, ?_, ?_⟩⟩
  · obtain ⟨before, text, rest, hlines, hline⟩ := Labels.exists_of_indexFrom hindex
    rw [Assembly.ofText_eq_unlabelled hindex]
    refine ⟨rfl, rfl, rfl, rfl, rfl, before, text, rest, hlines, by omega, ?_⟩
    have htext : (Prepared.ofText source).lines[error.line - 1]?.getD [] = text := by
      rw [hline, Nat.add_sub_cancel_left, hlines, List.getElem?_append_right (Nat.le_refl _),
        Nat.sub_self]
      rfl
    show [Event.assembleFailure error.line ((Prepared.ofText source).lines[error.line - 1]?.getD [])
      .malformed] = _
    rw [htext]
  · intro reason n text
    rw [Assembly.result_eq_line_iff hindex, emitFrom_eq_rejected_iff hindex]
  · intro reason n text hresult
    obtain ⟨e, hrejected⟩ := (Assembly.result_eq_line_iff hindex).mp hresult
    exact Assembly.of_rejected hindex hrejected
  · rintro label m value text hparse reason n ⟨_, _, _, _, -, -, -, hfails⟩
    exact not_fails_of_immediate hparse hfails
  · intro hnone
    obtain ⟨e, hemitted⟩ := (emitFrom_eq_none_iff hindex).mpr hnone
    exact Assembly.of_emitted hindex hemitted

/-- A branch that does not reach, behind an unknown name that does no harm and in front of one
that would. -/
theorem assembly_outcome_out_of_reach :
    (Prepared.ofText "LDA #<gone\n\nBNE $0700\nJMP gone".toList).Faulty {} .branchRange 3
        "BNE $0700".toList ∧
      (Assembly.ofText "LDA #<gone\n\nBNE $0700\nJMP gone".toList).changes =
        [⟨0x0600, 0xa9⟩, ⟨0x0601, 0x00⟩] ∧
      (Assembly.ofText "LDA #<gone\n\nBNE $0700\nJMP gone".toList).outcomes =
        [.assembleFailure 3 "BNE $0700".toList .branchRange] := by
  obtain ⟨hresult, hleft, -, -⟩ := (assembly_outcome
    "LDA #<gone\n\nBNE $0700\nJMP gone".toList).2 {} (by decide +kernel)
  have hfailed : (Assembly.ofText "LDA #<gone\n\nBNE $0700\nJMP gone".toList).result =
      .error (.line .branchRange 3 "BNE $0700".toList) := by
    rfl
  obtain ⟨-, hchanges, -, houtcomes⟩ := hleft _ _ _ hfailed
  refine ⟨((hresult _ _ _).mp hfailed).1, hchanges.trans ?_, houtcomes⟩
  decide +kernel

end Mos6502
