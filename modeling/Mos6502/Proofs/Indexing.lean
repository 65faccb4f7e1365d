/-
What listing the labels does line by line.

`Labels.indexFrom` answers with a table only.  The address that it carries from line to
line is what the second pass has to agree with, so `Labels.after` says where the listing
stands after some lines: the labels so far and the address reached.  Listing all lines is
listing the first few and going on from there, which is `indexFrom_append`.

The table only grows, at its end, and every name in it came from a label in front of a
line.  So a name never loses its address, and every name is an identifier.
-/
import Mos6502.Assembly.Index
import Mos6502.Proofs.Operand

namespace Mos6502

namespace Labels

variable {symbols : Symbols} {labels seen final : Labels} {pc pc' : UInt16} {line : Nat}
  {text name : Text} {before rest : List Text} {error : LabelError}

/-- The labels and the address after some lines, the first of which has a number and an
address. -/
def after (symbols : Symbols) (labels : Labels) (pc : UInt16) (line : Nat) :
    List Text → Except LabelError (Labels × UInt16)
  | [] => .ok (labels, pc)
  | text :: rest =>
    match indexLine symbols labels pc line text with
    | .error error => .error error
    | .ok (labels, pc) => after symbols labels pc (line + 1) rest

/-! ### Listing goes on from where it stands -/

theorem after_cons (h : after symbols labels pc line (text :: rest) = .ok (final, pc')) :
    ∃ seen pc'', indexLine symbols labels pc line text = .ok (seen, pc'') ∧
      after symbols seen pc'' (line + 1) rest = .ok (final, pc') := by
  rw [after] at h
  cases hline : indexLine symbols labels pc line text with
  | error error =>
    rw [hline] at h
    cases h
  | ok next =>
    rw [hline] at h
    exact ⟨next.1, next.2, rfl, h⟩

theorem indexFrom_cons (h : indexFrom symbols labels pc line (text :: rest) = (final, none)) :
    ∃ seen pc', indexLine symbols labels pc line text = .ok (seen, pc') ∧
      indexFrom symbols seen pc' (line + 1) rest = (final, none) := by
  rw [indexFrom] at h
  cases hline : indexLine symbols labels pc line text with
  | error error =>
    rw [hline] at h
    cases h
  | ok next =>
    rw [hline] at h
    exact ⟨next.1, next.2, rfl, h⟩

theorem indexFrom_append (h : after symbols labels pc line before = .ok (seen, pc')) :
    indexFrom symbols labels pc line (before ++ rest) =
      indexFrom symbols seen pc' (line + before.length) rest := by
  induction before generalizing labels pc line with
  | nil =>
    cases h
    rfl
  | cons text before ih =>
    obtain ⟨_, _, hline, hbefore⟩ := after_cons h
    rw [List.cons_append, indexFrom, hline, List.length_cons, ← Nat.add_assoc,
      Nat.add_right_comm]
    exact ih hbefore

/-- Where all lines could be listed, so could the first few. -/
theorem exists_after (h : indexFrom symbols labels pc line (before ++ rest) = (final, none)) :
    ∃ seen pc', after symbols labels pc line before = .ok (seen, pc') := by
  induction before generalizing labels pc line with
  | nil => exact ⟨labels, pc, rfl⟩
  | cons text before ih =>
    obtain ⟨_, _, hline, hrest⟩ := indexFrom_cons h
    rw [after, hline]
    exact ih hrest

/-! ### One line -/

theorem indexLine_eq_ok_iff :
    indexLine symbols labels pc line text = .ok (seen, pc') ↔
      ∃ parsed effect, Line.parse? text = some parsed ∧
        parsed.statement.effect labels .size pc = .ok effect ∧
        labels.define symbols parsed.label pc line = .ok seen ∧ effect.next pc = pc' := by
  unfold indexLine
  cases Line.parse? text with
  | none => simp
  | some parsed =>
    simp only [Option.some.injEq, exists_and_left, exists_eq_left']
    cases parsed.statement.effect labels .size pc with
    | error e => simp
    | ok effect =>
      cases hdefine : labels.define symbols parsed.label pc line with
      | error e => simp [Except.map]
      | ok added => simp [Except.map]

theorem address?_of_define (h : labels.define symbols (some name) pc line = .ok seen) :
    seen.address? name = some pc := by
  simp only [define] at h
  split at h
  · cases h
  · rename_i hfree
    cases h
    have hnew : labels.address? name = none := by
      unfold refuse? contains at hfree
      cases hfound : labels.find? name with
      | none => simp [address?, hfound]
      | some found =>
        rw [hfound] at hfree
        split at hfree <;> simp at hfree
    rw [address?_add, hnew]
    simp

/-! ### The table only grows -/

theorem prefix_of_define {label : Option Text}
    (h : labels.define symbols label pc line = .ok seen) : labels.entries <+: seen.entries := by
  cases label with
  | none =>
    cases h
    exact List.prefix_refl _
  | some name =>
    simp only [define] at h
    split at h
    · cases h
    · cases h
      exact List.prefix_append ..

theorem prefix_of_indexLine (h : indexLine symbols labels pc line text = .ok (seen, pc')) :
    labels.entries <+: seen.entries := by
  obtain ⟨parsed, effect, -, -, hdefine, -⟩ := indexLine_eq_ok_iff.mp h
  exact prefix_of_define hdefine

theorem prefix_indexFrom (symbols : Symbols) (labels : Labels) (pc : UInt16) (line : Nat)
    (lines : List Text) :
    labels.entries <+: (indexFrom symbols labels pc line lines).1.entries := by
  induction lines generalizing labels pc line with
  | nil => exact List.prefix_refl _
  | cons text rest ih =>
    rw [indexFrom]
    cases hline : indexLine symbols labels pc line text with
    | error error => exact List.prefix_refl _
    | ok next => exact (prefix_of_indexLine hline).trans (ih ..)

/-- A longer table knows every name by the same address. -/
theorem address?_of_prefix (h : labels.entries <+: final.entries) {a : UInt16}
    (ha : labels.address? name = some a) : final.address? name = some a := by
  obtain ⟨more, hmore⟩ := h
  obtain ⟨label, hlabel, rfl⟩ := Option.map_eq_some_iff.mp ha
  unfold address? find?
  rw [← hmore, List.find?_append]
  unfold find? at hlabel
  rw [hlabel]
  rfl

/-! ### Names are identifiers -/

/-- Every name in the table is an identifier. -/
def Named (labels : Labels) : Prop :=
  ∀ label ∈ labels.entries, isIdentifier label.name = true

theorem isIdentifier_of_parse? {parsed : Line} (h : Line.parse? text = some parsed)
    (hlabel : parsed.label = some name) : isIdentifier name = true := by
  simp only [Line.parse?] at h
  split at h
  · rename_i found rest hsplit
    obtain ⟨s, -, rfl⟩ := Option.map_eq_some_iff.mp h
    cases hlabel
    exact (eq_of_splitLabel? hsplit).1
  · obtain ⟨s, -, rfl⟩ := Option.map_eq_some_iff.mp h
    cases hlabel

theorem named_of_indexLine (hnamed : labels.Named)
    (h : indexLine symbols labels pc line text = .ok (seen, pc')) : seen.Named := by
  obtain ⟨parsed, effect, hparse, -, hdefine, -⟩ := indexLine_eq_ok_iff.mp h
  cases hlabel : parsed.label with
  | none =>
    rw [hlabel] at hdefine
    cases hdefine
    exact hnamed
  | some name =>
    rw [hlabel] at hdefine
    simp only [define] at hdefine
    split at hdefine
    · cases hdefine
    · cases hdefine
      intro label hmem
      rcases List.mem_append.mp hmem with hmem | hmem
      · exact hnamed label hmem
      · rw [List.mem_singleton.mp hmem]
        exact isIdentifier_of_parse? hparse hlabel

theorem named_indexFrom (hnamed : labels.Named) (lines : List Text) :
    (indexFrom symbols labels pc line lines).1.Named := by
  induction lines generalizing labels pc line with
  | nil => exact hnamed
  | cons text rest ih =>
    rw [indexFrom]
    cases hline : indexLine symbols labels pc line text with
    | error error => exact hnamed
    | ok next => exact ih (named_of_indexLine hnamed hline)

theorem Named.isIdentifier (hnamed : labels.Named) {a : UInt16}
    (h : labels.address? name = some a) : isIdentifier name = true := by
  obtain ⟨label, hlabel, -⟩ := Option.map_eq_some_iff.mp h
  have hname : label.name = name := by
    have hfound := List.find?_some hlabel
    simpa using hfound
  rw [← hname]
  exact hnamed label (List.mem_of_find?_eq_some hlabel)

theorem named_index (source : Prepared) : (index source).1.Named :=
  named_indexFrom (fun _ h => absurd h (by simp)) _

end Labels

end Mos6502
