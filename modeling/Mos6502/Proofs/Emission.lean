/-
What a source text emits, line by line.

`emitFrom` gathers what lines do into one record.  To say what became of a single line, the
lines are listed here with the address at which each one is emitted and with its effect.
An assembly that succeeded is made from this list: it writes the bytes of each line to the
address of the line, in the order of the source, and a zero behind the last.
-/
import Mos6502.Proofs.TwoPass

namespace Mos6502

/-- A line that is emitted at an address. -/
structure Emission where
  text : Text
  pc : UInt16
  effect : Effect
deriving DecidableEq, Repr

namespace Emission

/-- The bytes of the line. -/
def bytes (x : Emission) : List UInt8 :=
  match x.effect with
  | .bytes bytes => bytes
  | _ => []

/-- What the line writes to memory. -/
def changes (x : Emission) : List Change :=
  Memory.changesFrom x.pc x.bytes

/-- Whether the line holds an instruction. -/
def isInstruction (x : Emission) : Bool :=
  match Line.parse? x.text with
  | some ⟨_, .instruction ..⟩ => true
  | _ => false

end Emission

/-- The lines that are emitted from an address on, up to one that is rejected. -/
def emissions (labels : Labels) (pc : UInt16) : List Text → List Emission
  | [] => []
  | text :: rest =>
    match emitLine labels pc text with
    | .error _ => []
    | .ok effect => ⟨text, pc, effect⟩ :: emissions labels (effect.next pc) rest

/-- The lines of a source text as they are emitted. -/
def Assembly.emitted (source : Text) : List Emission :=
  emissions (ofText source).labels startAddress (Prepared.ofText source).lines

/-- What the lines of a source text write to memory, in order. -/
def Assembly.written (source : Text) : List Change :=
  (emitted source).flatMap Emission.changes

variable {labels : Labels} {pc : UInt16} {line : Nat} {text : Text} {lines : List Text}
  {effect : Effect} {e e' : Emitted} {source : Text} {report : Report}

/-! ### A run over lines -/

theorem emissions_cons (h : emitLine labels pc text = .ok effect) (rest : List Text) :
    emissions labels pc (text :: rest) =
      ⟨text, pc, effect⟩ :: emissions labels (effect.next pc) rest := by
  rw [emissions, h]

theorem changes_take (e : Emitted) (line : Nat) (text : Text) (effect : Effect) :
    (e.take line effect).changes.toList =
      e.changes.toList ++ Emission.changes ⟨text, e.pc, effect⟩ := by
  cases effect with
  | nothing => exact (List.append_nil _).symm
  | origin address => exact (List.append_nil _).symm
  | bytes bytes => exact Array.toList_appendList

/-- Where no line is rejected, every line is listed. -/
theorem map_text_emissions (h : emitFrom labels e line lines = (e', none)) :
    (emissions labels e.pc lines).map Emission.text = lines := by
  induction lines generalizing e line with
  | nil => rfl
  | cons text rest ih =>
    obtain ⟨effect, hline, hrest⟩ := emitFrom_cons h
    rw [emissions_cons hline, List.map_cons, ← Emitted.pc_take e line effect, ih hrest]

/-- The bytes of each line are written to the address of the line. -/
theorem changes_emitFrom (h : emitFrom labels e line lines = (e', none)) :
    e'.changes.toList =
      e.changes.toList ++ (emissions labels e.pc lines).flatMap Emission.changes := by
  induction lines generalizing e line with
  | nil =>
    cases h
    exact (List.append_nil _).symm
  | cons text rest ih =>
    obtain ⟨effect, hline, hrest⟩ := emitFrom_cons h
    rw [emissions_cons hline, ih hrest, changes_take e line text effect, List.flatMap_cons,
      Emitted.pc_take, List.append_assoc]

/-- Every byte that is counted is a byte that is written. -/
theorem count_take (h : e.count = e.changes.size) (line : Nat) (effect : Effect) :
    (e.take line effect).count = (e.take line effect).changes.size := by
  cases effect with
  | nothing | origin => exact h
  | bytes bytes =>
    have hsize : (Memory.changesFrom e.pc bytes).length = bytes.length := by
      simp [Memory.changesFrom]
    show e.count + bytes.length = (e.changes ++ Memory.changesFrom e.pc bytes).size
    rw [h, ← Array.length_toList, ← Array.length_toList, Array.toList_appendList,
      List.length_append, hsize]

theorem count_emitFrom (hcount : e.count = e.changes.size)
    (h : emitFrom labels e line lines = (e', none)) : e'.count = e'.changes.size := by
  induction lines generalizing e line with
  | nil =>
    cases h
    exact hcount
  | cons text rest ih =>
    obtain ⟨effect, -, hrest⟩ := emitFrom_cons h
    exact ih (count_take hcount line effect) hrest

/-! ### Which assembly it is -/

namespace Assembly

theorem ofText_eq_unlabelled {error : LabelError}
    (hindex : Labels.index (Prepared.ofText source) = (labels, some error)) :
    ofText source = unlabelled (Prepared.ofText source) labels error := by
  unfold ofText ofPrepared
  rw [hindex]

section

variable (hindex : Labels.index (Prepared.ofText source) = (labels, none))

include hindex

theorem ofText_eq_rejected {r : Rejected}
    (h : emitFrom labels Emitted.initial 1 (Prepared.ofText source).lines = (e, some r)) :
    ofText source = rejected labels e r := by
  unfold ofText ofPrepared
  simp only [hindex, h]

theorem ofText_eq_complete
    (h : emitFrom labels Emitted.initial 1 (Prepared.ofText source).lines = (e, none)) :
    ofText source = complete labels e := by
  unfold ofText ofPrepared
  simp only [hindex, h]

end

/-! ### An assembly that succeeded -/

/-- Only if all labels were listed and all lines emitted does an assembly succeed. -/
theorem eq_complete_of_ok (h : (ofText source).result = .ok report) :
    ∃ labels e, Labels.index (Prepared.ofText source) = (labels, none) ∧
      emitFrom labels Emitted.initial 1 (Prepared.ofText source).lines = (e, none) ∧
      e.count ≠ 0 ∧ ofText source = complete labels e := by
  unfold ofText ofPrepared at h ⊢
  cases hindex : Labels.index (Prepared.ofText source) with
  | mk labels error =>
    rw [hindex] at h
    cases error with
    | some error => cases h
    | none =>
      cases hemit : emitFrom labels Emitted.initial 1 (Prepared.ofText source).lines with
      | mk e r =>
        simp only [hemit] at h ⊢
        cases r with
        | some r => cases h
        | none =>
          refine ⟨labels, e, rfl, hemit, ?_, rfl⟩
          intro hcount
          simp only [complete, if_pos hcount] at h
          cases h

theorem changes_complete (h : e.count ≠ 0) :
    (complete labels e).changes = e.changes.toList ++ [⟨e.pc, 0⟩] := by
  rw [complete, if_neg h]
  exact Array.toList_push

theorem segments_complete (h : e.count ≠ 0) :
    (complete labels e).segments = e.segments.filter fun segment => segment.length != 0 := by
  rw [complete, if_neg h]

theorem labels_complete : (complete labels e).labels = labels := by
  unfold complete
  split <;> rfl

theorem pc_complete : (complete labels e).pc = e.pc := by
  unfold complete
  split <;> rfl

theorem count_complete : (complete labels e).count = e.count := by
  unfold complete
  split <;> rfl

theorem result_complete (h : e.count ≠ 0) :
    (complete labels e).result = .ok ⟨e.count, labels.size⟩ := by
  rw [complete, if_neg h]

end Assembly

end Mos6502
