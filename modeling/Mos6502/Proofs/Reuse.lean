/-
An assembler forgets what it assembled before.

An assembly goes over what an assembler keeps piece by piece, and takes most of the pieces up
where the last text left them: cleared or not, sorted or not, with labels of a list that was
broken off.  It forgets them all the same if everything that it reads was written by itself
before.  That is shown by comparison with `Assembly.ofText`, which has nothing to start from.
While lines are emitted, the workbench holds what `Emitted` says and nothing else
(`Workbench.emit_holding`), and at the end it holds what the assembly says
(`Workbench.assemble_eq`), whatever it held at the beginning.

Memory and the list of events are not forgotten.  They are gone on with, and what is added to
them comes from the source text alone.
-/
import Mos6502.Assembly.Assembler
import Mos6502.Proofs.Emission
import Mos6502.Proofs.Writes

namespace Mos6502

namespace Workbench

variable {w : Workbench} {e : Emitted} {labels : Labels} {line : Nat} {text : Text}

/-! ### While lines are emitted -/

/-- A workbench that was at some lines, with what they emitted. -/
def holding (w : Workbench) (e : Emitted) : Workbench :=
  { w with
    assembler.pc := e.pc
    assembler.count := e.count
    assembler.segments := e.closed.push e.current
    assembler.sourceMap := e.sourceMap
    memory := w.memory.apply e.changes.toList }

/-- Bytes that are put one by one are a row of writes. -/
theorem foldl_put (bytes : List UInt8) (w : Workbench) :
    bytes.foldl put w =
      { w with
        assembler.pc := w.assembler.pc + UInt16.ofNat bytes.length
        memory := w.memory.apply (Memory.changesFrom w.assembler.pc bytes) } := by
  induction bytes generalizing w with
  | nil =>
    obtain ⟨⟨labels, pc, count, segments, sourceMap⟩, memory, events⟩ := w
    simp
  | cons value rest ih =>
    rw [List.foldl_cons, ih, Memory.changesFrom_cons, Memory.apply_cons, List.length_cons,
      Nat.add_comm, UInt16.ofNat_add, ← UInt16.add_assoc]
    rfl

theorem modify_last (closed : Array Segment) (current : Segment) (f : Segment → Segment) :
    (closed.push current).modify ((closed.push current).size - 1) f =
      closed.push (f current) := by
  apply Array.ext'
  rw [Array.toList_modify, List.modify_eq_take_cons_drop (by simp)]
  simp

theorem store_holding (bytes : List UInt8) :
    (w.holding e).store line bytes = w.holding (e.store line bytes) := by
  have hmemory : (w.memory.apply e.changes.toList).apply (Memory.changesFrom e.pc bytes) =
      w.memory.apply (e.changes ++ Memory.changesFrom e.pc bytes).toList := by
    rw [Array.toList_appendList, Memory.apply_append]
  rw [store, foldl_put]
  simp only [tally, holding, Emitted.store, modify_last, hmemory]

/-- A line does to the workbench what it does to what was emitted. -/
theorem take_holding (effect : Effect) :
    (w.holding e).take line effect = w.holding (e.take line effect) := by
  cases effect with
  | nothing => rfl
  | origin address => rfl
  | bytes bytes => exact store_holding bytes

/-- So do all lines. -/
theorem emit_holding (lines : List Text) :
    (w.holding e).emit line lines =
      (w.holding (emitFrom w.assembler.labels e line lines).1,
        (emitFrom w.assembler.labels e line lines).2) := by
  induction lines generalizing e line with
  | nil => rfl
  | cons text rest ih =>
    have hline : emitLine (w.holding e).assembler.labels (w.holding e).assembler.pc text =
        emitLine w.assembler.labels e.pc text := rfl
    rw [emit, emitFrom, hline]
    cases emitLine w.assembler.labels e.pc text with
    | error reason => rfl
    | ok effect =>
      show ((w.holding e).take line effect).emit (line + 1) rest = _
      rw [take_holding, ih]

/-! ### After the whole source -/

/-- A workbench that was at a source text, with what the assembly of the text says. -/
def loaded (w : Workbench) (a : Assembly) : Workbench where
  assembler := ⟨a.labels, a.pc, a.count, a.segments.toArray, a.sourceMap⟩
  memory := w.memory.apply a.changes
  events := w.events ++ a.events

/-- A workbench whose labels are listed, and which is about to emit lines. -/
def indexed (w : Workbench) (labels : Labels) : Workbench :=
  { w with
    assembler.labels := labels
    events := w.events ++ (Assembly.opening ++ Assembly.indexed labels) }

/-- Listing labels starts from nothing, whatever is in the table. -/
theorem relist_eq (labels : Labels) (source : Prepared) :
    labels.relist source = ((Labels.index source).1,
      match (Labels.index source).2 with
      | some error => .error error
      | none => .ok (Labels.index source).1.size) := by
  have hindex : Labels.indexFrom source.symbols labels.reset startAddress 1 source.lines =
      Labels.index source := rfl
  rw [Labels.relist, hindex]
  obtain ⟨found, error⟩ := Labels.index source
  cases error <;> rfl

theorem rejected_holding (w : Workbench) (labels : Labels) (e : Emitted) (r : Rejected) :
    ((w.indexed labels).holding e).rejected r =
      (w.loaded (Assembly.rejected labels e r), (Assembly.rejected labels e r).result) := by
  simp only [rejected, report, holding, indexed, loaded, Assembly.rejected, Emitted.segments,
    List.append_assoc]

/-- Behind the last line the zero is written where the address is, if any byte was counted.
If none was, none was written either. -/
theorem finish_holding (w : Workbench) (labels : Labels) (hcount : e.count = e.changes.size) :
    ((w.indexed labels).holding e).tidy.finish labels.size =
      (w.loaded (Assembly.complete labels e), (Assembly.complete labels e).result) := by
  have hsegments : (e.closed.push e.current).filter (fun segment => segment.length != 0) =
      (e.segments.filter fun segment => segment.length != 0).toArray := by
    rw [Emitted.segments, List.filter_toArray]
  by_cases hnone : e.count = 0
  · have hchanges : e.changes = #[] := Array.eq_empty_of_size_eq_zero (hcount.symm.trans hnone)
    simp only [finish, tidy, holding, indexed, loaded, report, Assembly.complete, if_pos hnone,
      hchanges, hsegments, List.append_assoc]
  · have hmemory : (w.memory.apply e.changes.toList).set e.pc 0 =
        w.memory.apply (e.changes.push ⟨e.pc, 0⟩).toList := by
      rw [Array.toList_push, Memory.apply_append]
      rfl
    simp only [finish, tidy, holding, indexed, loaded, report, Assembly.complete, if_neg hnone,
      hmemory, hsegments, List.append_assoc]

/-- Emitting starts from what was cleared. -/
theorem emitAll_eq (w : Workbench)
    (hindex : Labels.index (Prepared.ofText text) = (labels, none)) :
    (w.clear.indexed labels).emitAll (Prepared.ofText text) labels.size =
      (w.loaded (Assembly.ofText text), (Assembly.ofText text).result) := by
  have hstart : (w.clear.indexed labels).openSegment (w.clear.indexed labels).assembler.pc =
      (w.indexed labels).holding Emitted.initial := rfl
  have hlabels : (w.indexed labels).assembler.labels = labels := rfl
  rw [emitAll, hstart, emit_holding, hlabels]
  cases hemit : emitFrom labels Emitted.initial 1 (Prepared.ofText text).lines with
  | mk e r =>
    cases r with
    | some r =>
      rw [Assembly.ofText_eq_rejected hindex hemit]
      exact rejected_holding w labels e r
    | none =>
      rw [Assembly.ofText_eq_complete hindex hemit]
      exact finish_holding w labels (count_emitFrom rfl hemit)

/-- What an assembly leaves behind is what the source text says, whatever there was before. -/
theorem assemble_eq (w : Workbench) (text : Text) :
    w.assemble text = (w.loaded (Assembly.ofText text), (Assembly.ofText text).result) := by
  cases hindex : Labels.index (Prepared.ofText text) with
  | mk labels error =>
    cases error with
    | some error =>
      rw [Assembly.ofText_eq_unlabelled hindex]
      simp only [assemble, relist, relist_eq, hindex, unlabelled, loaded, report, clear,
        Assembly.unlabelled, Assembly.opening, List.append_assoc]
      rfl
    | none =>
      rw [← emitAll_eq w hindex]
      simp only [assemble, relist, relist_eq, hindex, report, clear, indexed, Assembly.opening,
        Assembly.indexed, List.append_assoc]
      rfl

/-! ### What is written to memory -/

/-- What somebody is told of who watches the memory while a source text is assembled. -/
def heard (w : Workbench) (text : Text) : Option (Array Change) :=
  ({ w with memory := w.memory.record }.assemble text).1.memory.recorded.getLast?

/-- It is told of every write, in order. -/
theorem heard_eq (w : Workbench) (text : Text) :
    w.heard text = some (Assembly.ofText text).changes.toArray := by
  have hmemory : ({ w with memory := w.memory.record }.assemble text).1.memory =
      w.memory.record.apply (Assembly.ofText text).changes := by
    rw [assemble_eq]
    rfl
  rw [heard, hmemory, Memory.recorded_apply, Memory.recorded_record, List.map_append]
  simp

end Workbench

/--
**An assembly does not depend on what was assembled before.**  Take any two workbenches,
whatever their assemblers hold, whatever is in their memories and whatever they have reported.
A source text has the same result on both, and both assemblers hold the same afterwards.  The
same writes are made to both memories, and nothing else is done to them; who watches hears of
these writes, in order.  And the same events are reported behind those of before.
-/
theorem assembly_independent_of_history (text : Text) (a b : Workbench) :
    (a.assemble text).2 = (b.assemble text).2 ∧
      (a.assemble text).1.assembler = (b.assemble text).1.assembler ∧
      (∃ changes : List Change,
        (a.assemble text).1.memory = a.memory.apply changes ∧
        (b.assemble text).1.memory = b.memory.apply changes ∧
        a.heard text = some changes.toArray ∧ b.heard text = some changes.toArray) ∧
      ∃ events : List Event,
        (a.assemble text).1.events = a.events ++ events ∧
        (b.assemble text).1.events = b.events ++ events := by
  have ha : a.assemble text = (a.loaded (Assembly.ofText text), (Assembly.ofText text).result) :=
    a.assemble_eq text
  have hb : b.assemble text = (b.loaded (Assembly.ofText text), (Assembly.ofText text).result) :=
    b.assemble_eq text
  rw [ha, hb]
  exact ⟨rfl, rfl, ⟨_, rfl, rfl, a.heard_eq text, b.heard_eq text⟩, _, rfl, rfl⟩

end Mos6502
