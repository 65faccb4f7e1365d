/-
What is reported of one instruction.

Whatever executes instructions does it through `execute`, and `Executed` lists the ways in which
that can go, each with its reports: a fault and a stop, a step, or a step and the end of the
program.  In front of these stand the notes that the signals of the processor give rise to.

From the reports alone one reads how many instructions were executed since the last reset, and
whether a program is running.  Both stay right over an instruction, with one exception: a break
that is executed on demand while a program is running pauses it without a word.
-/
import Mathlib.Data.List.DropRight
import Mos6502.Proofs.Schedule

namespace Mos6502

/-! ### Reading the reports -/

namespace Event

/-- Whether a program is running after an event, if the event is about this. -/
def runs? : Event → Option Bool
  | .start => some true
  | .stop _ | .reset => some false
  | _ => none

/-- An event that a signal of the processor gives rise to. -/
def isNote : Event → Bool
  | .simulatorInfo _ | .output _ => true
  | _ => false

/-- An event that is reported while a program goes on. -/
def isRoutine (event : Event) : Bool :=
  event.isNote || event == .step

theorem isRoutine_of_isNote {event : Event} (h : event.isNote = true) :
    event.isRoutine = true := by
  rw [isRoutine, h, Bool.true_or]

/-- How many instructions were reported since the last reset. -/
def stepsSinceReset (events : List Event) : Nat :=
  (events.rtakeWhile (· ≠ .reset)).count .step

/-- Whether the last start, stop or reset that was reported is a start. -/
def lastStarts (events : List Event) : Bool :=
  (events.reverse.findSome? runs?).getD false

variable {notes : List Event}

/-- Notes are about neither instructions nor runs. -/
theorem not_mem_of_notes (h : ∀ e ∈ notes, e.isNote = true) (event : Event)
    (hevent : event.isNote = false) : event ∉ notes := by
  intro hmem
  rw [h event hmem] at hevent
  cases hevent

theorem stepsSinceReset_notes (events : List Event) (h : ∀ e ∈ notes, e.isNote = true)
    (tail : List Event) (htail : .reset ∉ tail) :
    stepsSinceReset (events ++ (notes ++ tail)) = stepsSinceReset events + tail.count .step := by
  have hall : ∀ e ∈ (notes ++ tail).reverse, decide (e ≠ .reset) = true := by
    intro e he
    rw [decide_eq_true_iff]
    rintro rfl
    exact (List.mem_append.mp (List.mem_reverse.mp he)).elim (not_mem_of_notes h .reset rfl) htail
  have hsteps := List.count_eq_zero.mpr (not_mem_of_notes h .step rfl)
  rw [stepsSinceReset, List.rtakeWhile, List.reverse_append,
    List.takeWhile_append_of_pos hall, List.reverse_append, List.reverse_reverse,
    List.count_append, List.count_append, hsteps, Nat.zero_add]
  rfl

theorem stepsSinceReset_reset (events : List Event) : stepsSinceReset (events ++ [.reset]) = 0 := by
  rw [stepsSinceReset, List.rtakeWhile_concat, if_neg (by simp)]
  rfl

theorem lastStarts_notes (events : List Event) (h : ∀ e ∈ notes, e.isNote = true)
    (tail : List Event) :
    lastStarts (events ++ (notes ++ tail)) =
      (tail.reverse.findSome? runs?).getD (lastStarts events) := by
  have hnone : notes.reverse.findSome? runs? = none := by
    refine List.findSome?_eq_none_iff.mpr fun e he => ?_
    have hnote := h e (List.mem_reverse.mp he)
    cases e <;> first | rfl | cases hnote
  rw [lastStarts, List.reverse_append, List.reverse_append, List.findSome?_append,
    List.findSome?_append, hnone, Option.or_none, Option.getD_or]
  rfl

theorem lastStarts_concat (events : List Event) (event : Event) :
    lastStarts (events ++ [event]) = event.runs?.getD (lastStarts events) := by
  have hlast := lastStarts_notes events (List.forall_mem_nil _) [event]
  rw [List.nil_append] at hlast
  rw [hlast, List.reverse_singleton, List.findSome?_singleton]

end Event

/-! ### A break, and only a break, halts -/

namespace Cpu

theorem halt_mem_executed_iff {s : Cpu} (h : s.signals = []) (op : Operation) :
    .halt ∈ (s.executed op).signals ↔ op.mnemonic = .brk := by
  obtain ⟨m, mode⟩ := op
  cases m with
  | asl | lsr | rol | ror | inc | dec =>
    cases mode <;> simp [executed, replaceShifted, replace, loadA, result, store, jump, h]
  | bpl | bmi | bvc | bvs | bcc | bcs | bne | beq =>
    simp [executed, apply_ite signals, jump, h]
  | _ =>
    simp only [executed, push_eq, drop_eq]
    simp [accumulate, loadA, loadX, loadY, result, compare, store, jump, setStatus, raise, h]

/-- A fault is not counted. -/
theorem instructions_step_of_fault {s : Cpu} {fault : Fault} (h : s.step.2 = some fault) :
    s.step.1.instructions = s.instructions := by
  rw [step_of_fault h]

/-- Whether the next instruction is a break. -/
def breaks (s : Cpu) : Bool :=
  (decode (s.memory.get s.pc)).any fun op => op.mnemonic == .brk

theorem contains_halt_step {s : Cpu} (h : s.signals = []) :
    s.step.1.signals.contains .halt = s.breaks := by
  rw [Bool.eq_iff_iff, List.contains_iff_mem, breaks]
  cases hstep : s.step with
  | mk next outcome =>
    cases stepped_iff.mpr hstep with
    | output hopcode =>
      rw [hopcode, decode_outputOpcode]
      simp [count, executedOutput, h]
    | unknown hopcode hdecode => simp [hdecode, jump, h]
    | @unimplemented op hdecode hop =>
      have hne : op.mnemonic ≠ .brk := by
        rintro heq
        simp [heq] at hop
      simp [hdecode, jump, h, hne]
    | @executed op hdecode hop =>
      rw [hdecode, Option.any_some, beq_iff_eq]
      exact halt_mem_executed_iff h op

end Cpu

/-- Whether the next instruction is a break.  The random cell is refreshed before it. -/
def Machine.breaks (m : Machine) : Bool :=
  m.refresh.cpu.breaks

theorem Machine.contains_halt_step {m : Machine} (h : m.cpu.signals = []) :
    m.step.1.cpu.signals.contains .halt = m.breaks :=
  Cpu.contains_halt_step (show m.refresh.cpu.signals = [] from h)

/-! ### One instruction -/

namespace Simulator

variable {s t : Simulator} {debugging : Bool} {fault : Fault}

/-- All that was reported, the earliest first. -/
def reports (s : Simulator) : List Event :=
  s.events.toList

@[simp] theorem reports_report (event : Event) (s : Simulator) :
    (s.report event).reports = s.reports ++ [event] := by
  simp [reports]

/-- A simulator reported some events on its way from a state to another. -/
def Adds (s : Simulator) (events : List Event) (t : Simulator) : Prop :=
  t.reports = s.reports ++ events

theorem Adds.refl (s : Simulator) : s.Adds [] s :=
  (List.append_nil _).symm

theorem Adds.trans {events more : List Event} {u : Simulator} (h : s.Adds events t)
    (h' : t.Adds more u) : s.Adds (events ++ more) u := by
  rw [Adds, h', h, List.append_assoc]

theorem Adds.report {events : List Event} (h : s.Adds events t) (event : Event) :
    s.Adds (events ++ [event]) (t.report event) :=
  h.trans (reports_report event t)

/-- What a signal leads to: a note, or the end of a run without one. -/
theorem adds_notice (s : Simulator) (signal : Signal) :
    ∃ notes, (∀ e ∈ notes, Event.isNote e = true) ∧ s.Adds notes (s.notice signal) ∧
      (s.notice signal).running = (s.running && !(.halt == signal)) := by
  cases signal with
  | halt => exact ⟨[], by simp, .refl s, by simp [notice]⟩
  | filled | emptied | output =>
    refine ⟨_, fun e he => ?_, reports_report _ s, by simp [notice]⟩
    rw [List.mem_singleton.mp he]
    rfl

theorem adds_takeSignals (s : Simulator) :
    ∃ notes, (∀ e ∈ notes, Event.isNote e = true) ∧ s.Adds notes s.takeSignals ∧
      s.takeSignals.running = (s.running && !s.cpu.signals.contains .halt) := by
  have fold : ∀ (signals : List Signal) (s : Simulator),
      ∃ notes, (∀ e ∈ notes, Event.isNote e = true) ∧ s.Adds notes (signals.foldl notice s) ∧
        (signals.foldl notice s).running = (s.running && !signals.contains .halt) := by
    intro signals
    induction signals with
    | nil => exact fun s => ⟨[], by simp, .refl s, by simp⟩
    | cons signal rest ih =>
      intro s
      obtain ⟨first, hfirst, hadds, hrunning⟩ := s.adds_notice signal
      obtain ⟨notes, hnotes, hadds', hrunning'⟩ := ih (s.notice signal)
      refine ⟨first ++ notes, List.forall_mem_append.mpr ⟨hfirst, hnotes⟩, hadds.trans hadds', ?_⟩
      rw [List.foldl_cons, hrunning', hrunning, List.contains_cons, Bool.not_or, Bool.and_assoc]
  exact fold s.cpu.signals (s.mapCpu Cpu.clearSignals)

/-- What came of a request to execute an instruction. -/
inductive Executed (s : Simulator) (debugging : Bool) (t : Simulator) : Option Fault → Prop
  /-- Nothing, as no program is running. -/
  | idle (hrunning : s.running = false) (heq : t = s) : Executed s debugging t none
  /-- A fault, which stops the program. -/
  | failed {fault : Fault} {notes : List Event} (hnotes : ∀ e ∈ notes, e.isNote = true)
      (hadds : s.Adds (notes ++ [.simulatorFailure fault.message, .stop (faultReason fault)]) t)
      (hrunning : t.running = false) (hcount : t.cpu.instructions = s.cpu.instructions) :
      Executed s debugging t (some fault)
  /-- An instruction that may have others behind it. -/
  | went {notes : List Event} (hnotes : ∀ e ∈ notes, e.isNote = true)
      (hadds : s.Adds (notes ++ [.step]) t)
      (hrunning : t.running = (s.running && !s.machine.step.1.cpu.signals.contains .halt))
      (hgoes : (t.running || debugging) = true)
      (hcount : t.cpu.instructions = s.cpu.instructions + 1) : Executed s debugging t none
  /-- The last instruction of the program. -/
  | ended {notes : List Event} {message : String} {last : UInt16}
      (hnotes : ∀ e ∈ notes, e.isNote = true)
      (hadds : s.Adds (notes ++ [.step, .simulatorInfo message, .stop (.programEnd last)]) t)
      (hrunning : t.running = false) (hcount : t.cpu.instructions = s.cpu.instructions + 1) :
      Executed s debugging t none

theorem executed_execute (s : Simulator) (debugging : Bool) :
    Executed s debugging (s.execute debugging).1 (s.execute debugging).2 := by
  obtain ⟨hmachine, hfault⟩ := machine_advance s
  have hadvance : ∃ notes, (∀ e ∈ notes, Event.isNote e = true) ∧ s.Adds notes s.advance.1 ∧
      s.advance.1.running = (s.running && !s.machine.step.1.cpu.signals.contains .halt) :=
    adds_takeSignals { s with machine := s.machine.step.1 }
  obtain ⟨notes, hnotes, hadds, hrunning⟩ := hadvance
  unfold execute
  split
  · cases hnext : s.advance with
    | mk next fault =>
      rw [hnext] at hmachine hfault hadds hrunning
      have hcpu : next.cpu.instructions = s.machine.step.1.cpu.instructions :=
        congrArg (fun m => m.cpu.instructions) hmachine
      cases fault with
      | some fault =>
        refine .failed hnotes (hadds.trans (((Adds.refl _).report _).report _)) rfl ?_
        exact hcpu.trans (Cpu.instructions_step_of_fault hfault.symm)
      | none =>
        have hcount := hcpu.trans (Cpu.instructions_step hfault.symm)
        simp only [finish]
        split
        · exact .ended hnotes (hadds.trans ((((Adds.refl _).report _).report _).report _)) rfl hcount
        · rename_i hgoes
          refine .went hnotes (hadds.report _) hrunning ?_ hcount
          have hended : (_ || !next.running && !debugging) = false := Bool.eq_false_iff.mpr hgoes
          obtain ⟨-, hon⟩ := Bool.or_eq_false_iff.mp hended
          rwa [← Bool.not_or, Bool.not_eq_false'] at hon
  · rename_i hidle
    exact .idle (by simpa using (Bool.or_eq_false_iff.mp (Bool.eq_false_iff.mpr hidle)).1) rfl

theorem executed_of_execute {outcome : Option Fault} (h : s.execute debugging = (t, outcome)) :
    Executed s debugging t outcome := by
  have hexecuted := executed_execute s debugging
  rwa [h] at hexecuted

theorem signals_execute (h : s.cpu.signals = []) : (s.execute debugging).1.cpu.signals = [] := by
  have hadvance : s.advance.1.cpu.signals = [] :=
    congrArg (fun m => m.cpu.signals) (machine_advance s).1
  unfold execute
  split
  · cases hnext : s.advance with
    | mk next fault =>
      rw [hnext] at hadvance
      cases fault with
      | some fault => exact hadvance
      | none =>
        show (next.finish debugging).machine.cpu.signals = []
        rw [machine_finish]
        exact hadvance
  · exact h

namespace Executed

variable {outcome : Option Fault} (h : Executed s debugging t outcome)

include h

theorem accounted (hs : s.cpu.instructions = Event.stepsSinceReset s.reports) :
    t.cpu.instructions = Event.stepsSinceReset t.reports := by
  cases h with
  | idle hrunning heq => rwa [heq]
  | failed hnotes hadds _ hcount | went hnotes hadds _ _ hcount | ended hnotes hadds _ hcount =>
    rw [hadds, Event.stepsSinceReset_notes _ hnotes _ (by simp), hcount, hs]
    rfl

/-- Only a break that is executed on demand goes unreported. -/
theorem told (hs : s.running = Event.lastStarts s.reports) (hsignals : s.cpu.signals = [])
    (hpause : ¬ (debugging = true ∧ s.running = true ∧ s.machine.breaks = true)) :
    t.running = Event.lastStarts t.reports := by
  cases h with
  | idle hrunning heq => rwa [heq]
  | failed hnotes hadds hrunning | ended hnotes hadds hrunning =>
    rw [hrunning, hadds, Event.lastStarts_notes _ hnotes]
    rfl
  | went hnotes hadds hrunning hgoes =>
    have hsame : t.running = s.running := by
      rw [Machine.contains_halt_step hsignals] at hrunning
      cases hon : s.running with
      | false => rw [hrunning, hon, Bool.false_and]
      | true =>
        rw [hon, Bool.true_and] at hrunning
        cases hbreaks : s.machine.breaks with
        | false => rw [hrunning, hbreaks, Bool.not_false]
        | true =>
          rw [hrunning, hbreaks, Bool.not_true, Bool.false_or] at hgoes
          exact absurd ⟨hgoes, hon, hbreaks⟩ hpause
    rw [hsame, hs, hadds, Event.lastStarts_notes _ hnotes]
    rfl

end Executed

end Simulator

end Mos6502
