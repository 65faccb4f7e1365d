/-
A program that comes to its end is run to it.

`Halts n m m'` says what a machine has ahead of it: `n` steps that raise no signal and leave
the program counter off zero, and then a break, after which the machine is `m'`.  Nothing in
it is about batches.  What a batch and a tick do to it is to take some of these steps, as
many as they may or as there are (`Due.batch`, `Due.tick`), so ticks run such a program to
its end wherever the batches are cut, and the last of them may have less to do.

A run stops for one reason only, so the stops among the reports are listed on their own.
-/
import Mathlib.Algebra.Order.Floor.Div
import Mos6502.Proofs.Schedule

namespace Mos6502

/-! ### The stops among the reports -/

/-- The reason that a report of a stop gives. -/
def Event.stopReason? : Event → Option StopReason
  | .stop reason => some reason
  | _ => none

/-- The stops that were reported, the earliest first. -/
def Simulator.stops (s : Simulator) : List StopReason :=
  s.events.toList.filterMap Event.stopReason?

theorem Simulator.stops_report (s : Simulator) (event : Event) :
    (s.report event).stops = s.stops ++ event.stopReason?.toList := by
  rw [stops, events_report, Array.toList_push, List.filterMap_append]
  cases h : event.stopReason? with
  | none => rw [List.filterMap_cons_none h]; rfl
  | some reason => rw [List.filterMap_cons_some h]; rfl

theorem Simulator.stops_stop (s : Simulator) (reason : StopReason) :
    (s.stop reason).stops = s.stops ++ [reason] :=
  stops_report { s with running := false } (.stop reason)

theorem Simulator.stops_endProgram (s : Simulator) :
    s.endProgram.stops = s.stops ++ [.programEnd (s.cpu.pc - 1)] := by
  rw [endProgram, stops_stop, stops_report]
  exact congrArg (· ++ _) (List.append_nil _)

/-! ### A machine that comes to an end -/

namespace Machine

/-- After a number of steps that nobody takes notice of, the machine executes a break. -/
inductive Halts : Nat → Machine → Machine → Prop
  | last {m next : Machine} (hstep : m.step = (next, none))
      (hsignals : next.cpu.signals = [.halt]) : Halts 0 m next.quiet
  | more {n : Nat} {m m' next : Machine} (hstep : m.step = (next, none))
      (hsignals : next.cpu.signals = []) (hpc : next.cpu.pc ≠ 0) (h : Halts n next m') :
      Halts (n + 1) m m'

theorem quiet_of_signals {m : Machine} (h : m.cpu.signals = []) : m.quiet = m := by
  obtain ⟨⟨a, x, y, pc, sp, flags, instructions, signals, memory⟩, random⟩ := m
  cases h
  rfl

end Machine

/-! ### Taking its steps -/

namespace Simulator

open Machine (Halts)

variable {n : Nat} {s : Simulator} {m' next : Machine} {earlier : List StopReason}

theorem takeSignals_of_nil (h : s.cpu.signals = []) : s.takeSignals = s := by
  obtain ⟨machine, running, stepper, config, events⟩ := s
  have hquiet : machine.mapCpu Cpu.clearSignals = machine := Machine.quiet_of_signals h
  simp only [takeSignals, h, mapCpu, hquiet, List.foldl_nil]

theorem takeSignals_of_halt (h : s.cpu.signals = [.halt]) :
    s.takeSignals = { s with machine := s.machine.quiet, running := false } := by
  obtain ⟨machine, running, stepper, config, events⟩ := s
  simp only [takeSignals, h, List.foldl_cons, List.foldl_nil]
  rfl

/-- A step that nobody takes notice of. -/
theorem execute_of_more (hrunning : s.running = true) (hstep : s.machine.step = (next, none))
    (hsignals : next.cpu.signals = []) (hpc : next.cpu.pc ≠ 0) :
    s.execute false = (({ s with machine := next } : Simulator).report .step, none) := by
  obtain ⟨machine, running, stepper, config, events⟩ := s
  have hadvance : advance ⟨machine, running, stepper, config, events⟩ =
      (⟨next, running, stepper, config, events⟩, none) := by
    have htake : takeSignals ⟨next, running, stepper, config, events⟩ =
        ⟨next, running, stepper, config, events⟩ := takeSignals_of_nil hsignals
    rw [advance, hstep]
    simp only [htake]
  have hgoing : running = true := hrunning
  have hended : (report .step ⟨next, running, stepper, config, events⟩).ended false = false := by
    show (next.cpu.pc == 0 || !running && !false) = false
    rw [hgoing, Bool.not_true, Bool.false_and, Bool.or_false, beq_eq_false_iff_ne]
    exact hpc
  rw [execute, if_pos (by simp [hgoing]), hadvance]
  simp only [finish, hended]
  rfl

/-- The break. -/
theorem execute_of_last (hrunning : s.running = true) (hstep : s.machine.step = (next, none))
    (hsignals : next.cpu.signals = [.halt]) :
    s.execute false =
      (endProgram (report .step { s with machine := next.quiet, running := false }), none) := by
  obtain ⟨machine, running, stepper, config, events⟩ := s
  have hadvance : advance ⟨machine, running, stepper, config, events⟩ =
      (⟨next.quiet, false, stepper, config, events⟩, none) := by
    have htake : takeSignals ⟨next, running, stepper, config, events⟩ =
        ⟨next.quiet, false, stepper, config, events⟩ := takeSignals_of_halt hsignals
    rw [advance, hstep]
    simp only [htake]
  have hended :
      (report .step ⟨next.quiet, false, stepper, config, events⟩).ended false = true := by
    show (_ || !false && !false) = true
    rw [Bool.not_false, Bool.and_self, Bool.or_true]
  rw [execute, if_pos (by simp [show running = true from hrunning]), hadvance]
  simp only [finish, hended]
  rfl

/-- A simulator that has a number of instructions to execute until its machine is `m'` and
the end of the program is reported. -/
structure Due (b : Nat) (earlier : List StopReason) (m' : Machine) (n : Nat) (s : Simulator) :
    Prop where
  stepper : s.stepper = false
  batchSize : s.config.batchSize = b
  state : match n with
    | 0 => s.running = false ∧ s.machine = m' ∧
      s.stops = earlier ++ [.programEnd (m'.cpu.pc - 1)]
    | n + 1 => s.running = true ∧ Halts n s.machine m' ∧ s.stops = earlier

namespace Due

variable {b : Nat}

theorem running_eq (h : Due b earlier m' n s) : s.running = decide (0 < n) := by
  cases n with
  | zero => exact h.state.1
  | succ n => exact h.state.1.trans (decide_eq_true n.succ_pos).symm

theorem report_multistep (h : Due b earlier m' n s) : Due b earlier m' n (s.report .multistep) := by
  refine ⟨h.stepper, h.batchSize, ?_⟩
  have hstops : (s.report .multistep).stops = s.stops :=
    (stops_report s .multistep).trans (List.append_nil _)
  cases n with
  | zero => exact ⟨h.state.1, h.state.2.1, hstops.trans h.state.2.2⟩
  | succ n => exact ⟨h.state.1, h.state.2.1, hstops.trans h.state.2.2⟩

/-- An instruction is one less to execute. -/
theorem execute (h : Due b earlier m' (n + 1) s) :
    ∃ t, s.execute false = (t, none) ∧ Due b earlier m' n t := by
  obtain ⟨hrunning, hhalts, hstops⟩ := h.state
  have hstep : ∀ s : Simulator, (s.report .step).stops = s.stops := fun s =>
    (stops_report s .step).trans (List.append_nil _)
  cases hhalts with
  | last hmachine hsignals =>
    refine ⟨_, execute_of_last hrunning hmachine hsignals, h.stepper, h.batchSize, rfl, rfl, ?_⟩
    rw [stops_endProgram, hstep, ← hstops]
    rfl
  | more hmachine hsignals hpc hrest =>
    exact ⟨_, execute_of_more hrunning hmachine hsignals hpc, h.stepper, h.batchSize, hrunning,
      hrest, (hstep _).trans hstops⟩

/-- A batch executes as many instructions as it may, or as there are. -/
theorem batch (h : Due b earlier m' n s) (count executed : Nat) :
    ∃ t, batch count executed s = (t, .ok (executed + min count n)) ∧
      Due b earlier m' (n - count) t := by
  induction count generalizing n executed s with
  | zero => exact ⟨s, by rw [Simulator.batch, Nat.zero_min, Nat.add_zero], h⟩
  | succ count ih =>
    cases n with
    | zero =>
      refine ⟨s, ?_, by rwa [Nat.zero_sub]⟩
      rw [Simulator.batch, if_neg (by simp [h.running_eq]), Nat.min_zero, Nat.add_zero]
    | succ n =>
      obtain ⟨t, hexecute, hdue⟩ := h.execute
      obtain ⟨u, hbatch, hdue'⟩ := ih hdue (executed + 1)
      refine ⟨u, ?_, by rwa [Nat.add_sub_add_right]⟩
      rw [Simulator.batch, if_pos h.state.1, hexecute]
      show Simulator.batch count (executed + 1) t = _
      rw [hbatch, Nat.add_min_add_right, Nat.add_assoc, Nat.add_comm 1]

theorem tick (h : Due b earlier m' n s) :
    ∃ t, s.tick = (t, .ok (min b n)) ∧ Due b earlier m' (n - b) t := by
  cases n with
  | zero =>
    refine ⟨s, ?_, by rwa [Nat.zero_sub]⟩
    rw [Simulator.tick, if_neg (by simp [h.running_eq]), Nat.min_zero]
  | succ n =>
    obtain ⟨t, hbatch, hdue⟩ := h.batch b 0
    refine ⟨t.report .multistep, ?_, hdue.report_multistep⟩
    rw [Simulator.tick, if_pos (by simp [h.running_eq, h.stepper]), h.batchSize, hbatch,
      Nat.zero_add]

theorem ticks (h : Due b earlier m' n s) (count executed : Nat) :
    ∃ t, ticks count executed s = (t, executed + min (count * b) n, none) ∧
      Due b earlier m' (n - count * b) t := by
  induction count generalizing n executed s with
  | zero => exact ⟨s, by simp [Simulator.ticks], by simpa using h⟩
  | succ count ih =>
    obtain ⟨t, htick, hdue⟩ := h.tick
    obtain ⟨u, hticks, hdue'⟩ := ih hdue (executed + min b n)
    have hleft : n - b - count * b = n - (count + 1) * b := by
      rw [Nat.succ_mul]
      omega
    have hdone : executed + min b n + min (count * b) (n - b) =
        executed + min ((count + 1) * b) n := by
      rw [Nat.succ_mul]
      omega
    refine ⟨u, ?_, hleft ▸ hdue'⟩
    rw [Simulator.ticks, htick]
    show Simulator.ticks count (executed + min b n) t = _
    rw [hticks, hdone]

end Due

/-- Ticks run a program to its end, and there are enough of them if each could do its full
batch. -/
theorem ticks_of_halts (h : Halts n s.machine m') (hrunning : s.running = true)
    (hstepper : s.stepper = false) (hbatch : 0 < s.config.batchSize) :
    ∃ t, ticks ((n + 1) ⌈/⌉ s.config.batchSize) 0 s = (t, n + 1, none) ∧ t.machine = m' ∧
      t.running = false ∧ t.stops = s.stops ++ [.programEnd (m'.cpu.pc - 1)] := by
  have hdue : Due s.config.batchSize s.stops m' (n + 1) s :=
    ⟨hstepper, rfl, hrunning, h, rfl⟩
  obtain ⟨t, hticks, hdone⟩ := hdue.ticks ((n + 1) ⌈/⌉ s.config.batchSize) 0
  have henough : n + 1 ≤ (n + 1) ⌈/⌉ s.config.batchSize * s.config.batchSize := by
    rw [Nat.mul_comm]
    exact le_smul_ceilDiv hbatch
  rw [Nat.min_eq_right henough, Nat.zero_add] at hticks
  rw [Nat.sub_eq_zero_of_le henough] at hdone
  exact ⟨t, hticks, hdone.state.2.1, hdone.state.1, hdone.state.2.2⟩

end Simulator

end Mos6502
