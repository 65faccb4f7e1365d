/-
Scheduling does not change what a program computes.

A host may run a program in batches of any size, stop and start it, or ask for single
instructions.  All it can decide is how many steps the machine makes: between two
instructions nothing but the run flag, the stepper flag and the reports changes.  So after
any requests without a fault the machine is the one that `Machine.run` reaches with as many
steps as instructions were counted.

The one thing to take care of are the signals of the processor.  A simulator takes them
after every instruction while a bare machine keeps them, so machines are compared without
them; that no instruction ever looks at them is the first section.
-/
import Mos6502.Proofs.Execution
import Mos6502.Simulator.Basic

namespace Mos6502

/-! ### No instruction looks at pending signals -/

namespace Cpu

theorem clearSignals_executed (s : Cpu) (op : Operation) :
    (s.clearSignals.executed op).clearSignals = (s.executed op).clearSignals := by
  obtain ⟨m, mode⟩ := op
  cases m with
  | asl | lsr | rol | ror | inc | dec => cases mode <;> rfl
  | bpl | bmi | bvc | bvs | bcc | bcs | bne | beq =>
    simp only [executed, apply_ite clearSignals]
    rfl
  | _ =>
    simp only [executed, push_eq, drop_eq]
    rfl

theorem instructions_executed (s : Cpu) (op : Operation) :
    (s.executed op).instructions = s.instructions := by
  obtain ⟨m, mode⟩ := op
  cases m with
  | asl | lsr | rol | ror | inc | dec => cases mode <;> rfl
  | bpl | bmi | bvc | bvs | bcc | bcs | bne | beq =>
    simp only [executed, apply_ite instructions]
    exact ite_self _
  | _ =>
    simp only [executed, push_eq, drop_eq]
    rfl

/-- A step does the same whatever signals are pending. -/
theorem step_clearSignals (s : Cpu) :
    s.clearSignals.step.1.clearSignals = s.step.1.clearSignals ∧
      s.clearSignals.step.2 = s.step.2 := by
  cases hstep : s.step with
  | mk next fault =>
    cases stepped_iff.mpr hstep with
    | output hopcode =>
      have hstep' := stepped_iff.mp (.output (s := s.clearSignals) hopcode)
      rw [hstep']
      exact ⟨rfl, rfl⟩
    | unknown hopcode hdecode =>
      have hstep' := stepped_iff.mp (.unknown (s := s.clearSignals) hopcode hdecode)
      rw [hstep']
      exact ⟨rfl, rfl⟩
    | unimplemented hdecode hop =>
      have hstep' := stepped_iff.mp (.unimplemented (s := s.clearSignals) hdecode hop)
      rw [hstep']
      exact ⟨rfl, rfl⟩
    | executed hdecode hop =>
      have hstep' := stepped_iff.mp (.executed (s := s.clearSignals) hdecode hop)
      rw [hstep']
      exact ⟨congrArg count (clearSignals_executed s _), rfl⟩

/-- A step without a fault is counted once. -/
theorem instructions_step {s : Cpu} (h : s.step.2 = none) :
    s.step.1.instructions = s.instructions + 1 := by
  cases hstep : s.step with
  | mk next fault =>
    rw [hstep] at h
    cases stepped_iff.mpr hstep with
    | output => rfl
    | unknown | unimplemented => cases h
    | executed => exact congrArg (· + 1) (instructions_executed s _)

end Cpu

/-! ### Runs of the bare machine -/

namespace Machine

variable {m m' m'' : Machine} {n k : Nat}

/-- The machine with no signals pending. -/
def quiet (m : Machine) : Machine :=
  m.mapCpu Cpu.clearSignals

/-- The machine after a number of steps, or after the first that faults. -/
def run : Nat → Machine → Machine × Option Fault
  | 0, m => (m, none)
  | n + 1, m =>
    match m.step with
    | (next, none) => run n next
    | (next, some fault) => (next, some fault)

@[simp] theorem quiet_quiet (m : Machine) : m.quiet.quiet = m.quiet := rfl

theorem quiet_step (m : Machine) :
    m.quiet.step.1.quiet = m.step.1.quiet ∧ m.quiet.step.2 = m.step.2 := by
  obtain ⟨hstate, hfault⟩ := Cpu.step_clearSignals m.refresh.cpu
  exact ⟨congrArg (fun cpu => (⟨cpu, m.random.next⟩ : Machine)) hstate, hfault⟩

theorem step_congr (h : m.quiet = m'.quiet) :
    m.step.1.quiet = m'.step.1.quiet ∧ m.step.2 = m'.step.2 := by
  have hm := quiet_step m
  have hm' := quiet_step m'
  rw [h] at hm
  exact ⟨hm.1.symm.trans hm'.1, hm.2.symm.trans hm'.2⟩

/-- Pending signals make no difference to a run. -/
theorem run_congr (n : Nat) (h : m.quiet = m'.quiet) :
    (run n m).1.quiet = (run n m').1.quiet ∧ (run n m).2 = (run n m').2 := by
  induction n generalizing m m' with
  | zero => exact ⟨h, rfl⟩
  | succ n ih =>
    obtain ⟨hstate, hfault⟩ := step_congr h
    rw [run, run]
    cases hstep : m.step with
    | mk next fault =>
      cases hstep' : m'.step with
      | mk next' fault' =>
        rw [hstep, hstep'] at hstate hfault
        subst hfault
        cases fault with
        | none => exact ih hstate
        | some fault => exact ⟨hstate, rfl⟩

theorem run_add (n k : Nat) (m : Machine) (h : (run n m).2 = none) :
    run (n + k) m = run k (run n m).1 := by
  induction n generalizing m with
  | zero => rw [Nat.zero_add, run]
  | succ n ih =>
    rw [Nat.add_right_comm, run]
    rw [run] at h ⊢
    cases hstep : m.step with
    | mk next fault =>
      rw [hstep] at h
      cases fault with
      | none => exact ih next h
      | some fault => exact absurd h (by simp)

/-- A number of steps without a fault leads from one machine to another, up to signals, and
all of them were counted. -/
structure Ran (n : Nat) (m m' : Machine) : Prop where
  fault : (run n m).2 = none
  state : (run n m).1.quiet = m'.quiet
  counted : m'.cpu.instructions = m.cpu.instructions + n

theorem Ran.refl (m : Machine) : Ran 0 m m :=
  ⟨rfl, rfl, rfl⟩

theorem Ran.trans (h : Ran n m m') (h' : Ran k m' m'') : Ran (n + k) m m'' := by
  have hrun := run_congr k h.state
  refine ⟨?_, ?_, ?_⟩
  · rw [run_add n k m h.fault, hrun.2]
    exact h'.fault
  · rw [run_add n k m h.fault, hrun.1]
    exact h'.state
  · rw [h'.counted, h.counted, Nat.add_assoc]

theorem Ran.one (h : m.step.2 = none) (hstate : m' = m.step.1.quiet) : Ran 1 m m' := by
  subst hstate
  have hrun : run 1 m = (m.step.1, none) := by
    rw [run]
    cases hstep : m.step with
    | mk next fault =>
      rw [hstep] at h
      cases h
      rfl
  refine ⟨by rw [hrun], by rw [hrun, quiet_quiet], ?_⟩
  exact Cpu.instructions_step h

end Machine

/-! ### What a simulator does between instructions leaves the machine alone -/

namespace Simulator

open Machine (Ran)

variable {s t : Simulator} {debugging : Bool}

theorem machine_notice (s : Simulator) (signal : Signal) :
    (s.notice signal).machine = s.machine := by
  cases signal <;> rfl

theorem machine_takeSignals (s : Simulator) : s.takeSignals.machine = s.machine.quiet := by
  have fold : ∀ (signals : List Signal) (s : Simulator),
      (signals.foldl notice s).machine = s.machine := by
    intro signals
    induction signals with
    | nil => intro s; rfl
    | cons signal rest ih =>
      intro s
      rw [List.foldl_cons, ih, machine_notice]
  exact fold s.cpu.signals _

theorem machine_advance (s : Simulator) :
    s.advance.1.machine = s.machine.step.1.quiet ∧ s.advance.2 = s.machine.step.2 := by
  obtain ⟨machine, running, stepper, config, events⟩ := s
  exact ⟨machine_takeSignals _, rfl⟩

theorem machine_finish (s : Simulator) (debugging : Bool) :
    (s.finish debugging).machine = s.machine := by
  unfold finish
  simp only
  split <;> rfl

/-- Whether or not it can be executed, an instruction is one step of the machine. -/
theorem machine_execute (s : Simulator) (debugging : Bool) :
    (s.execute debugging).1.machine = s.machine ∨
      (s.execute debugging).1.machine = s.machine.step.1.quiet := by
  have hmachine := (machine_advance s).1
  unfold execute
  split
  · refine .inr ?_
    cases hadvance : s.advance with
    | mk next fault =>
      rw [hadvance] at hmachine
      cases fault with
      | some fault => exact hmachine
      | none => exact (machine_finish next debugging).trans hmachine
  · exact .inl rfl

/-! ### Batches and ticks are made of instructions -/

/-- What every instruction of a running program keeps, a batch keeps. -/
theorem batch_keeps {P : Simulator → Prop} (hkeeps : ∀ s, P s → P (s.execute false).1)
    (n executed : Nat) (h : P s) : P (batch n executed s).1 := by
  induction n generalizing executed s with
  | zero => exact h
  | succ n ih =>
    rw [batch]
    split
    · have hfirst := hkeeps s h
      cases hexecute : s.execute false with
      | mk next fault =>
        rw [hexecute] at hfirst
        cases fault with
        | some fault => exact hfirst
        | none => exact ih (executed + 1) hfirst
    · exact h

/-- What came of a tick. -/
inductive Ticked (s t : Simulator) : Except Fault Nat → Prop
  /-- Nothing, as no program is running or the stepper is on. -/
  | idle (heq : t = s) : Ticked s t (.ok 0)
  | done {u : Simulator} {executed : Nat}
      (hbatch : batch s.config.batchSize 0 s = (u, .ok executed))
      (heq : t = u.report .multistep) : Ticked s t (.ok executed)
  | failed {fault : Fault} (hbatch : batch s.config.batchSize 0 s = (t, .error fault)) :
      Ticked s t (.error fault)

theorem ticked_tick (s : Simulator) : Ticked s s.tick.1 s.tick.2 := by
  unfold tick
  split
  · cases hbatch : batch s.config.batchSize 0 s with
    | mk next answer =>
      cases answer with
      | ok executed => exact .done hbatch rfl
      | error fault => exact .failed hbatch
  · exact .idle rfl

theorem ticked_of_tick {answer : Except Fault Nat} (h : s.tick = (t, answer)) :
    Ticked s t answer := by
  have hticked := ticked_tick s
  rwa [h] at hticked

/-- What every instruction of a running program and the report of a batch keep, a tick keeps. -/
theorem Ticked.keeps {answer : Except Fault Nat} {P : Simulator → Prop} (h : Ticked s t answer)
    (hs : P s) (hexecute : ∀ s, P s → P (s.execute false).1)
    (hreport : ∀ s, P s → P (s.report .multistep)) : P t := by
  have hkept := batch_keeps hexecute s.config.batchSize 0 hs
  cases h with
  | idle heq => rwa [heq]
  | done hbatch heq =>
    rw [hbatch] at hkept
    exact heq ▸ hreport _ hkept
  | failed hbatch =>
    rw [hbatch] at hkept
    exact hkept

/-! ### Counting steps -/

/-- Without a fault, `execute` makes one step or none. -/
theorem ran_execute (h : s.execute debugging = (t, none)) : ∃ n, Ran n s.machine t.machine := by
  obtain ⟨hmachine, hfault⟩ := machine_advance s
  unfold execute at h
  split at h
  · cases hadvance : s.advance with
    | mk next fault =>
      rw [hadvance] at h hmachine hfault
      cases fault with
      | some fault => simp at h
      | none =>
        simp only [Prod.mk.injEq, and_true] at h
        refine ⟨1, Ran.one hfault.symm ?_⟩
        rw [← h, machine_finish, hmachine]
  · simp only [Prod.mk.injEq, and_true] at h
    exact ⟨0, h ▸ Ran.refl _⟩

theorem ran_batch {count executed total : Nat} (h : batch count executed s = (t, .ok total)) :
    ∃ n, Ran n s.machine t.machine := by
  induction count generalizing executed s with
  | zero =>
    rw [batch] at h
    cases h
    exact ⟨0, Ran.refl _⟩
  | succ count ih =>
    rw [batch] at h
    split at h
    · cases hexecute : s.execute false with
      | mk next fault =>
        rw [hexecute] at h
        cases fault with
        | some fault => simp at h
        | none =>
          obtain ⟨n, hfirst⟩ := ran_execute hexecute
          obtain ⟨k, hrest⟩ := ih h
          exact ⟨n + k, hfirst.trans hrest⟩
    · cases h
      exact ⟨0, Ran.refl _⟩

theorem ran_tick {total : Nat} (h : s.tick = (t, .ok total)) : ∃ n, Ran n s.machine t.machine := by
  cases ticked_of_tick h with
  | idle heq => exact ⟨0, heq ▸ Ran.refl s.machine⟩
  | done hbatch heq =>
    obtain ⟨n, hran⟩ := ran_batch hbatch
    exact ⟨n, heq ▸ hran⟩

/-! ### Schedules -/

/-- What a host may ask for while a program is in the machine. -/
inductive Request where
  /-- Start, or stop. -/
  | toggle
  | tick
  /-- Execute one instruction, running or not. -/
  | step
  | setStepper (on : Bool)
deriving DecidableEq, Repr

/-- The simulator after a request, and the fault that it ran into. -/
def obey (s : Simulator) : Request → Simulator × Option Fault
  | .toggle => (s.toggle, none)
  | .tick =>
    match s.tick with
    | (s, .ok _) => (s, none)
    | (s, .error fault) => (s, some fault)
  | .step => s.step
  | .setStepper on => (s.setStepper on, none)

/-- The simulator after some requests, or after the first that runs into a fault. -/
def perform : List Request → Simulator → Simulator × Option Fault
  | [], s => (s, none)
  | request :: rest, s =>
    match s.obey request with
    | (s, none) => perform rest s
    | (s, some fault) => (s, some fault)

theorem ran_obey {request : Request} (h : s.obey request = (t, none)) :
    ∃ n, Ran n s.machine t.machine := by
  cases request with
  | toggle =>
    cases h
    refine ⟨0, ?_⟩
    have : s.toggle.machine = s.machine := by
      unfold toggle
      split <;> rfl
    rw [this]
    exact Ran.refl _
  | tick =>
    simp only [obey] at h
    cases htick : s.tick with
    | mk next answer =>
      rw [htick] at h
      cases answer with
      | error fault => simp at h
      | ok executed =>
        cases h
        exact ran_tick htick
  | step => exact ran_execute h
  | setStepper on =>
    cases h
    exact ⟨0, Ran.refl _⟩

theorem ran_perform {requests : List Request} (h : perform requests s = (t, none)) :
    ∃ n, Ran n s.machine t.machine := by
  induction requests generalizing s with
  | nil =>
    cases h
    exact ⟨0, Ran.refl _⟩
  | cons request rest ih =>
    rw [perform] at h
    cases hobey : s.obey request with
    | mk next fault =>
      rw [hobey] at h
      cases fault with
      | some fault => simp at h
      | none =>
        obtain ⟨n, hfirst⟩ := ran_obey hobey
        obtain ⟨k, hrest⟩ := ih h
        exact ⟨n + k, hfirst.trans hrest⟩

/--
**Scheduling does not change what a program computes.**  After any requests without a fault
the machine is, up to pending signals, the one that the machine of the start reaches in as
many steps as instructions were counted, and none of these steps faults.  So two schedules
from the same machine that count the same number of instructions end in the same machine,
whatever their batch sizes and run flags.
-/
theorem schedule_irrelevant {s t : Simulator} {requests : List Request}
    (h : perform requests s = (t, none)) :
    (∃ n m, t.cpu.instructions = s.cpu.instructions + n ∧ s.machine.run n = (m, none) ∧
        t.machine.quiet = m.quiet) ∧
      ∀ s' t' requests', s'.machine.quiet = s.machine.quiet →
        perform requests' s' = (t', none) → t'.cpu.instructions = t.cpu.instructions →
        t'.machine.quiet = t.machine.quiet := by
  obtain ⟨n, hran⟩ := ran_perform h
  refine ⟨⟨n, (s.machine.run n).1, hran.counted, ?_, hran.state.symm⟩, ?_⟩
  · rw [← hran.fault]
  · intro s' t' requests' hstart h' hcount
    obtain ⟨k, hran'⟩ := ran_perform h'
    have hinstructions : s'.machine.cpu.instructions = s.machine.cpu.instructions :=
      congrArg (fun m => m.cpu.instructions) hstart
    have hk : k = n := by
      have := hran.counted
      have := hran'.counted
      have : t'.machine.cpu.instructions = t.machine.cpu.instructions := hcount
      omega
    subst hk
    rw [← hran'.state, ← hran.state]
    exact (Machine.run_congr k hstart).1

/-- Ticks up to a break and a single instruction behind it, against single instructions. -/
theorem schedule_irrelevant_past_break :
    ∃ t t', perform [.toggle, .tick, .tick, .setStepper true, .step]
        (ofMemory (Memory.empty.set 0x0600 0xe8) { batchSize := 3 }) = (t, none) ∧
      perform [.step, .step, .step]
        (ofMemory (Memory.empty.set 0x0600 0xe8) {}) = (t', none) ∧
      t'.machine.quiet = t.machine.quiet := by
  have without_fault : ∀ {requests : List Request} {s : Simulator},
      (perform requests s).2 = none → perform requests s = ((perform requests s).1, none) :=
    fun h => Prod.ext rfl h
  have hticks := without_fault (show (perform [.toggle, .tick, .tick, .setStepper true, .step]
    (ofMemory (Memory.empty.set 0x0600 0xe8) { batchSize := 3 })).2 = none by decide +kernel)
  have hsteps := without_fault (show (perform [.step, .step, .step]
    (ofMemory (Memory.empty.set 0x0600 0xe8) {})).2 = none by decide +kernel)
  refine ⟨_, _, hticks, hsteps, ?_⟩
  refine (schedule_irrelevant hticks).2 (ofMemory (Memory.empty.set 0x0600 0xe8) {}) _
    [.step, .step, .step] ?_ hsteps ?_
  · rfl
  · decide +kernel

end Simulator

end Mos6502
