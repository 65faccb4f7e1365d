/-
How many instructions a tick executes.

A batch goes on while there are instructions left to execute and the program is running, and the
program stops running in the middle of an instruction.  So the count is easy to miss by one: at
the last instruction of a batch, at the first, and with a batch of none.

The exact count is said in terms of the bare machine.  Every instruction has a verdict on the
program that it belongs to: it goes on, it is over, or it fails.  Signals that are pending do not
enter into it, so it makes no difference that a simulator takes them and a bare machine keeps
them.  A batch executes instructions up to the first whose verdict is not to go on, and this one
as well (`batch_of_goesOn`); what this one leaves is one case for each verdict.

Two ticks in a row are then a longer one, because the first instruction of that kind is at one
place, whether one starts to count at the first tick or at the second.
-/
import Mos6502.Proofs.Failing

namespace Mos6502

/-! ### What an instruction means for the program -/

/-- What becomes of a program with one of its instructions. -/
inductive Verdict where
  | goesOn
  | ends
  | fails (fault : Fault)
deriving DecidableEq, Repr

namespace Machine

variable {m m' : Machine} {n k : Nat} {fault : Fault}

/-- What becomes of the program with the next instruction.  It ends with a break, and with an
instruction behind which the program counter is zero. -/
def verdict (m : Machine) : Verdict :=
  match m.step.2 with
  | some fault => .fails fault
  | none => if m.breaks || m.step.1.cpu.pc == 0 then .ends else .goesOn

theorem verdict_eq_fails_iff : m.verdict = .fails fault ↔ m.step.2 = some fault := by
  unfold verdict
  split
  · rename_i hfault
    rw [hfault, Verdict.fails.injEq, Option.some.injEq]
  · rename_i hnone
    rw [hnone]
    split <;> simp

theorem verdict_eq_ends_iff :
    m.verdict = .ends ↔
      m.step.2 = none ∧ (m.breaks = true ∨ m.step.1.cpu.pc = 0) := by
  unfold verdict
  split
  · rename_i hfault
    simp [hfault]
  · rename_i hnone
    split
    · rename_i hover
      simpa [hnone] using hover
    · rename_i hgoes
      simpa [hnone] using hgoes

theorem verdict_eq_goesOn_iff :
    m.verdict = .goesOn ↔
      m.step.2 = none ∧ m.breaks = false ∧ m.step.1.cpu.pc ≠ 0 := by
  unfold verdict
  split
  · rename_i hfault
    simp [hfault]
  · rename_i hnone
    split
    · rename_i hover
      simpa [hnone, imp_iff_not_or] using hover
    · rename_i hgoes
      simpa [hnone] using hgoes

/-- Pending signals make no difference to it. -/
theorem verdict_congr (h : m.quiet = m'.quiet) : m.verdict = m'.verdict := by
  obtain ⟨hstate, hfault⟩ := step_congr h
  have hbreaks : m.breaks = m'.breaks := (congrArg breaks h :)
  have hpc : m.step.1.cpu.pc = m'.step.1.cpu.pc := congrArg (fun m => m.cpu.pc) hstate
  rw [verdict, verdict, hfault, hbreaks, hpc]

/-! ### The first instruction that does not go on -/

/-- A program goes on for a number of instructions. -/
def GoesOn (m : Machine) (n : Nat) : Prop :=
  ∀ k < n, (m.run k).1.verdict = .goesOn

/-- A program goes on for a number of instructions, and not with the next. -/
structure Turns (m : Machine) (n : Nat) (v : Verdict) : Prop where
  goesOn : m.GoesOn n
  verdict : (m.run n).1.verdict = v
  stops : v ≠ .goesOn

theorem run_one (m : Machine) : m.run 1 = m.step := by
  rw [run]
  cases hstep : m.step with
  | mk next fault =>
    cases fault with
    | none => rfl
    | some fault => rfl

theorem GoesOn.mono (h : m.GoesOn n) (hk : k ≤ n) : m.GoesOn k :=
  fun i hi => h i (Nat.lt_of_lt_of_le hi hk)

/-- A program that goes on does not fail. -/
theorem GoesOn.run_snd (h : m.GoesOn n) : (m.run n).2 = none := by
  induction n with
  | zero => rfl
  | succ n ih =>
    have hbefore := ih (h.mono n.le_succ)
    rw [run_add n 1 m hbefore, run_one]
    exact (verdict_eq_goesOn_iff.mp (h n n.lt_succ_self)).1

/-- Behind instructions with which a program goes on, its run is that of the machine they leave. -/
theorem GoesOn.quiet_run_add (h : m.GoesOn n) (hm : m'.quiet = (m.run n).1.quiet) (k : Nat) :
    (m'.run k).1.quiet = (m.run (n + k)).1.quiet := by
  rw [run_add n k m h.run_snd]
  exact (run_congr k hm).1

theorem GoesOn.verdict_run_add (h : m.GoesOn n) (hm : m'.quiet = (m.run n).1.quiet) (k : Nat) :
    (m'.run k).1.verdict = (m.run (n + k)).1.verdict :=
  verdict_congr (h.quiet_run_add hm k)

theorem GoesOn.add (h : m.GoesOn n) (hm : m'.quiet = (m.run n).1.quiet) (h' : m'.GoesOn k) :
    m.GoesOn (n + k) := by
  intro i hi
  by_cases hlt : i < n
  · exact h i hlt
  · obtain ⟨j, rfl⟩ := Nat.exists_eq_add_of_le (Nat.le_of_not_lt hlt)
    rw [← h.verdict_run_add hm]
    exact h' j (Nat.lt_of_add_lt_add_left hi)

theorem GoesOn.turns_add {v : Verdict} (h : m.GoesOn n) (hm : m'.quiet = (m.run n).1.quiet)
    (h' : m'.Turns k v) : m.Turns (n + k) v := by
  refine ⟨h.add hm h'.goesOn, ?_, h'.stops⟩
  rw [← h.verdict_run_add hm]
  exact h'.verdict

/-- A program goes on for a number of instructions or there is a first with which it does not. -/
theorem goesOn_or_turns (m : Machine) (n : Nat) :
    m.GoesOn n ∨ ∃ k < n, ∃ v, m.Turns k v := by
  induction n with
  | zero => exact Or.inl fun k hk => absurd hk k.not_lt_zero
  | succ n ih =>
    rcases ih with hgoes | ⟨k, hk, v, hturns⟩
    · by_cases hnext : (m.run n).1.verdict = .goesOn
      · refine Or.inl ?_
        intro k hk
        rcases Nat.lt_succ_iff_lt_or_eq.mp hk with hlt | rfl
        · exact hgoes k hlt
        · exact hnext
      · exact Or.inr ⟨n, n.lt_succ_self, _, hgoes, rfl, hnext⟩
    · exact Or.inr ⟨k, Nat.lt_succ_of_lt hk, v, hturns⟩

/-- What a program does within a number of instructions, if it does not fail: how many of them
it executes, and whether it goes on then. -/
inductive Plays (m : Machine) (size : Nat) : Nat → Bool → Prop
  | goesOn (h : m.GoesOn size) : Plays m size size true
  | ends {last : Nat} (hlast : last < size) (h : m.Turns last .ends) :
    Plays m size (last + 1) false

/-- A program that is over has nothing to do within more instructions. -/
theorem Plays.more {size : Nat} (h : m.Plays size n false) (more : Nat) :
    m.Plays (size + more) n false := by
  cases h with
  | ends hlast hturns => exact .ends (Nat.lt_add_right more hlast) hturns

/-- A program that goes on does what the machine does that it has come to. -/
theorem Plays.add {size more : Nat} {running : Bool} (h : m.Plays size n true)
    (hm : m'.quiet = (m.run n).1.quiet) (h' : m'.Plays more k running) :
    m.Plays (size + more) (n + k) running := by
  cases h with
  | goesOn hgoes =>
    cases h' with
    | goesOn hgoes' => exact .goesOn (hgoes.add hm hgoes')
    | ends hlast hturns =>
      exact .ends (Nat.add_lt_add_left hlast n) (hgoes.turns_add hm hturns)

theorem Plays.quiet_run_add {size : Nat} (h : m.Plays size n true)
    (hm : m'.quiet = (m.run n).1.quiet) (k : Nat) :
    (m'.run k).1.quiet = (m.run (n + k)).1.quiet := by
  cases h with
  | goesOn hgoes => exact hgoes.quiet_run_add hm k

end Machine

/-! ### One instruction -/

namespace Simulator

open Machine (GoesOn Turns)

variable {s t u : Simulator} {n k executed : Nat} {fault : Fault} {running : Bool}
  {reasons : List StopReason}

/-- What is left of a simulator after a number of instructions: the machine that they lead to,
whether it is running, the stops that were reported, and all that no instruction changes. -/
structure Went (s : Simulator) (n : Nat) (running : Bool) (reasons : List StopReason)
    (t : Simulator) : Prop where
  machine : t.machine = (s.machine.run n).1.quiet
  running : t.running = running
  stops : t.stops = s.stops ++ reasons
  stepper : t.stepper = s.stepper
  config : t.config = s.config

theorem Went.signals (h : Went s n running reasons t) : t.cpu.signals = [] :=
  congrArg (fun m => m.cpu.signals) h.machine

theorem Went.quiet_machine (h : Went s n running reasons t) :
    t.machine.quiet = (s.machine.run n).1.quiet := by
  rw [h.machine, Machine.quiet_quiet]

theorem Went.report (h : Went s n running reasons t) (event : Event)
    (hevent : event.stopReason? = none) : Went s n running reasons (t.report event) := by
  refine ⟨h.machine, h.running, ?_, h.stepper, h.config⟩
  rw [stops_report, hevent, Option.toList_none, List.append_nil]
  exact h.stops

theorem Went.stop (h : Went s n running [] t) (reason : StopReason) :
    Went s n false [reason] (t.stop reason) := by
  refine ⟨h.machine, rfl, ?_, h.stepper, h.config⟩
  rw [stops_stop, h.stops, List.append_nil]

theorem Went.endProgram (h : Went s n running [] t) :
    Went s n false [.programEnd (t.endProgram.cpu.pc - 1)] t.endProgram :=
  (h.report _ rfl).stop _

theorem Went.fail (h : Went s n running [] t) (fault : Fault) :
    Went s n false [faultReason fault] (t.fail fault) :=
  (h.report _ rfl).stop _

/-- Another instruction behind some with which the program goes on. -/
theorem Went.next (h : Went s n true [] t) (hgoes : s.machine.GoesOn n)
    (h' : Went t 1 running reasons u) : Went s (n + 1) running reasons u := by
  refine ⟨?_, h'.running, ?_, h'.stepper.trans h.stepper, h'.config.trans h.config⟩
  · rw [h'.machine]
    exact hgoes.quiet_run_add h.quiet_machine 1
  · rw [h'.stops, h.stops, List.append_nil]

/-- Taking signals neither stops the program with a report nor switches anything. -/
theorem takeSignals_keeps (s : Simulator) :
    s.takeSignals.stops = s.stops ∧ s.takeSignals.stepper = s.stepper ∧
      s.takeSignals.config = s.config := by
  have fold : ∀ (signals : List Signal) (s : Simulator),
      (signals.foldl notice s).stops = s.stops ∧ (signals.foldl notice s).stepper = s.stepper ∧
        (signals.foldl notice s).config = s.config := by
    intro signals
    induction signals with
    | nil => exact fun s => ⟨rfl, rfl, rfl⟩
    | cons signal rest ih =>
      intro s
      obtain ⟨hstops, hstepper, hconfig⟩ := ih (s.notice signal)
      have hnotice : (s.notice signal).stops = s.stops := by
        cases signal with
        | halt => rfl
        | filled | emptied | output => exact (stops_report s _).trans (List.append_nil _)
      refine ⟨hstops.trans hnotice, hstepper.trans ?_, hconfig.trans ?_⟩
      · cases signal <;> rfl
      · cases signal <;> rfl
  exact fold s.cpu.signals (s.mapCpu Cpu.clearSignals)

/-- The machine makes its step, and a break ends the run. -/
theorem went_advance (hs : s.running = true) (hsignals : s.cpu.signals = []) :
    Went s 1 (!s.machine.breaks) [] s.advance.1 := by
  obtain ⟨hstops, hstepper, hconfig⟩ := takeSignals_keeps { s with machine := s.machine.step.1 }
  obtain ⟨-, -, -, hrunning⟩ := adds_takeSignals { s with machine := s.machine.step.1 }
  refine ⟨?_, ?_, hstops.trans (List.append_nil _).symm, hstepper, hconfig⟩
  · rw [(machine_advance s).1, Machine.run_one]
  · rw [← Machine.contains_halt_step hsignals, ← Bool.true_and (!_), ← hs]
    exact hrunning

/-- An instruction that does not fail: the step is reported, and the end of the program if this
was it. -/
theorem execute_of_step (hs : s.running = true) (hstep : s.machine.step.2 = none) :
    s.execute false = (s.advance.1.finish false, none) := by
  have hadvance : s.advance = (s.advance.1, none) :=
    Prod.ext rfl ((machine_advance s).2.trans hstep)
  rw [execute, if_pos (by simp [hs]), hadvance]

theorem ended_report (t : Simulator) (event : Event) :
    (t.report event).ended false = (t.cpu.pc == 0 || !t.running) := by
  rw [ended, running_report, Bool.not_false, Bool.and_true]
  rfl

theorem ended_advance (hs : s.running = true) (hsignals : s.cpu.signals = []) :
    (s.advance.1.report .step).ended false =
      (s.machine.step.1.cpu.pc == 0 || s.machine.breaks) := by
  have hwent := went_advance hs hsignals
  have hpc : s.advance.1.cpu.pc = s.machine.step.1.cpu.pc :=
    congrArg (fun m => m.cpu.pc) (machine_advance s).1
  rw [ended_report, hpc, hwent.running, Bool.not_not]

theorem execute_of_goesOn (hs : s.running = true) (hsignals : s.cpu.signals = [])
    (h : s.machine.verdict = .goesOn) :
    ∃ t, s.execute false = (t, none) ∧ Went s 1 true [] t := by
  obtain ⟨hstep, hbreaks, hpc⟩ := Machine.verdict_eq_goesOn_iff.mp h
  have hwent := went_advance hs hsignals
  have hended : (s.advance.1.report .step).ended false = false := by
    rw [ended_advance hs hsignals, hbreaks, Bool.or_false]
    exact beq_eq_false_iff_ne.mpr hpc
  rw [hbreaks] at hwent
  refine ⟨s.advance.1.report .step, ?_, hwent.report _ rfl⟩
  rw [execute_of_step hs hstep, finish, hended]
  rfl

theorem execute_of_ends (hs : s.running = true) (hsignals : s.cpu.signals = [])
    (h : s.machine.verdict = .ends) :
    ∃ t, s.execute false = (t, none) ∧ Went s 1 false [.programEnd (t.cpu.pc - 1)] t := by
  obtain ⟨hstep, hover⟩ := Machine.verdict_eq_ends_iff.mp h
  have hwent := (went_advance hs hsignals).report .step rfl
  have hended : (s.advance.1.report .step).ended false = true := by
    rw [ended_advance hs hsignals, Bool.or_comm]
    simpa using hover
  refine ⟨(s.advance.1.report .step).endProgram, ?_, hwent.endProgram⟩
  rw [execute_of_step hs hstep, finish, hended]
  rfl

theorem execute_of_fails (hs : s.running = true) (hsignals : s.cpu.signals = [])
    (h : s.machine.verdict = .fails fault) :
    ∃ t, s.execute false = (t, some fault) ∧ Went s 1 false [faultReason fault] t := by
  have hstep := Machine.verdict_eq_fails_iff.mp h
  have hwent := went_advance hs hsignals
  have hadvance : s.advance = (s.advance.1, some fault) :=
    Prod.ext rfl ((machine_advance s).2.trans hstep)
  refine ⟨s.advance.1.fail fault, ?_, hwent.fail fault⟩
  rw [execute, if_pos (by simp [hs]), hadvance]

/-! ### A batch -/

/-- As long as a program goes on, a batch executes instruction after instruction. -/
theorem batch_of_goesOn (hs : s.running = true) (hsignals : s.cpu.signals = [])
    (h : s.machine.GoesOn k) :
    ∃ t, Went s k true [] t ∧
      ∀ n executed, batch (k + n) executed s = batch n (executed + k) t := by
  induction k with
  | zero =>
    refine ⟨s, ⟨(Machine.quiet_of_signals hsignals).symm, hs, (List.append_nil _).symm, rfl, rfl⟩,
      ?_⟩
    intro n executed
    rw [Nat.zero_add, Nat.add_zero]
  | succ k ih =>
    obtain ⟨t, hwent, hbatch⟩ := ih (h.mono k.le_succ)
    have hverdict : t.machine.verdict = .goesOn := by
      rw [Machine.verdict_congr hwent.quiet_machine]
      exact h k k.lt_succ_self
    obtain ⟨u, hexecute, hnext⟩ := execute_of_goesOn hwent.running hwent.signals hverdict
    refine ⟨u, hwent.next (h.mono k.le_succ) hnext, ?_⟩
    intro n executed
    rw [Nat.add_right_comm, Nat.add_assoc, hbatch, batch, if_pos hwent.running, hexecute]
    rfl

/-- A batch comes to the first instruction with which the program does not go on, and may still
execute it. -/
theorem batch_of_turns {v : Verdict} (hs : s.running = true) (hsignals : s.cpu.signals = [])
    (h : s.machine.Turns k v) (hk : k < n) :
    ∃ t left, Went s k true [] t ∧ t.machine.verdict = v ∧
      batch n 0 s = batch (left + 1) k t := by
  obtain ⟨t, hwent, hbatch⟩ := batch_of_goesOn hs hsignals h.goesOn
  obtain ⟨left, rfl⟩ := Nat.exists_eq_add_of_lt hk
  refine ⟨t, left, hwent, ?_, ?_⟩
  · rw [Machine.verdict_congr hwent.quiet_machine]
    exact h.verdict
  · rw [Nat.add_assoc, hbatch, Nat.zero_add]

/-! ### A tick -/

theorem tick_of_idle (h : s.running = false ∨ s.stepper = true) : s.tick = (s, .ok 0) := by
  have hidle : (s.running && !s.stepper) = false := by
    rcases h with h | h
    · rw [h, Bool.false_and]
    · rw [h, Bool.not_true, Bool.and_false]
  rw [tick, if_neg (by simp [hidle])]

section

variable (hs : s.running = true) (hstepper : s.stepper = false) (hsignals : s.cpu.signals = [])

include hs hstepper hsignals

theorem tick_of_goesOn (h : s.machine.GoesOn s.config.batchSize) :
    ∃ t, s.tick = (t, .ok s.config.batchSize) ∧ Went s s.config.batchSize true [] t := by
  obtain ⟨t, hwent, hbatch⟩ := batch_of_goesOn hs hsignals h
  have hall : batch s.config.batchSize 0 s = (t, .ok s.config.batchSize) := by
    have hlast := hbatch 0 0
    rwa [Nat.add_zero, Nat.zero_add] at hlast
  refine ⟨t.report .multistep, ?_, hwent.report _ rfl⟩
  rw [tick, if_pos (by simp [hs, hstepper]), hall]

theorem tick_of_ends (hk : k < s.config.batchSize) (h : s.machine.Turns k .ends) :
    ∃ t, s.tick = (t, .ok (k + 1)) ∧ Went s (k + 1) false [.programEnd (t.cpu.pc - 1)] t := by
  obtain ⟨t, left, hwent, hverdict, hbatch⟩ := batch_of_turns hs hsignals h hk
  obtain ⟨u, hexecute, hlast⟩ := execute_of_ends hwent.running hwent.signals hverdict
  have hall : batch s.config.batchSize 0 s = (u, .ok (k + 1)) := by
    rw [hbatch, batch, if_pos hwent.running, hexecute]
    exact batch_of_stopped hlast.running left (k + 1)
  refine ⟨u.report .multistep, ?_, (hwent.next h.goesOn hlast).report _ rfl⟩
  rw [tick, if_pos (by simp [hs, hstepper]), hall]

theorem tick_of_fails (hk : k < s.config.batchSize) (h : s.machine.Turns k (.fails fault)) :
    ∃ t, s.tick = (t, .error fault) ∧ Went s (k + 1) false [faultReason fault] t := by
  obtain ⟨t, left, hwent, hverdict, hbatch⟩ := batch_of_turns hs hsignals h hk
  obtain ⟨u, hexecute, hlast⟩ := execute_of_fails hwent.running hwent.signals hverdict
  have hall : batch s.config.batchSize 0 s = (u, .error fault) := by
    rw [hbatch, batch, if_pos hwent.running, hexecute]
  refine ⟨u, ?_, hwent.next h.goesOn hlast⟩
  rw [tick, if_pos (by simp [hs, hstepper]), hall]

/-- What a program does within the size of a batch, a tick does. -/
theorem tick_of_plays (h : s.machine.Plays s.config.batchSize n running) :
    ∃ t reasons, s.tick = (t, .ok n) ∧ Went s n running reasons t := by
  cases h with
  | goesOn hgoes =>
    obtain ⟨t, htick, hwent⟩ := tick_of_goesOn hs hstepper hsignals hgoes
    exact ⟨t, _, htick, hwent⟩
  | ends hlast hturns =>
    obtain ⟨t, htick, hwent⟩ := tick_of_ends hs hstepper hsignals hlast hturns
    exact ⟨t, _, htick, hwent⟩

/-- And a tick without a fault does nothing else. -/
theorem plays_of_tick (h : s.tick = (t, .ok n)) :
    ∃ running reasons, s.machine.Plays s.config.batchSize n running ∧
      Went s n running reasons t := by
  rcases s.machine.goesOn_or_turns s.config.batchSize with hgoes | ⟨k, hk, v, hturns⟩
  · obtain ⟨_, htick, hwent⟩ := tick_of_goesOn hs hstepper hsignals hgoes
    rw [htick] at h
    cases h
    exact ⟨true, _, .goesOn hgoes, hwent⟩
  · cases v with
    | goesOn => exact absurd rfl hturns.stops
    | fails fault =>
      obtain ⟨_, htick, -⟩ := tick_of_fails hs hstepper hsignals hk hturns
      rw [htick] at h
      cases h
    | ends =>
      obtain ⟨_, htick, hwent⟩ := tick_of_ends hs hstepper hsignals hk hturns
      rw [htick] at h
      cases h
      exact ⟨false, _, .ends hk hturns, hwent⟩

end

/-! ### Two ticks in a row -/

/-- The simulator with another size of its batches. -/
def withBatch (s : Simulator) (size : Nat) : Simulator :=
  { s with config.batchSize := size }

/-- Two ticks without a fault do what one does whose batch is as large as both together. -/
theorem tick_withBatch_add {size more : Nat} (hsignals : s.cpu.signals = [])
    (h : (s.withBatch size).tick = (t, .ok n)) (h' : (t.withBatch more).tick = (u, .ok k)) :
    ∃ w, (s.withBatch (size + more)).tick = (w, .ok (n + k)) ∧ w.machine = u.machine ∧
      w.running = u.running := by
  by_cases hidle : s.running = false ∨ s.stepper = true
  · rw [tick_of_idle (s := s.withBatch size) hidle] at h
    cases h
    rw [tick_of_idle (s := (s.withBatch size).withBatch more) hidle] at h'
    cases h'
    exact ⟨s.withBatch (size + more), tick_of_idle hidle, rfl, rfl⟩
  rw [not_or, Bool.not_eq_false, Bool.not_eq_true] at hidle
  obtain ⟨hs, hstepper⟩ := hidle
  obtain ⟨running, _, hplays, hwent⟩ :=
    plays_of_tick (s := s.withBatch size) hs hstepper hsignals h
  cases running with
  | false =>
    rw [tick_of_idle (s := t.withBatch more) (Or.inl hwent.running)] at h'
    cases h'
    obtain ⟨w, _, htick, hwhole⟩ := tick_of_plays (s := s.withBatch (size + more)) hs hstepper
      hsignals (hplays.more more)
    exact ⟨w, htick, hwhole.machine.trans hwent.machine.symm,
      hwhole.running.trans hwent.running.symm⟩
  | true =>
    obtain ⟨running, _, hplays', hwent'⟩ := plays_of_tick (s := t.withBatch more) hwent.running
      (hwent.stepper.trans hstepper) hwent.signals h'
    obtain ⟨w, _, htick, hwhole⟩ := tick_of_plays (s := s.withBatch (size + more)) hs hstepper
      hsignals (hplays.add hwent.quiet_machine hplays')
    have hsame : w.machine = u.machine := by
      rw [hwhole.machine, hwent'.machine]
      exact (hplays.quiet_run_add hwent.quiet_machine k).symm
    exact ⟨w, htick, hsame, hwhole.running.trans hwent'.running.symm⟩

/--
**A tick executes exactly the right number of instructions.**  With no program running, or with
the stepper on, it executes none and changes nothing.  Otherwise it executes as many as its batch
is large, and the program is still running then, unless there is one among them that ends the
program or fails.  The first of these is the last to be executed.  If it is a break, or leaves
the program counter at zero, then all up to this one are counted, and the one stop reported is the
end of the program at the address before the program counter; if it fails, so does the tick.  In
each case the machine is the one that so many steps lead to.  And two ticks without a fault do
what one does whose batch is as large as both together.
-/
theorem tick_executes_exactly {s : Simulator} (hsignals : s.cpu.signals = []) :
    (s.running = false ∨ s.stepper = true → s.tick = (s, .ok 0)) ∧
      (s.running = true → s.stepper = false →
        (s.machine.GoesOn s.config.batchSize →
          ∃ t, s.tick = (t, .ok s.config.batchSize) ∧ Went s s.config.batchSize true [] t) ∧
        (∀ k < s.config.batchSize, s.machine.Turns k .ends →
          ∃ t, s.tick = (t, .ok (k + 1)) ∧
            Went s (k + 1) false [.programEnd (t.cpu.pc - 1)] t) ∧
        (∀ k < s.config.batchSize, ∀ fault, s.machine.Turns k (.fails fault) →
          ∃ t, s.tick = (t, .error fault) ∧ Went s (k + 1) false [faultReason fault] t)) ∧
      ∀ size more t u n k, (s.withBatch size).tick = (t, .ok n) →
        (t.withBatch more).tick = (u, .ok k) →
          ∃ w, (s.withBatch (size + more)).tick = (w, .ok (n + k)) ∧ w.machine = u.machine ∧
            w.running = u.running := by
  refine ⟨tick_of_idle, ?_, ?_⟩
  · intro hs hstepper
    refine ⟨tick_of_goesOn hs hstepper hsignals, ?_, ?_⟩
    · intro k hk hturns
      exact tick_of_ends hs hstepper hsignals hk hturns
    · intro k hk fault hturns
      exact tick_of_fails hs hstepper hsignals hk hturns
  · intro size more t u n k h h'
    exact tick_withBatch_add hsignals h h'

/-- An increment and a break, in ticks of one instruction and of three, and in one of four. -/
theorem tick_executes_exactly_to_break :
    ∃ s t u w : Simulator, s.memory.read 0x0600 2 = [0xe8, 0x00] ∧ s.machine.Turns 1 .ends ∧
      (s.withBatch 1).tick = (t, .ok 1) ∧ (t.withBatch 3).tick = (u, .ok 1) ∧
      (s.withBatch 4).tick = (w, .ok 2) ∧ w.machine = u.machine ∧ w.running = false ∧
      w.stops = [.programEnd 0x0601] ∧ (w.withBatch 4).tick = (w.withBatch 4, .ok 0) := by
  obtain ⟨s, hs, hstepper, hsignals, hstops, hread, hfirst, hsecond, hpc⟩ :
      ∃ s : Simulator, s.running = true ∧ s.stepper = false ∧ s.cpu.signals = [] ∧
        s.stops = [] ∧ s.memory.read 0x0600 2 = [0xe8, 0x00] ∧
        (s.machine.run 0).1.verdict = .goesOn ∧ (s.machine.run 1).1.verdict = .ends ∧
        (s.machine.run 2).1.quiet.cpu.pc = 0x0602 := by
    refine ⟨(ofMemory (Memory.empty.set 0x0600 0xe8) {}).toggle, rfl, rfl, rfl, rfl, ?_, ?_, ?_, ?_⟩
    · simp [Memory.read, List.range_succ, memory, cpu, toggle, ofMemory, Cpu.ofMemory, report,
        Memory.get_set, Memory.get_empty]
    · decide +kernel
    · decide +kernel
    · decide +kernel
  have hgoes : s.machine.GoesOn 1 := by
    intro k hk
    obtain rfl := Nat.lt_one_iff.mp hk
    exact hfirst
  have hturns : s.machine.Turns 1 .ends := ⟨hgoes, hsecond, by decide⟩
  obtain ⟨t, htick, hwent⟩ :=
    ((tick_executes_exactly (s := s.withBatch 1) hsignals).2.1 hs hstepper).1 hgoes
  have hlast : t.machine.Turns 0 .ends := by
    refine ⟨fun k hk => absurd hk k.not_lt_zero, ?_, by decide⟩
    exact (hgoes.verdict_run_add hwent.quiet_machine 0).trans hsecond
  obtain ⟨-, hrunning, -⟩ := tick_executes_exactly (s := t.withBatch 3) hwent.signals
  obtain ⟨u, htick', -⟩ := (hrunning hwent.running (hwent.stepper.trans hstepper)).2.1 0
    (Nat.succ_pos 2) hlast
  obtain ⟨w, hall, hmachine, -⟩ := (tick_executes_exactly hsignals).2.2 1 3 t u 1 1 htick htick'
  obtain ⟨w', hall', hwhole⟩ :=
    ((tick_executes_exactly (s := s.withBatch 4) hsignals).2.1 hs hstepper).2.1 1
      (Nat.lt_of_sub_eq_succ rfl) hturns
  obtain rfl : w = w' := congrArg Prod.fst (hall.symm.trans hall')
  have hidle := (tick_executes_exactly (s := w.withBatch 4) hwhole.signals).1
    (Or.inl hwhole.running)
  have hend : w.cpu.pc = 0x0602 := (congrArg (fun m => m.cpu.pc) hwhole.machine).trans hpc
  refine ⟨s, t, u, w, hread, hturns, htick, htick', hall, hmachine, hwhole.running, ?_, hidle⟩
  rw [hwhole.stops, show (s.withBatch 4).stops = [] from hstops, hend]
  rfl

end Simulator

end Mos6502
