/-
The reports account for the state of a simulator.

What holds of the reports of one instruction holds of those of any call.  A batch goes on until
the program ends or a fault, so what stands in front of a fault is routine; a tick closes a batch
with a report of its own; and everything else that a host can ask for reports one event at most.
So whoever reads along knows after any calls how many instructions were executed since the last
reset, and whether a program is running.
-/
import Mos6502.Proofs.Reports
import Mos6502.Simulator.Goto

namespace Mos6502

namespace Simulator

variable {s t : Simulator} {debugging : Bool} {fault : Fault}

/-! ### Batches and ticks -/

theorem batch_of_stopped (h : s.running = false) (n executed : Nat) :
    batch n executed s = (s, .ok executed) := by
  cases n with
  | zero => rfl
  | succ n => rw [batch, if_neg (by simp [h])]

/-- The last reports of a simulator that ran into a fault.  Before them the program went on. -/
def Faulted (s t : Simulator) (fault : Fault) : Prop :=
  ∃ events, (∀ e ∈ events, Event.isRoutine e = true) ∧
    s.Adds (events ++ [.simulatorFailure fault.message, .stop (faultReason fault)]) t

theorem Executed.faulted (h : Executed s debugging t (some fault)) : s.Faulted t fault := by
  cases h with
  | failed hnotes hadds =>
    exact ⟨_, fun e he => Event.isRoutine_of_isNote (hnotes e he), hadds⟩

/-- A program that goes on behind an instruction says no more than that. -/
theorem Executed.routine (h : Executed s false t none) (hs : s.running = true)
    (ht : t.running = true) :
    ∃ events, (∀ e ∈ events, Event.isRoutine e = true) ∧ s.Adds events t := by
  cases h with
  | idle hrunning =>
    rw [hs] at hrunning
    cases hrunning
  | ended hnotes hadds hrunning =>
    rw [ht] at hrunning
    cases hrunning
  | went hnotes hadds =>
    refine ⟨_, fun e he => ?_, hadds⟩
    rcases List.mem_append.mp he with hnote | hstep
    · exact Event.isRoutine_of_isNote (hnotes e hnote)
    · rw [List.mem_singleton.mp hstep]
      rfl

/-- Until a fault the program goes on: had it ended, the batch would have ended with it. -/
theorem faulted_of_batch {n executed : Nat} (h : batch n executed s = (t, .error fault)) :
    s.Faulted t fault := by
  induction n generalizing executed s with
  | zero => cases h
  | succ n ih =>
    rw [batch] at h
    split at h
    · rename_i hs
      cases hexecute : s.execute false with
      | mk next outcome =>
        have hexecuted := executed_of_execute hexecute
        rw [hexecute] at h
        cases outcome with
        | some fault =>
          cases h
          exact hexecuted.faulted
        | none =>
          replace h : batch n (executed + 1) next = (t, .error fault) := h
          cases hnext : next.running with
          | false =>
            rw [batch_of_stopped hnext] at h
            cases h
          | true =>
            obtain ⟨first, hfirst, hadds⟩ := hexecuted.routine hs hnext
            obtain ⟨events, hevents, hadds'⟩ := ih h
            refine ⟨first ++ events, List.forall_mem_append.mpr ⟨hfirst, hevents⟩, ?_⟩
            rw [List.append_assoc]
            exact hadds.trans hadds'
    · cases h

/-- Reports without the one that closes a batch. -/
def AddsUnbatched (s t : Simulator) : Prop :=
  ∃ events, .multistep ∉ events ∧ s.Adds events t

theorem Executed.unbatched {outcome : Option Fault} (h : Executed s debugging t outcome) :
    s.AddsUnbatched t := by
  cases h with
  | idle hrunning heq => exact ⟨[], by simp, heq ▸ .refl s⟩
  | failed hnotes hadds | went hnotes hadds | ended hnotes hadds =>
    exact ⟨_, by simp [Event.not_mem_of_notes hnotes .multistep rfl], hadds⟩

theorem unbatched_batch (n executed : Nat) (s : Simulator) :
    s.AddsUnbatched (batch n executed s).1 := by
  refine batch_keeps (fun u hu => ?_) n executed ⟨[], by simp, .refl s⟩
  obtain ⟨events, hevents, hadds⟩ := hu
  obtain ⟨more, hmore, hadds'⟩ := (executed_execute u false).unbatched
  exact ⟨events ++ more, by simp [hevents, hmore], hadds.trans hadds'⟩

namespace Ticked

theorem faulted (h : Ticked s t (.error fault)) : s.Faulted t fault := by
  cases h with
  | failed hbatch => exact faulted_of_batch hbatch

theorem unbatched (h : Ticked s t (.error fault)) : s.AddsUnbatched t := by
  cases h with
  | failed hbatch =>
    have hadds := unbatched_batch s.config.batchSize 0 s
    rwa [hbatch] at hadds

theorem multistep {executed : Nat} (h : Ticked s t (.ok executed)) (hne : executed ≠ 0) :
    ∃ events, .multistep ∉ events ∧ s.Adds (events ++ [.multistep]) t := by
  cases h with
  | idle => exact absurd rfl hne
  | done hbatch heq =>
    obtain ⟨events, hevents, hadds⟩ := unbatched_batch s.config.batchSize 0 s
    rw [hbatch] at hadds
    exact ⟨events, hevents, heq ▸ hadds.report _⟩

end Ticked

/-! ### The reports account for the state -/

/-- Between calls no signals are pending, and as many instructions are counted as were reported
since the last reset. -/
structure Accounted (s : Simulator) : Prop where
  signals : s.cpu.signals = []
  instructions : s.cpu.instructions = Event.stepsSinceReset s.reports

/-- The reports tell whether a program is running. -/
def Told (s : Simulator) : Prop :=
  s.running = Event.lastStarts s.reports

theorem Accounted.execute (h : s.Accounted) (debugging : Bool) :
    (s.execute debugging).1.Accounted :=
  ⟨signals_execute h.signals, (executed_execute s debugging).accounted h.instructions⟩

theorem Accounted.report (h : s.Accounted) {event : Event} (hstep : event ≠ .step)
    (hreset : event ≠ .reset) : (s.report event).Accounted := by
  refine ⟨h.signals, ?_⟩
  have hsame := Event.stepsSinceReset_notes s.reports (List.forall_mem_nil _) [event]
    (by simpa using hreset.symm)
  rw [List.nil_append, List.count_singleton, if_neg (by simpa using hstep)] at hsame
  rw [reports_report, hsame]
  exact h.instructions

theorem told_report {event : Event} (h : event.runs?.getD (Event.lastStarts s.reports) = s.running) :
    (s.report event).Told := by
  rw [Told, reports_report, Event.lastStarts_concat, h, running_report]

/-- What a host can ask a simulator. -/
inductive Call where
  /-- Execute one instruction, when debugging in any case. -/
  | execute (debugging : Bool)
  | step
  | tick
  | toggle
  | setStepper (on : Bool)
  | goto (labels : Labels) (input : Text)
  | press (key : UInt8)
  | reset

/-- Whether the call executes an instruction even if no program is running. -/
def Call.isDebugging : Call → Bool
  | .execute debugging => debugging
  | .step => true
  | _ => false

/-- The simulator after a call, and the fault that it ran into. -/
def call (s : Simulator) : Call → Simulator × Option Fault
  | .execute debugging => s.execute debugging
  | .step => s.step
  | .tick =>
    match s.tick with
    | (s, .ok _) => (s, none)
    | (s, .error fault) => (s, some fault)
  | .toggle => (s.toggle, none)
  | .setStepper on => (s.setStepper on, none)
  | .goto labels input => ((s.goto labels input).1, none)
  | .press key => (s.press key, none)
  | .reset => (s.reset, none)

/-- The simulator after some calls, whether they succeeded or failed. -/
def after (s : Simulator) (calls : List Call) : Simulator :=
  calls.foldl (fun s c => (s.call c).1) s

/-- The call executes a break on demand while a program is running. -/
def Pauses (s : Simulator) (c : Call) : Prop :=
  c.isDebugging = true ∧ s.running = true ∧ s.machine.breaks = true

/-- None of the calls executes a break on demand while a program is running. -/
def Unpaused (s : Simulator) : List Call → Prop
  | [] => True
  | c :: rest => ¬ s.Pauses c ∧ (s.call c).1.Unpaused rest

theorem call_tick (s : Simulator) : (s.call .tick).1 = s.tick.1 := by
  cases htick : s.tick with
  | mk next answer => cases answer <;> simp [call, htick]

theorem faulted_of_call {c : Call} (h : s.call c = (t, some fault)) : s.Faulted t fault := by
  cases c with
  | execute debugging => exact (executed_of_execute (show s.execute debugging = _ from h)).faulted
  | step => exact (executed_of_execute (show s.execute true = _ from h)).faulted
  | tick =>
    rw [call] at h
    cases htick : s.tick with
    | mk next answer =>
      rw [htick] at h
      cases answer with
      | ok executed => cases h
      | error fault =>
        cases h
        exact (ticked_of_tick htick).faulted
  | toggle | setStepper | goto | press | reset => cases h

theorem Accounted.call (h : s.Accounted) (c : Call) : (s.call c).1.Accounted := by
  cases c with
  | execute debugging => exact h.execute debugging
  | step => exact h.execute true
  | tick =>
    rw [call_tick]
    exact (ticked_tick s).keeps h (fun s hs => hs.execute false)
      fun s hs => hs.report (by simp) (by simp)
  | toggle =>
    show s.toggle.Accounted
    unfold toggle
    split
    · exact (⟨h.signals, h.instructions⟩ : Accounted { s with running := false }).report
        (by simp) (by simp)
    · exact (⟨h.signals, h.instructions⟩ : Accounted { s with running := true }).report
        (by simp) (by simp)
  | setStepper | press => exact ⟨h.signals, h.instructions⟩
  | goto labels input =>
    show (s.goto labels input).1.Accounted
    unfold goto
    simp only
    split
    · rename_i address hplace
      have hjumped : (s.mapCpu fun cpu => cpu.jump address).Accounted :=
        ⟨h.signals, h.instructions⟩
      exact hjumped.report (by simp) (by simp)
    · exact h.report (by simp) (by simp)
  | reset =>
    refine ⟨rfl, ?_⟩
    exact (Event.stepsSinceReset_reset s.reports).symm.trans
      (congrArg Event.stepsSinceReset (reports_report .reset s).symm)

theorem Told.call {c : Call} (h : s.Told) (haccounted : s.Accounted) (hpause : ¬ s.Pauses c) :
    (s.call c).1.Told := by
  cases c with
  | execute debugging => exact (executed_execute s debugging).told h haccounted.signals hpause
  | step => exact (executed_execute s true).told h haccounted.signals hpause
  | tick =>
    rw [call_tick]
    have hkept : s.tick.1.Accounted ∧ s.tick.1.Told := by
      refine (ticked_tick s).keeps (P := fun s => s.Accounted ∧ s.Told) ⟨haccounted, h⟩ ?_ ?_
      · rintro s ⟨haccounted, h⟩
        exact ⟨haccounted.execute false,
          (executed_execute s false).told h haccounted.signals (by simp)⟩
      · rintro s ⟨haccounted, h⟩
        exact ⟨haccounted.report (by simp) (by simp), told_report h.symm⟩
    exact hkept.2
  | toggle =>
    show s.toggle.Told
    unfold toggle
    split <;> exact told_report rfl
  | setStepper | press => exact h
  | goto labels input =>
    show (s.goto labels input).1.Told
    unfold goto
    simp only
    split
    · exact told_report h.symm
    · exact told_report h.symm
  | reset => exact told_report rfl

theorem Accounted.after (h : s.Accounted) (calls : List Call) : (s.after calls).Accounted := by
  induction calls generalizing s with
  | nil => exact h
  | cons c rest ih => exact ih (h.call c)

theorem Told.after {calls : List Call} (h : s.Told) (haccounted : s.Accounted)
    (hunpaused : s.Unpaused calls) : (s.after calls).Told := by
  induction calls generalizing s with
  | nil => exact h
  | cons c rest ih => exact ih (h.call haccounted hunpaused.1) (haccounted.call c) hunpaused.2

/--
**The reports account for the state.**  After any calls, whether they succeeded or failed, the
instructions counted are those reported since the last reset.  A call that runs into a fault
reports it and then one stop, and before these nothing but instructions and notes.  A tick that
executes something closes with one report of a batch, and one that runs into a fault has none.
And unless a break was executed on demand while a program was running, a program is running if
and only if the last start, stop or reset that was reported is a start.
-/
theorem reports_account_for_state (memory : Memory) (config : Config) (calls : List Call) :
    ∃ s, s = (ofMemory memory config).after calls ∧
      s.cpu.instructions = Event.stepsSinceReset s.reports ∧
      (∀ c t fault, s.call c = (t, some fault) →
        ∃ events, (∀ e ∈ events, Event.isRoutine e = true) ∧ t.reports = s.reports ++
          (events ++ [.simulatorFailure fault.message, .stop (faultReason fault)])) ∧
      (∀ t executed, s.tick = (t, .ok executed) → executed ≠ 0 →
        ∃ events, .multistep ∉ events ∧ t.reports = s.reports ++ (events ++ [.multistep])) ∧
      (∀ t fault, s.tick = (t, .error fault) →
        ∃ events, .multistep ∉ events ∧ t.reports = s.reports ++ events) ∧
      ((ofMemory memory config).Unpaused calls → s.running = Event.lastStarts s.reports) := by
  have hstart : (ofMemory memory config).Accounted := ⟨rfl, rfl⟩
  refine ⟨_, rfl, (hstart.after calls).instructions, ?_, ?_, ?_, ?_⟩
  · intro c t fault h
    exact faulted_of_call h
  · intro t executed h hne
    exact (ticked_of_tick h).multistep hne
  · intro t fault h
    exact (ticked_of_tick h).unbatched
  · intro h
    exact Told.after rfl hstart h

/-- A break that is executed on demand does pause a running program without a word. -/
example :
    ((ofMemory Memory.empty {}).after [.toggle, .step]).running = false ∧
      Event.lastStarts ((ofMemory Memory.empty {}).after [.toggle, .step]).reports = true := by
  decide +kernel

end Simulator

end Mos6502
