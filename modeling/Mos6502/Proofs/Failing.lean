/-
What a failure leaves behind.

A processor that cannot execute a byte moves past it and does nothing else.  A simulator has
refreshed the random cell by then, and stops; `afterFault` is what becomes of it, down to its
reports.  A batch that fails has executed some instructions before, one after another, so it leaves
what they leave and then what the fault leaves.  A stopped simulator ignores its ticks, and a place
that nobody knows is only reported.

All this is said of a simulator whose processor has no signals pending, as they would be taken
along with the fault.  Between calls there are none.
-/
import Mos6502.Proofs.Account
import Mos6502.Proofs.Ending

namespace Mos6502

variable {opcode : UInt8} {fault : Fault} {debugging : Bool}

/-- The fault names a byte at an address that cannot be executed: an undocumented opcode with its
place, or an instruction on interrupts. -/
def Fault.Names (byte : UInt8) (address : UInt16) : Fault → Prop
  | .unknownOpcode opcode place =>
    opcode = byte ∧ place = address ∧ decode byte = none ∧ byte ≠ outputOpcode
  | .unimplemented m => (m = .cli ∨ m = .sei) ∧ ∃ mode, decode byte = some ⟨m, mode⟩

/-- Bytes that cannot be executed have a fault that names them, and no others have. -/
theorem Fault.exists_names_iff (byte : UInt8) (address : UInt16) :
    (∃ fault : Fault, fault.Names byte address) ↔
      (∃ op, decode byte = some op ∧ (op.mnemonic = .cli ∨ op.mnemonic = .sei)) ∨
        decode byte = none ∧ byte ≠ outputOpcode := by
  constructor
  · rintro ⟨fault, h⟩
    cases fault with
    | unknownOpcode opcode place => exact .inr h.2.2
    | unimplemented m =>
      obtain ⟨hm, mode, hdecode⟩ := h
      exact .inl ⟨⟨m, mode⟩, hdecode, hm⟩
  · rintro (⟨op, hdecode, hop⟩ | ⟨hdecode, hopcode⟩)
    · exact ⟨.unimplemented op.mnemonic, hop, op.mode, hdecode⟩
    · exact ⟨.unknownOpcode byte address, rfl, rfl, hdecode, hopcode⟩

namespace Cpu

variable {s : Cpu}

/-- A step fails with the fault that names the byte under the program counter. -/
theorem step_fault_iff : s.step.2 = some fault ↔ fault.Names (s.memory.get s.pc) s.pc := by
  constructor
  · intro h
    cases hstep : s.step with
    | mk next outcome =>
      rw [hstep] at h
      cases stepped_iff.mpr hstep with
      | output | executed => cases h
      | unknown hopcode hdecode =>
        cases h
        exact ⟨rfl, rfl, hdecode, hopcode⟩
      | @unimplemented op hdecode hop =>
        cases h
        exact ⟨hop, op.mode, hdecode⟩
  · intro h
    cases fault with
    | unknownOpcode opcode place =>
      obtain ⟨rfl, rfl, hdecode, hopcode⟩ := h
      exact congrArg Prod.snd (stepped_iff.mp (.unknown hopcode hdecode))
    | unimplemented m =>
      obtain ⟨hm, mode, hdecode⟩ := h
      exact congrArg Prod.snd (stepped_iff.mp (.unimplemented hdecode hm))

end Cpu

namespace Simulator

variable {s t u : Simulator} {n executed : Nat}

/-- The byte under the program counter, once the random cell is refreshed. -/
def nextByte (s : Simulator) : UInt8 :=
  s.machine.refresh.cpu.memory.get s.cpu.pc

/-- What a fault makes of a simulator. -/
def afterFault (s : Simulator) (fault : Fault) : Simulator where
  machine :=
    { cpu :=
        { s.cpu with
          pc := s.cpu.pc + 1
          memory := s.memory.set randomAddress s.machine.random.next.byte }
      random := s.machine.random.next }
  running := false
  stepper := s.stepper
  config := s.config
  events := (s.events.push (.simulatorFailure fault.message)).push (.stop (faultReason fault))

/-! ### One instruction -/

theorem advance_eq (s : Simulator) :
    s.advance = (takeSignals { s with machine := s.machine.step.1 }, s.machine.step.2) := rfl

/-- A fault leaves what it leaves, and names the byte that could not be executed. -/
theorem execute_fault (hsignals : s.cpu.signals = [])
    (h : s.execute debugging = (t, some fault)) :
    t = s.afterFault fault ∧ fault.Names s.nextByte s.cpu.pc := by
  unfold execute at h
  split at h
  · cases hfault : s.machine.step.2 with
    | none =>
      rw [advance_eq, hfault] at h
      cases h
    | some fault' =>
      have hstep : s.machine.refresh.cpu.step.2 = some fault' := hfault
      have hmachine : s.machine.step.1 = (s.afterFault fault).machine := by
        rw [Machine.step_eq, Cpu.step_of_fault hstep]
        rfl
      have hquiet : takeSignals { s with machine := (s.afterFault fault).machine } =
          { s with machine := (s.afterFault fault).machine } := takeSignals_of_nil hsignals
      rw [advance_eq, hfault, hmachine, hquiet] at h
      cases h
      exact ⟨rfl, Cpu.step_fault_iff.mp hstep⟩
  · cases h

/-- What leaves a program running is the same when debugging. -/
theorem finish_of_running (h : (s.finish false).running = true) (debugging : Bool) :
    s.finish debugging = s.finish false := by
  unfold finish at h ⊢
  simp only at h ⊢
  split at h
  · cases h
  · rename_i hgoes
    have hended : (s.report .step).ended debugging = false := by
      simp only [ended, Bool.or_eq_true, not_or] at hgoes
      have hrunning : s.running = true := h
      simp [ended, hgoes.1, hrunning]
    rw [hended, if_neg hgoes]
    rfl

/-- While a program goes on, it makes no difference who asks for the next instruction. -/
theorem step_of_execute (hs : s.running = true) (h : s.execute false = (t, none))
    (ht : t.running = true) : s.step = (t, none) := by
  rw [execute, if_pos (by simp [hs])] at h
  rw [step, execute, if_pos (by simp)]
  cases hadvance : s.advance with
  | mk next outcome =>
    rw [hadvance] at h
    cases outcome with
    | some fault => cases h
    | none =>
      obtain rfl : next.finish false = t := (Prod.mk.inj h).1
      exact congrArg (·, none) (finish_of_running ht true)

theorem Executed.counted (h : Executed s debugging t none) (hs : s.running = true) :
    t.cpu.instructions = s.cpu.instructions + 1 := by
  cases h with
  | idle hrunning =>
    rw [hs] at hrunning
    cases hrunning
  | went _ _ _ _ hcount | ended _ _ _ hcount => exact hcount

/-! ### Batches and ticks -/

/-- A batch that fails executes some instructions, one after another, and then runs into the
fault. -/
theorem exists_of_batch_error (hsignals : s.cpu.signals = [])
    (h : batch n executed s = (t, .error fault)) :
    ∃ k u, k < n ∧ steps k s = (u, none) ∧ u.running = true ∧ u.cpu.signals = [] ∧
      u.cpu.instructions = s.cpu.instructions + k ∧ u.execute false = (t, some fault) := by
  induction n generalizing executed s with
  | zero => cases h
  | succ n ih =>
    rw [batch] at h
    split at h
    · rename_i hs
      cases hexecute : s.execute false with
      | mk next outcome =>
        rw [hexecute] at h
        cases outcome with
        | some fault =>
          cases h
          exact ⟨0, s, Nat.succ_pos n, rfl, hs, hsignals, rfl, hexecute⟩
        | none =>
          replace h : batch n (executed + 1) next = (t, .error fault) := h
          cases hnext : next.running with
          | false =>
            rw [batch_of_stopped hnext] at h
            cases h
          | true =>
            have hsignals' : next.cpu.signals = [] := by
              have hkept : (s.execute false).1.cpu.signals = [] := signals_execute hsignals
              rwa [hexecute] at hkept
            obtain ⟨k, u, hk, hsteps, hu, hquiet, hcount, hfault⟩ := ih hsignals' h
            refine ⟨k + 1, u, Nat.succ_lt_succ hk, ?_, hu, hquiet, ?_, hfault⟩
            · rw [steps, step_of_execute hs hexecute hnext]
              exact hsteps
            · rw [hcount, (executed_of_execute hexecute).counted hs]
              omega
    · cases h

theorem tick_of_stopped (h : s.running = false) : s.tick = (s, .ok 0) := by
  rw [tick, if_neg (by simp [h])]

/-- A simulator that is stopped ignores its ticks. -/
theorem ticks_of_stopped (h : s.running = false) (n executed : Nat) :
    ticks n executed s = (s, executed, none) := by
  induction n generalizing executed with
  | zero => rfl
  | succ n ih =>
    rw [ticks, tick_of_stopped h]
    exact ih executed

/--
**A failure leaves the state intact.**  A processor fails at the instructions on interrupts and at
undocumented bytes other than the output pseudo-operation, and at nothing else; it then moves past
the byte and changes nothing besides.  A simulator that fails has drawn a byte for the random cell
and stopped, and reports the fault, which names the byte and where it is; all else is as before.  A
tick that fails after some instructions leaves what they leave, one by one, and then what the fault
leaves, and the ticks behind it do nothing.  All this is with no signals pending, as it is after any
calls.  A place that nobody knows is reported, and nothing else changes.
-/
theorem failures_leave_state_intact :
    (∀ c : Cpu,
        (c.step.2 ≠ none ↔
          (∃ op, decode (c.memory.get c.pc) = some op ∧
              (op.mnemonic = .cli ∨ op.mnemonic = .sei)) ∨
            decode (c.memory.get c.pc) = none ∧ c.memory.get c.pc ≠ outputOpcode) ∧
        ∀ fault, c.step.2 = some fault →
          c.step.1 = { c with pc := c.pc + 1 } ∧ fault.Names (c.memory.get c.pc) c.pc) ∧
      (∀ s : Simulator, s.cpu.signals = [] →
        (∀ debugging t fault, s.execute debugging = (t, some fault) →
          t = s.afterFault fault ∧ fault.Names s.nextByte s.cpu.pc) ∧
        ∀ t fault, s.tick = (t, .error fault) →
          ∃ k u, k < s.config.batchSize ∧ steps k s = (u, none) ∧
            u.cpu.instructions = s.cpu.instructions + k ∧ t = u.afterFault fault ∧
            fault.Names u.nextByte u.cpu.pc ∧ t.running = false ∧
            ∀ n, ticks n 0 t = (t, 0, none)) ∧
      (∀ memory config calls, ((ofMemory memory config).after calls).cpu.signals = []) ∧
      ∀ (s : Simulator) (labels : Labels) (input : Text), labels.place? (trim input) = none →
        s.goto labels input =
          ({ s with events := s.events.push (.simulatorInfo unknownPlace) },
            .error ⟨trim input⟩) := by
  refine ⟨fun c => ⟨?_, fun fault h => ⟨Cpu.step_of_fault h, Cpu.step_fault_iff.mp h⟩⟩,
    fun s hsignals => ⟨fun debugging t fault h => execute_fault hsignals h,
      fun t fault h => ?_⟩, fun memory config calls => ?_, fun s labels input h => ?_⟩
  · rw [← Fault.exists_names_iff _ c.pc, Option.ne_none_iff_exists']
    exact exists_congr fun fault => Cpu.step_fault_iff
  · cases ticked_of_tick h with
    | failed hbatch =>
      obtain ⟨k, u, hk, hsteps, -, hquiet, hcount, hexecute⟩ := exists_of_batch_error hsignals hbatch
      obtain ⟨rfl, hnames⟩ := execute_fault hquiet hexecute
      exact ⟨k, u, hk, hsteps, hcount, rfl, hnames, rfl, fun n => ticks_of_stopped rfl n 0⟩
  · exact ((⟨rfl, rfl⟩ : (ofMemory memory config).Accounted).after calls).signals
  · rw [goto, h]
    rfl

/-- `CLI` fails; and so does a tick at its second instruction, an undocumented byte behind a `NOP`.
Single instructions fail at the same byte, and a place that nobody knows does not help. -/
theorem failures_leave_state_intact_behind_nop :
    (∃ c : Cpu, c.memory.get c.pc = 0x58 ∧ c.step.2 ≠ none ∧
        c.step.1 = { c with pc := c.pc + 1 }) ∧
      ∃ s t u : Simulator, s.memory.read 0x0600 2 = [0xea, 0x02] ∧
        s.tick = (t, .error (.unknownOpcode 0x02 0x0601)) ∧ t.cpu.instructions = 1 ∧
        t.cpu.pc = 0x0602 ∧ t.running = false ∧ ticks 5 0 t = (t, 0, none) ∧
        s.step = (u, none) ∧ u.step = (t, some (.unknownOpcode 0x02 0x0601)) ∧
        (t.goto ⟨[]⟩ "nowhere".toList).1.machine = t.machine := by
  obtain ⟨hcpu, hsimulator, -, hgoto⟩ := failures_leave_state_intact
  constructor
  · let c : Cpu := Cpu.ofMemory (Memory.empty.set 0x0600 0x58)
    have hfault : c.step.2 = some (.unimplemented .cli) := by decide +kernel
    have hopcode : c.memory.get c.pc = 0x58 := by
      show (Memory.empty.set 0x0600 0x58).get 0x0600 = _
      rw [Memory.get_set_self]
    exact ⟨c, hopcode, by simp [hfault], ((hcpu c).2 _ hfault).1⟩
  · let memory := (Memory.empty.set 0x0600 0xea).set 0x0601 0x02
    let s : Simulator := (ofMemory memory {}).toggle
    have hread : memory.read 0x0600 2 = [0xea, 0x02] := by
      simp [Memory.read, List.range_succ, memory, Memory.get_set]
    have hfault : (s.call .tick).2 = some (.unknownOpcode 0x02 0x0601) := by decide +kernel
    have hfault' : s.step.1.step.2 = some (.unknownOpcode 0x02 0x0601) := by decide +kernel
    have hcount : s.tick.1.cpu.instructions = 1 := by decide +kernel
    cases htick : s.tick with
    | mk t answer =>
      rw [call, htick] at hfault
      rw [htick] at hcount
      cases answer with
      | ok executed => cases hfault
      | error fault =>
        obtain rfl : fault = .unknownOpcode 0x02 0x0601 := Option.some.inj hfault
        obtain ⟨k, u, -, hsteps, hinstructions, rfl, hnames, hstopped, hticks⟩ :=
          (hsimulator s rfl).2 t _ htick
        obtain rfl : k = 1 := by
          have hk : u.cpu.instructions = 0 + k := hinstructions
          exact (Nat.zero_add k ▸ hk).symm.trans hcount
        have hstep : s.step = (u, none) := by
          rw [steps] at hsteps
          cases hone : s.step with
          | mk next outcome =>
            rw [hone] at hsteps
            cases outcome with
            | none => exact hsteps
            | some fault => cases hsteps
        rw [hstep] at hfault'
        have hquiet : u.cpu.signals = [] := by
          have hkept : s.step.1.cpu.signals = [] := signals_execute rfl
          rwa [hstep] at hkept
        have hlast := (hsimulator u hquiet).1 true _ _ (Prod.ext rfl hfault')
        have hpc : u.cpu.pc = 0x0601 := hnames.2.1.symm
        refine ⟨s, _, u, hread, htick, hcount, ?_, hstopped, hticks 5, hstep,
          Prod.ext hlast.1 hfault', ?_⟩
        · show u.cpu.pc + 1 = 0x0602
          rw [hpc]
          decide
        · rw [hgoto _ _ _ (by decide)]

end Simulator

end Mos6502
