/-
The random cell only influences programs that read it.

Before every instruction a byte is drawn and written to the random cell.  Two simulators that
differ in their generators alone hold different bytes there from then on, and nowhere else as
long as no instruction reads the cell: the bytes that an instruction reads decide what it does
(`Cpu.step_withMemory`), and a write puts the same byte into the same cell of both.

What watches the memory, the stepper and the choices of the host do not matter to single
instructions, so two simulators may differ in these as well.
-/
import Mos6502.Proofs.Footprint
import Mos6502.Proofs.Writes

namespace Mos6502

/-! ### Processors -/

namespace Cpu

variable {s t : Cpu}

/-- The same registers over memories that differ in the random cell only. -/
structure Alike (s t : Cpu) : Prop where
  registers : t = s.withMemory t.memory
  memory : s.memory.Alike t.memory

theorem Alike.clearSignals (h : s.Alike t) : s.clearSignals.Alike t.clearSignals :=
  ⟨congrArg Cpu.clearSignals h.registers, h.memory⟩

/-- What is written to the random cell does not matter. -/
theorem Alike.store_random (h : s.Alike t) (value other : UInt8) :
    (s.store randomAddress value).Alike (t.store randomAddress other) := by
  refine ⟨?_, ?_⟩
  · exact congrArg (fun s => s.store randomAddress other) h.registers
  · exact ((Memory.alike_set_random s.memory value).trans h.memory).trans
      (Memory.alike_set_random t.memory other).symm

/-- An instruction that does not read the random cell does the same. -/
theorem Alike.step (h : s.Alike t) (hunread : randomAddress ∉ s.reads) :
    s.step.1.Alike t.step.1 ∧ t.step.2 = s.step.2 := by
  have hsame : ∀ address ∈ s.reads, t.memory.get address = s.memory.get address := by
    intro address haddress
    exact (h.memory address (ne_of_mem_of_not_mem haddress hunread)).symm
  obtain ⟨changes, hmemory, hstep⟩ := step_withMemory hsame
  rw [← h.registers] at hstep
  rw [hstep]
  refine ⟨⟨rfl, ?_⟩, rfl⟩
  rw [hmemory]
  exact h.memory.apply changes

end Cpu

/-! ### Simulators -/

namespace Simulator

variable {s t : Simulator}

/-- The simulators differ at most in the random cell and in what single instructions do not
depend on. -/
structure Alike (s t : Simulator) : Prop where
  cpu : s.cpu.Alike t.cpu
  running : t.running = s.running
  events : t.events = s.events

/-- The next instruction reads the random cell, as it was just refreshed. -/
def ReadsRandom (s : Simulator) : Prop :=
  randomAddress ∈ s.machine.refresh.cpu.reads

instance : Decidable s.ReadsRandom :=
  inferInstanceAs (Decidable (_ ∈ _))

namespace Alike

theorem report (h : s.Alike t) (event : Event) : (s.report event).Alike (t.report event) :=
  ⟨h.cpu, h.running, congrArg (·.push event) h.events⟩

theorem stop (h : s.Alike t) (reason : StopReason) : (s.stop reason).Alike (t.stop reason) :=
  ⟨h.cpu, rfl, congrArg (·.push (.stop reason)) h.events⟩

theorem pc_eq (h : s.Alike t) : t.cpu.pc = s.cpu.pc :=
  (congrArg Cpu.pc h.cpu.registers :)

theorem notice (h : s.Alike t) (signal : Signal) : (s.notice signal).Alike (t.notice signal) := by
  cases signal with
  | halt => exact ⟨h.cpu, rfl, h.events⟩
  | filled | emptied | output => exact h.report _

theorem takeSignals (h : s.Alike t) : s.takeSignals.Alike t.takeSignals := by
  have fold : ∀ (signals : List Signal) {s t : Simulator}, s.Alike t →
      (signals.foldl Simulator.notice s).Alike (signals.foldl Simulator.notice t) := by
    intro signals
    induction signals with
    | nil => exact fun h => h
    | cons signal rest ih => exact fun h => ih (h.notice signal)
  have hsignals : t.cpu.signals = s.cpu.signals := (congrArg Cpu.signals h.cpu.registers :)
  rw [Simulator.takeSignals, Simulator.takeSignals, hsignals]
  exact fold s.cpu.signals ⟨h.cpu.clearSignals, h.running, h.events⟩

theorem endProgram (h : s.Alike t) : s.endProgram.Alike t.endProgram := by
  rw [Simulator.endProgram, Simulator.endProgram, h.pc_eq]
  exact (h.report _).stop _

theorem finish (h : s.Alike t) (debugging : Bool) :
    (s.finish debugging).Alike (t.finish debugging) := by
  have hreported := h.report .step
  have hended : (t.report .step).ended debugging = (s.report .step).ended debugging := by
    rw [ended, ended, hreported.pc_eq, hreported.running]
  simp only [Simulator.finish, hended]
  split
  · exact hreported.endProgram
  · exact hreported

section

variable (h : s.Alike t) (hunread : ¬ s.ReadsRandom)

include h hunread

theorem advance : s.advance.1.Alike t.advance.1 ∧ t.advance.2 = s.advance.2 := by
  obtain ⟨hcpu, hfault⟩ := (h.cpu.store_random s.machine.random.next.byte
    t.machine.random.next.byte).step hunread
  exact ⟨takeSignals ⟨hcpu, h.running, h.events⟩, hfault⟩

theorem execute (debugging : Bool) : (s.execute debugging).1.Alike (t.execute debugging).1 ∧
    (t.execute debugging).2 = (s.execute debugging).2 := by
  obtain ⟨hnext, hfault⟩ := h.advance hunread
  rw [Simulator.execute, Simulator.execute, h.running]
  split
  · cases hs : s.advance with
    | mk next fault =>
      cases ht : t.advance with
      | mk next' fault' =>
        rw [hs, ht] at hnext hfault
        replace hfault : fault' = fault := hfault
        subst fault'
        cases fault with
        | some fault => exact ⟨(hnext.report _).stop _, rfl⟩
        | none => exact ⟨hnext.finish debugging, rfl⟩
  · exact ⟨h, rfl⟩

end

end Alike

/-! ### Runs -/

/-- Single instructions up to a number, whatever comes of them: the simulator after them, and
what came of each. -/
def walk : Nat → Simulator → Simulator × List (Option Fault)
  | 0, s => (s, [])
  | n + 1, s =>
    match s.step with
    | (next, outcome) => ((walk n next).1, outcome :: (walk n next).2)

/--
**The random cell only influences programs that read it.**  Take two simulators that differ in
the random cell at most, and in their generators.  If none of a number of single instructions of
the one reads the cell, these instructions have the same outcomes in both, and afterwards all
registers, the counter, the run flag, the reports and every other cell are still the same.
-/
theorem random_cell_reaches_readers_only {s t : Simulator} {n : Nat} (h : s.Alike t)
    (hunread : ∀ k < n, ¬ (s.walk k).1.ReadsRandom) :
    (t.walk n).2 = (s.walk n).2 ∧ (s.walk n).1.Alike (t.walk n).1 := by
  induction n generalizing s t with
  | zero => exact ⟨rfl, h⟩
  | succ n ih =>
    obtain ⟨hnext, houtcome⟩ := h.execute (hunread 0 n.succ_pos) true
    obtain ⟨houtcomes, hlast⟩ := ih hnext fun k hk => hunread (k + 1) (Nat.succ_lt_succ hk)
    exact ⟨congrArg₂ List.cons houtcome houtcomes, hlast⟩

/-- Two seeds, a store to the random cell, and an instruction that the one before it makes of a
byte that is none. -/
theorem random_cell_reaches_readers_only_of_seeds :
    ∃ memory, memory = Memory.empty.apply (Memory.changesFrom 0x0600
        [0x85, 0xfe, 0xee, 0x05, 0x06, 0xe7]) ∧
      ((ofMemory memory { seed := some 2 }).walk 3).2 =
        ((ofMemory memory { seed := some 1 }).walk 3).2 ∧
      ((ofMemory memory { seed := some 1 }).walk 3).1.Alike
        ((ofMemory memory { seed := some 2 }).walk 3).1 := by
  refine ⟨_, rfl, random_cell_reaches_readers_only ⟨⟨rfl, fun _ _ => rfl⟩, rfl, rfl⟩ ?_⟩
  decide +kernel

end Simulator

end Mos6502
