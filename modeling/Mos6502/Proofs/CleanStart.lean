/-
Assembling starts from a clean machine.

A session resets its machine before it assembles, so of whatever ran before nothing is left in the
registers, and nothing in the memory below the program.  Above, memory is gone on with: what was put
there stays unless the new program is put over it.

An assembly may itself write below the program, after an origin or by going on at `$0000`, so what
is said of a cell is said of the cells that it does not write.  The others it writes alike in every
session, as what it writes depends on the source text alone.
-/
import Mos6502.Proofs.PutRun

namespace Mos6502

/-- Whether there is data is told by the cells. -/
theorem Memory.hasDataFrom_iff (memory : Memory) (first : UInt16) :
    memory.hasDataFrom first = true ↔ ∃ address, first ≤ address ∧ memory.get address ≠ 0 := by
  rw [hasDataFrom, Array.any_iff_exists]
  constructor
  · rintro ⟨i, hi, hfirst, -, hne⟩
    obtain ⟨address, rfl⟩ : ∃ address : UInt16, address.toNat = i := by
      have hcell : i < 65536 := by simpa using hi
      exact ⟨UInt16.ofNat i, by rw [UInt16.toNat_ofNat', Nat.mod_eq_of_lt hcell]⟩
    exact ⟨address, UInt16.le_iff_toNat_le.mpr hfirst, bne_iff_ne.mp hne⟩
  · rintro ⟨address, hfirst, hne⟩
    have hlt : address.toNat < memory.cells.toArray.size := by
      simpa using address.toNat_lt
    exact ⟨address.toNat, hlt, UInt16.le_iff_toNat_le.mp hfirst, hlt, bne_iff_ne.mpr hne⟩

/-- The registers of a new machine. -/
theorem registers_ofMemory (memory : Memory) : (Cpu.ofMemory memory).registers = .initial := by
  have hstatus : (Cpu.ofMemory memory).status = 0x30 := by
    show (Flags.ofByte 0x30).toByte = 0x30
    decide
  rw [Cpu.registers, hstatus]
  rfl

namespace Simulator

section

variable {s : Simulator} (hrunning : s.running = false) (hregisters : s.registers = .initial)

include hrunning hregisters

/-- A machine that was reset and is not running waits at the start of its program, if any. -/
theorem state_of_initial :
    s.state =
      if s.stepper then .debuggingPaused
      else if s.memory.hasDataFrom startAddress then .ready
      else .initialized := by
  have hinitial : s.registers.isInitial = true := by
    rw [hregisters]
    rfl
  rw [state, hrunning, hinitial]
  cases s.stepper <;> rfl

theorem state_eq_debuggingPaused_iff : s.state = .debuggingPaused ↔ s.stepper = true := by
  rw [state_of_initial hrunning hregisters]
  cases s.stepper <;> cases s.memory.hasDataFrom startAddress <;> decide

theorem state_eq_ready_iff :
    s.state = .ready ↔
      s.stepper = false ∧ ∃ address, startAddress ≤ address ∧ s.memory.get address ≠ 0 := by
  rw [state_of_initial hrunning hregisters, ← Memory.hasDataFrom_iff]
  cases s.stepper <;> cases s.memory.hasDataFrom startAddress <;> decide

theorem state_eq_initialized_iff :
    s.state = .initialized ↔
      s.stepper = false ∧ ∀ address, startAddress ≤ address → s.memory.get address = 0 := by
  have hnone : (∀ address, startAddress ≤ address → s.memory.get address = 0) ↔
      s.memory.hasDataFrom startAddress = false := by
    rw [← Bool.not_eq_true, Memory.hasDataFrom_iff]
    simp only [ne_eq, not_exists, not_and, not_not]
  rw [state_of_initial hrunning hregisters, hnone]
  cases s.stepper <;> cases s.memory.hasDataFrom startAddress <;> decide

end

end Simulator

namespace Session

variable (s t : Session) (source : Text)

theorem assembly_assemble : (s.assemble source).1.assembly = Assembly.ofText source := by
  obtain ⟨assembly, simulator⟩ := s
  rfl

theorem cpu_assemble :
    (s.assemble source).1.simulator.cpu =
      Cpu.ofMemory ((s.simulator.memory.clear 0 startAddress).apply
        (Assembly.ofText source).changes) := by
  rw [Simulator.cpu, machine_assemble]
  rfl

theorem memory_assemble :
    (s.assemble source).1.simulator.memory =
      (s.simulator.memory.clear 0 startAddress).apply (Assembly.ofText source).changes := by
  rw [Simulator.memory, cpu_assemble]
  rfl

theorem recorded_assemble :
    (s.assemble source).1.simulator.memory.recorded = s.simulator.memory.recorded.map
      (· ++ (Memory.clearing 0 startAddress ++ (Assembly.ofText source).changes).toArray) := by
  rw [memory_assemble, Memory.clear_eq_clearing, ← Memory.apply_append, Memory.recorded_apply]

/-- What a reset leaves in a cell. -/
theorem get_cleared (memory : Memory) (address : UInt16) :
    (memory.clear 0 startAddress).get address =
      if address < startAddress then 0 else memory.get address := by
  have hzero : (0 : UInt16) ≤ address := UInt16.le_iff_toNat_le.mpr (Nat.zero_le _)
  rw [Memory.get_clear_eq]
  simp only [hzero, true_and]

/-- Where the assembly does not write, a cell is as the reset left it. -/
theorem get_assemble {address : UInt16}
    (h : address ∉ (Assembly.ofText source).changes.map Change.address) :
    (s.assemble source).1.simulator.memory.get address =
      if address < startAddress then 0 else s.simulator.memory.get address := by
  rw [memory_assemble, Memory.get_apply_of_notMem h, get_cleared]

/-- Below the program, assembling leaves the same in all sessions. -/
theorem get_assemble_congr {address : UInt16} (h : address < startAddress) :
    (s.assemble source).1.simulator.memory.get address =
      (t.assemble source).1.simulator.memory.get address := by
  rw [memory_assemble, memory_assemble]
  refine Memory.get_apply_congr ?_ _
  rw [get_cleared, get_cleared, if_pos h, if_pos h]

end Session

/--
**Assembling starts from a clean machine.**  Whatever a session did before, and whether the source
text can be assembled or not, afterwards nothing is running, the registers and the count of
instructions are as after a reset and no signal is pending, while the stepper and the generator are
as they were.  Who listens to the memory has heard of a zero for every cell below the program and
then of what the assembly wrote.  A cell that it did not write is zero below the program, and as
before from there on.

The session then pauses if the stepper is on, and otherwise is ready if there is any data at or
above the start of programs, and initialized if there is none.  And the outcome, the registers and
the memory below the program are those of a new session.
-/
theorem assemble_starts_clean (s : Session) (source : Text) :
    ∃ after : Simulator, ∃ changes : List Change,
      after = (s.assemble source).1.simulator ∧
      changes = (s.assemble source).1.assembly.changes ∧
      after.running = false ∧ after.registers = .initial ∧ after.cpu.instructions = 0 ∧
      after.cpu.signals = [] ∧ after.stepper = s.simulator.stepper ∧
      after.machine.random = s.simulator.machine.random ∧
      after.memory.recorded = s.simulator.memory.recorded.map
        (· ++ (Memory.clearing 0 startAddress ++ changes).toArray) ∧
      (∀ address, address ∉ changes.map Change.address → after.memory.get address =
        if address < startAddress then 0 else s.simulator.memory.get address) ∧
      (after.state = .debuggingPaused ↔ s.simulator.stepper = true) ∧
      (after.state = .ready ↔ s.simulator.stepper = false ∧
        ∃ address, startAddress ≤ address ∧ after.memory.get address ≠ 0) ∧
      (after.state = .initialized ↔ s.simulator.stepper = false ∧
        ∀ address, startAddress ≤ address → after.memory.get address = 0) ∧
      ∀ config, (s.assemble source).2 = ((Session.new config).assemble source).2 ∧
        after.registers = ((Session.new config).assemble source).1.simulator.registers ∧
        ∀ address, address < startAddress → after.memory.get address =
          ((Session.new config).assemble source).1.simulator.memory.get address := by
  have hsimulator := s.simulator_assemble source
  have hrunning : (s.assemble source).1.simulator.running = false := by
    rw [hsimulator]
    rfl
  have hstepper : (s.assemble source).1.simulator.stepper = s.simulator.stepper := by
    rw [hsimulator]
    rfl
  have hregisters : ∀ t : Session, (t.assemble source).1.simulator.registers = .initial := by
    intro t
    rw [Simulator.registers, t.cpu_assemble]
    exact registers_ofMemory _
  refine ⟨_, _, rfl, rfl, hrunning, hregisters s, ?_, ?_, hstepper, ?_, ?_, ?_, ?_, ?_, ?_, ?_⟩
  · rw [s.cpu_assemble]
    rfl
  · rw [s.cpu_assemble]
    rfl
  · rw [s.machine_assemble]
  · rw [s.assembly_assemble]
    exact s.recorded_assemble source
  · rw [s.assembly_assemble]
    exact fun address => s.get_assemble source
  · rw [← hstepper]
    exact Simulator.state_eq_debuggingPaused_iff hrunning (hregisters s)
  · rw [← hstepper]
    exact Simulator.state_eq_ready_iff hrunning (hregisters s)
  · rw [← hstepper]
    exact Simulator.state_eq_initialized_iff hrunning (hregisters s)
  · intro config
    rw [s.result_assemble, Session.result_assemble]
    exact ⟨rfl, (hregisters s).trans (hregisters _).symm, fun _ => s.get_assemble_congr _ source⟩

/-- A key was pressed and a program put in while the stepper was on: of the two cells that the next
program leaves alone, the one below the program is cleared and the one in it stays. -/
theorem assemble_starts_clean_behind_key :
    ∃ s : Session, s.simulator.memory.get 0x00ff = 0x77 ∧ s.simulator.memory.get 0x0700 = 0xe8 ∧
      ∃ after, after = (s.assemble "NOP".toList).1.simulator ∧ after.memory.get 0x00ff = 0 ∧
        after.memory.get 0x0700 = 0xe8 ∧ after.registers = .initial ∧
        after.state = .debuggingPaused := by
  let first := ((Session.new {}).assemble "*=$0700\nINX".toList).1
  let s := first.mapSimulator fun simulator => (simulator.setStepper true).press 0x77
  have hfirst : (Assembly.ofText "*=$0700\nINX".toList).changes =
      [⟨0x0700, 0xe8⟩, ⟨0x0701, 0x00⟩] := by
    decide +kernel
  have hchanges : (s.assemble "NOP".toList).1.assembly.changes =
      [⟨0x0600, 0xea⟩, ⟨0x0601, 0x00⟩] := by
    rw [s.assembly_assemble]
    decide +kernel
  have hkey : s.simulator.memory.get 0x00ff = 0x77 := Memory.get_set_self ..
  have hcode : s.simulator.memory.get 0x0700 = 0xe8 := by
    show (first.simulator.memory.set keyAddress 0x77).get 0x0700 = 0xe8
    rw [Session.memory_assemble, hfirst, Memory.get_set_of_ne (by decide), Memory.apply_cons,
      Memory.apply_cons, Memory.apply_nil, Memory.get_set_of_ne (by decide), Memory.get_set_self]
  obtain ⟨after, changes, hafter, rfl, -, hregisters, -, -, -, -, -, hcells, hpaused, -⟩ :=
    assemble_starts_clean s "NOP".toList
  rw [hchanges] at hcells
  refine ⟨s, hkey, hcode, after, hafter, ?_, ?_, hregisters, hpaused.mpr rfl⟩
  · rw [hcells _ (by decide), if_pos (by decide)]
  · rw [hcells _ (by decide), if_neg (by decide)]
    exact hcode

end Mos6502
