/-
Running a program under the control of a host.

A simulator drives a machine and reports what happens.  The host owns the clock: while the
program runs, each tick executes a batch of instructions, and with the stepper on ticks do
nothing and the host asks for single instructions.  Whoever asks, an instruction is executed
by `execute`, which refreshes the random cell, passes on the signals of the processor and
notices the end of the program.

A program ends when a break was executed or when the program counter is zero; the address
reported is then one below the program counter.  A break under the stepper only pauses it.
-/
import Mos6502.Event.Basic
import Mos6502.Simulator.Config
import Mos6502.Simulator.Machine

namespace Mos6502

/-- A machine with what a host sees of it. -/
structure Simulator where
  machine : Machine
  /-- Whether ticks execute instructions. -/
  running : Bool
  /-- Whether ticks are suspended in favour of single instructions. -/
  stepper : Bool
  config : Config
  /-- What was reported, the earliest first. -/
  events : Array Event

/-- What a simulator is doing, as a host shows it. -/
inductive RunState where
  /-- The registers are as after a reset, and there is no program. -/
  | initialized
  /-- The registers are as after a reset, and there is a program. -/
  | ready
  | running
  /-- Running with the stepper on. -/
  | debugging
  /-- Not running, with the stepper on. -/
  | debuggingPaused
  /-- Not running, with other registers than after a reset. -/
  | stopped
deriving DecidableEq, Repr

namespace Simulator

/-! ### Starting and looking -/

/-- A simulator over a memory, with initial registers. -/
def ofMemory (memory : Memory) (config : Config) : Simulator where
  machine := ⟨Cpu.ofMemory memory, config.random⟩
  running := false
  stepper := false
  config
  events := #[]

/-- The processor. -/
def cpu (s : Simulator) : Cpu :=
  s.machine.cpu

/-- The memory. -/
def memory (s : Simulator) : Memory :=
  s.cpu.memory

/-- The registers as numbers. -/
def registers (s : Simulator) : Registers :=
  s.cpu.registers

/-- What the simulator is doing. -/
def state (s : Simulator) : RunState :=
  match s.stepper, s.running with
  | true, true => .debugging
  | true, false => .debuggingPaused
  | false, true => .running
  | false, false =>
    if !s.registers.isInitial then .stopped
    else if s.memory.hasDataFrom startAddress then .ready
    else .initialized

/-- A simulator in short. -/
def summary (s : Simulator) : String :=
  "Simulator \x7b cpu: " ++ s.cpu.summary ++ ", running: " ++ toString s.running ++
    ", stepper: " ++ toString s.stepper ++ ", config: " ++ s.config.summary ++ ", .. \x7d"

/-! ### Changing one part -/

/-- Adds a report. -/
def report (event : Event) : Simulator → Simulator
  | ⟨machine, running, stepper, config, events⟩ =>
    ⟨machine, running, stepper, config, events.push event⟩

/-- The same simulator after its reports were taken. -/
def clearEvents (s : Simulator) : Simulator :=
  { s with events := #[] }

/-- Changes the processor. -/
def mapCpu (f : Cpu → Cpu) : Simulator → Simulator
  | ⟨machine, running, stepper, config, events⟩ =>
    ⟨machine.mapCpu f, running, stepper, config, events⟩

/-- Changes the memory. -/
def mapMemory (f : Memory → Memory) (s : Simulator) : Simulator :=
  s.mapCpu fun cpu => cpu.mapMemory f

/-- Latches the code of a key. -/
def press (s : Simulator) (key : UInt8) : Simulator :=
  s.mapMemory fun memory => memory.press key

/-! ### A report changes nothing else -/

@[simp] theorem machine_report (event : Event) (s : Simulator) :
    (s.report event).machine = s.machine := rfl

@[simp] theorem running_report (event : Event) (s : Simulator) :
    (s.report event).running = s.running := rfl

@[simp] theorem stepper_report (event : Event) (s : Simulator) :
    (s.report event).stepper = s.stepper := rfl

@[simp] theorem config_report (event : Event) (s : Simulator) :
    (s.report event).config = s.config := rfl

@[simp] theorem events_report (event : Event) (s : Simulator) :
    (s.report event).events = s.events.push event := rfl

/-! ### Starting and stopping -/

/-- Stops, and says why. -/
def stop (s : Simulator) (reason : StopReason) : Simulator :=
  { s with running := false }.report (.stop reason)

/-- Stops a running program and starts one that is not running. -/
def toggle (s : Simulator) : Simulator :=
  if s.running then s.stop .requested
  else { s with running := true }.report .start

/-- Switches the stepper. -/
def setStepper (s : Simulator) (on : Bool) : Simulator :=
  { s with stepper := on }

/-- Stops, zeroes the memory below the program and puts the registers back. -/
def reset (s : Simulator) : Simulator :=
  ({ s with running := false }.mapCpu fun cpu =>
    (cpu.mapMemory fun memory => memory.clear 0 startAddress).reset).report .reset

/-! ### One instruction -/

/-- Acts on a signal of the processor. -/
def notice (s : Simulator) : Signal → Simulator
  | .halt => { s with running := false }
  | .filled => s.report (.simulatorInfo "6502 Stack filled! Wrapping...")
  | .emptied => s.report (.simulatorInfo "6502 Stack emptied! Wrapping...")
  | .output value => s.report (.output value)

/-- Takes the signals of the processor, the earliest first. -/
def takeSignals (s : Simulator) : Simulator :=
  let signals := s.cpu.signals
  signals.foldl notice (s.mapCpu Cpu.clearSignals)

/-- The reason to stop after a fault. -/
def faultReason : Fault → StopReason
  | .unknownOpcode _ address => .fault address
  | .unimplemented _ => .unimplemented

/-- Stops after a fault. -/
def fail (s : Simulator) (fault : Fault) : Simulator :=
  (s.report (.simulatorFailure fault.message)).stop (faultReason fault)

/-- Stops at the end of the program. -/
def endProgram (s : Simulator) : Simulator :=
  let last := s.cpu.pc - 1
  (s.report (.simulatorInfo s!"Program end at PC=${String.ofList (hexWord last)}")).stop
    (.programEnd last)

/-- Whether the program is over after an instruction. -/
def ended (s : Simulator) (debugging : Bool) : Bool :=
  s.cpu.pc == 0 || !s.running && !debugging

/-- Reports an instruction, and the end of the program if this was it. -/
def finish (s : Simulator) (debugging : Bool) : Simulator :=
  let reported := s.report .step
  if reported.ended debugging then reported.endProgram else reported

/-- Lets the machine make a step and takes the signals that it raised. -/
def advance : Simulator → Simulator × Option Fault
  | ⟨machine, running, stepper, config, events⟩ =>
    match machine.step with
    | (machine, fault) => (takeSignals ⟨machine, running, stepper, config, events⟩, fault)

/-- Executes one instruction if the program is running, or in any case when debugging. -/
def execute (s : Simulator) (debugging : Bool) : Simulator × Option Fault :=
  if s.running || debugging then
    match s.advance with
    | (s, some fault) => (s.fail fault, some fault)
    | (s, none) => (s.finish debugging, none)
  else (s, none)

/-- Executes one instruction, running or not. -/
def step (s : Simulator) : Simulator × Option Fault :=
  s.execute true

/-- Executes instructions one by one up to a number, or up to the first fault. -/
def steps : Nat → Simulator → Simulator × Option Fault
  | 0, s => (s, none)
  | n + 1, s =>
    match s.step with
    | (s, none) => steps n s
    | (s, some fault) => (s, some fault)

/-! ### Batches -/

/-- Executes instructions while the program is running, up to a number.  The answer adds
how many they were to `executed`. -/
def batch : Nat → Nat → Simulator → Simulator × Except Fault Nat
  | 0, executed, s => (s, .ok executed)
  | n + 1, executed, s =>
    if s.running then
      match s.execute false with
      | (s, none) => batch n (executed + 1) s
      | (s, some fault) => (s, .error fault)
    else (s, .ok executed)

/-- What the host does when its clock ticks.  The answer says how many instructions were
executed. -/
def tick (s : Simulator) : Simulator × Except Fault Nat :=
  if s.running && !s.stepper then
    match batch s.config.batchSize 0 s with
    | (s, .ok executed) => (s.report .multistep, .ok executed)
    | (s, .error fault) => (s, .error fault)
  else (s, .ok 0)

/-- Ticks a number of times, or up to the first fault.  The answer adds the instructions of
the ticks without a fault to `executed`. -/
def ticks : Nat → Nat → Simulator → Simulator × Nat × Option Fault
  | 0, executed, s => (s, executed, none)
  | n + 1, executed, s =>
    match s.tick with
    | (s, .ok more) => ticks n (executed + more) s
    | (s, .error fault) => (s, executed, some fault)

end Simulator

end Mos6502
