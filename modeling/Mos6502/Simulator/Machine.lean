/-
The machine that a simulator drives: a processor and the generator behind its random cell.

A step draws a byte, writes it to the random cell and executes one instruction.  A machine
can do nothing else on its own, so what a program computes depends on the number of steps
and not on who asked for them.
-/
import Mos6502.Cpu.Step
import Mos6502.Simulator.Random

namespace Mos6502

/-- A processor and the generator behind its random cell. -/
structure Machine where
  cpu : Cpu
  random : Random

namespace Machine

/-- The machine after the random cell was refreshed. -/
def refresh : Machine → Machine
  | ⟨cpu, random⟩ => ⟨cpu.store randomAddress random.next.byte, random.next⟩

/-- Refreshes the random cell and executes one instruction. -/
def step (machine : Machine) : Machine × Option Fault :=
  match machine.refresh with
  | ⟨cpu, random⟩ =>
    match cpu.step with
    | (cpu, fault) => (⟨cpu, random⟩, fault)

/-- Changes the processor. -/
def mapCpu (f : Cpu → Cpu) : Machine → Machine
  | ⟨cpu, random⟩ => ⟨f cpu, random⟩

theorem step_eq (machine : Machine) :
    machine.step = (⟨machine.refresh.cpu.step.1, machine.refresh.random⟩,
      machine.refresh.cpu.step.2) := rfl

end Machine

end Mos6502
