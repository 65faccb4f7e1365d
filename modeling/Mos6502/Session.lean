/-
A session: the last assembly and a simulator with a display.

Both report to one list, that of the simulator.  Assembling starts from a reset machine, so
nothing of an earlier run is left below the program.
-/
import Mos6502.Assembly.Basic
import Mos6502.Simulator.Goto

namespace Mos6502

/-- What a host works with. -/
structure Session where
  assembly : Assembly
  simulator : Simulator

namespace Session

/-- A session before anything was assembled. -/
def new (config : Config) : Session :=
  ⟨Assembly.empty, Simulator.ofMemory Memory.empty.attachDisplay config⟩

/-- What the display shows. -/
def display (session : Session) : Display :=
  session.simulator.memory.display?.getD Display.blank

/-- Changes the simulator. -/
def mapSimulator (f : Simulator → Simulator) : Session → Session
  | ⟨assembly, simulator⟩ => ⟨assembly, f simulator⟩

/-- Lets the simulator do something that has an answer. -/
def drive {α : Type} (f : Simulator → Simulator × α) : Session → Session × α
  | ⟨assembly, simulator⟩ =>
    match f simulator with
    | (simulator, answer) => (⟨assembly, simulator⟩, answer)

/-- Resets the machine and assembles a source text into its memory. -/
def assemble (source : Text) : Session → Session × Except AssembleError Report
  | ⟨_, simulator⟩ =>
    let assembly := Assembly.ofText source
    let loaded := simulator.reset.mapMemory assembly.load
    (⟨assembly, assembly.events.foldl (fun s event => s.report event) loaded⟩, assembly.result)

/-- Starts the program, or stops it. -/
def toggle (session : Session) : Session :=
  session.mapSimulator Simulator.toggle

/-- Lets the clock tick. -/
def tick (session : Session) : Session × Except Fault Nat :=
  session.drive Simulator.tick

/-- Lets the clock tick a number of times, or up to the first fault. -/
def ticks (session : Session) (count : Nat) : Session × Nat × Option Fault :=
  session.drive (Simulator.ticks count 0)

/-- Executes one instruction. -/
def step (session : Session) : Session × Option Fault :=
  session.drive Simulator.step

/-- Switches the stepper. -/
def setStepper (session : Session) (on : Bool) : Session :=
  session.mapSimulator fun s => s.setStepper on

/-- Resets the machine. -/
def reset (session : Session) : Session :=
  session.mapSimulator Simulator.reset

/-- Goes to a label of the last assembly, or to an address. -/
def goto (session : Session) (input : Text) : Session × Except UnknownPlace UInt16 :=
  session.drive fun s => s.goto session.assembly.labels input

/-- Latches the code of a key. -/
def press (session : Session) (key : UInt8) : Session :=
  session.mapSimulator fun s => s.press key

/-- Dumps the program from memory. -/
def dump (session : Session) : Session × Text :=
  let text := session.assembly.dump session.simulator.memory
  (session.mapSimulator fun s => s.report (.hexdump text), text)

/-- Disassembles the program from memory. -/
def disassemble (session : Session) : Session × List Instruction :=
  let instructions := session.assembly.disassemble session.simulator.memory
  (session.mapSimulator fun s => s.report (.disassembly instructions), instructions)

end Session

end Mos6502
