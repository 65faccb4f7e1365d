/-
Everything that is reported to the outside.

An event has a name, by which a host tells the kinds apart, and a text for a reader.
-/
import Mos6502.Assembly.Error
import Mos6502.Disassembly.Instruction

namespace Mos6502

/-- Why a run stopped. -/
inductive StopReason where
  /-- It was asked to. -/
  | requested
  /-- The program ended; the address is that of the last byte fetched. -/
  | programEnd (pc : UInt16)
  /-- A byte was no opcode. -/
  | fault (address : UInt16)
  /-- An instruction on interrupts. -/
  | unimplemented
deriving DecidableEq, Repr

/-- The reason as text. -/
def StopReason.text : StopReason → String
  | requested => "Requested"
  | programEnd pc => "ProgramEnd \x7b pc: " ++ toString pc ++ " \x7d"
  | fault address => "Fault \x7b address: " ++ toString address ++ " \x7d"
  | unimplemented => "Unimplemented"

/-- Something that happened. -/
inductive Event where
  | assembleSuccess (bytes : Nat)
  | assembleFailure (line : Nat) (text : Text) (reason : LineError)
  | hexdump (text : Text)
  | disassembly (instructions : List Instruction)
  | assembleInfo (message : String)
  | start
  | step
  | multistep
  | reset
  | stop (reason : StopReason)
  | goto (address : UInt16)
  | simulatorFailure (message : String)
  | simulatorInfo (message : String)
  | output (value : UInt8)
  | labelsInfo (message : String)
  | labelsFailure (message : String)
deriving DecidableEq, Repr

namespace Event

/-- The kind of an event. -/
def name : Event → String
  | assembleSuccess _ => "assemble-success"
  | assembleFailure .. => "assemble-failure"
  | hexdump _ => "hexdump"
  | disassembly _ => "disassembly"
  | assembleInfo _ => "assemble-info"
  | start => "start"
  | step => "step"
  | multistep => "multistep"
  | reset => "reset"
  | stop _ => "stop"
  | goto _ => "goto"
  | simulatorFailure _ => "simulator-failure"
  | simulatorInfo _ => "simulator-info"
  | output _ => "pseudo-op"
  | labelsInfo _ => "labels-info"
  | labelsFailure _ => "labels-failure"

/-- An event in words. -/
def text : Event → String
  | assembleSuccess bytes => s!"Code assembled successfully, {bytes} bytes."
  | assembleFailure line text reason => reason.message line text
  | hexdump text => String.ofList text
  | disassembly instructions => s!"{instructions.length} instruction(s)"
  | goto address => s!"${String.ofList (hexWord address)}"
  | stop reason => reason.text
  | output value => s!"output ${String.ofList (hexByte value)}"
  | assembleInfo message | simulatorFailure message | simulatorInfo message
  | labelsInfo message | labelsFailure message => message
  | event => event.name

end Event

end Mos6502
