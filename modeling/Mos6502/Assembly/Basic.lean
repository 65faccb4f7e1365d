/-
Assembling a source text.

The labels are listed first.  Then the lines are emitted one after another: bytes are put
at the current address, which moves on with them, and an origin sets the address and
opens a new segment.  A line that cannot be emitted ends the assembly, and what was emitted
before it stands.  After the last line one zero is written behind the program, so that it
ends in a break.

All of this depends on the source text alone.  An assembly lists the changes that it makes
to memory, and `Memory.apply` makes them.
-/
import Mos6502.Assembly.Index
import Mos6502.Assembly.SourceMap
import Mos6502.Event.Basic
import Mos6502.Memory.Dump

namespace Mos6502

/-- Bytes emitted without an origin in between. -/
structure Segment where
  start : UInt16
  length : Nat
deriving DecidableEq, Repr

/-! ### Emitting lines -/

/-- What the lines so far have emitted. -/
structure Emitted where
  /-- The address of the next byte. -/
  pc : UInt16
  /-- The number of bytes. -/
  count : Nat
  /-- The segments before the current one. -/
  closed : Array Segment
  /-- The segment that bytes are added to. -/
  current : Segment
  sourceMap : SourceMap
  /-- What was written to memory. -/
  changes : Array Change

namespace Emitted

/-- Before the first line. -/
def initial : Emitted where
  pc := startAddress
  count := 0
  closed := #[]
  current := ⟨startAddress, 0⟩
  sourceMap := {}
  changes := #[]

/-- All segments, also the empty ones. -/
def segments (e : Emitted) : List Segment :=
  (e.closed.push e.current).toList

/-- Opens a segment at an address. -/
def goTo (e : Emitted) (address : UInt16) : Emitted :=
  { e with pc := address, closed := e.closed.push e.current, current := ⟨address, 0⟩ }

/-- Puts the bytes of a line at the current address. -/
def store (e : Emitted) (line : Nat) (bytes : List UInt8) : Emitted where
  pc := e.pc + UInt16.ofNat bytes.length
  count := e.count + bytes.length
  closed := e.closed
  current := { e.current with length := e.current.length + bytes.length }
  sourceMap := e.sourceMap.add ⟨e.pc, UInt16.ofNat bytes.length⟩ line
  changes := e.changes ++ Memory.changesFrom e.pc bytes

/-- Takes over the effect of a line. -/
def take (e : Emitted) (line : Nat) : Effect → Emitted
  | .nothing => e
  | .origin address => e.goTo address
  | .bytes bytes => e.store line bytes

end Emitted

/-- The effect of a line of text when it is emitted. -/
def emitLine (labels : Labels) (pc : UInt16) (text : Text) : Except LineError Effect :=
  match Line.parse? text with
  | none => .error .malformed
  | some line => line.statement.effect labels .emit pc

/-- A line that could not be emitted. -/
structure Rejected where
  reason : LineError
  line : Nat
  text : Text
deriving DecidableEq, Repr

/-- Emits lines, the first of which has a number, up to one that is rejected. -/
def emitFrom (labels : Labels) (e : Emitted) (line : Nat) :
    List Text → Emitted × Option Rejected
  | [] => (e, none)
  | text :: rest =>
    match emitLine labels e.pc text with
    | .error reason => (e, some ⟨reason, line, text⟩)
    | .ok effect => emitFrom labels (e.take line effect) (line + 1) rest

/-! ### The whole source -/

/-- The size of a program that was assembled. -/
structure Report where
  bytes : Nat
  labels : Nat
deriving DecidableEq, Repr

/-- What assembling a source text yields. -/
structure Assembly where
  result : Except AssembleError Report
  labels : Labels
  /-- The address after the last line that was emitted. -/
  pc : UInt16
  /-- The number of bytes emitted. -/
  count : Nat
  segments : List Segment
  sourceMap : SourceMap
  /-- What is written to memory, in order. -/
  changes : List Change
  /-- What is reported, in order. -/
  events : List Event

namespace Assembly

/-- What there is before anything was assembled. -/
def empty : Assembly where
  result := .error .noCode
  labels := {}
  pc := startAddress
  count := 0
  segments := []
  sourceMap := {}
  changes := []
  events := []

/-- The reports up to the listing of the labels. -/
def opening : List Event :=
  [.assembleInfo "Preprocessing ...", .assembleInfo "Indexing labels ..."]

/-- The reports between listing the labels and emitting. -/
def indexed (labels : Labels) : List Event :=
  [.labelsInfo s!"Found {labels.size} label(s).", .assembleInfo "Assembling code ..."]

/-- The labels could not be listed: nothing is emitted. -/
def unlabelled (source : Prepared) (labels : Labels) (error : LabelError) : Assembly :=
  { empty with
    result := .error (.label error)
    labels
    events := opening ++ [.labelsFailure error.message,
      .assembleFailure error.line (source.lines[error.line - 1]?.getD []) .malformed] }

/-- A line was rejected: what came before it stands. -/
def rejected (labels : Labels) (e : Emitted) (r : Rejected) : Assembly where
  result := .error (.line r.reason r.line r.text)
  labels
  pc := e.pc
  count := e.count
  segments := e.segments
  sourceMap := e.sourceMap
  changes := e.changes.toList
  events := opening ++ indexed labels ++ [.assembleFailure r.line r.text r.reason]

/-- All lines were emitted. -/
def complete (labels : Labels) (e : Emitted) : Assembly :=
  let finished : Assembly :=
    { result := .ok ⟨e.count, labels.size⟩
      labels
      pc := e.pc
      count := e.count
      segments := e.segments.filter fun segment => segment.length != 0
      sourceMap := e.sourceMap.sort
      changes := (e.changes.push ⟨e.pc, 0⟩).toList
      events := opening ++ indexed labels ++ [.assembleSuccess e.count] }
  if e.count = 0 then
    { finished with
      result := .error .noCode
      changes := []
      events := opening ++ indexed labels ++ [.assembleInfo "No code to run."] }
  else finished

/-- Assembles prepared lines. -/
def ofPrepared (source : Prepared) : Assembly :=
  match Labels.index source with
  | (labels, some error) => unlabelled source labels error
  | (labels, none) =>
    match emitFrom labels Emitted.initial 1 source.lines with
    | (e, some r) => rejected labels e r
    | (e, none) => complete labels e

/-- Assembles a source text. -/
def ofText (source : Text) : Assembly :=
  ofPrepared (Prepared.ofText source)

/-! ### The program in memory -/

/-- The memory after the program was put into it. -/
def load (assembly : Assembly) (memory : Memory) : Memory :=
  memory.apply assembly.changes

/-- The instructions that are now where the program was put. -/
def disassemble (assembly : Assembly) (memory : Memory) : List Instruction :=
  assembly.segments.flatMap fun segment =>
    Instruction.disassemble segment.start (memory.read segment.start segment.length)

/-- A dump of where the program was put, a block for each segment. -/
def dump (assembly : Assembly) (memory : Memory) : Text :=
  joinWith ['\n'] (assembly.segments.map fun segment =>
    memory.dump segment.start.toNat segment.length {})

end Assembly

end Mos6502
