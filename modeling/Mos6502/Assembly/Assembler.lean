/-
An assembler that is used for one source text after another.

`Assembly.ofText` says what comes of a source text.  Whoever works with an assembler keeps it,
though, with the labels, the address, the count, the segments and the map of the last text
still in it, and with it the memory that all the texts are put into.  An assembly goes over
these in place: some are cleared before it starts, the labels only when new ones are listed,
and the last segment grows with every line.  Where an assembly fails it stops, and leaves what
there is by then.
-/
import Mos6502.Assembly.Basic

namespace Mos6502

/-- A table with nothing in it. -/
def Labels.reset (labels : Labels) : Labels :=
  { labels with entries := [] }

/-- Lists the labels of a source text in place of the earlier ones, and counts them.  The
labels before an error are kept. -/
def Labels.relist (labels : Labels) (source : Prepared) : Labels × Except LabelError Nat :=
  match indexFrom source.symbols labels.reset startAddress 1 source.lines with
  | (labels, some error) => (labels, .error error)
  | (labels, none) => (labels, .ok labels.size)

/-- A map with no entries. -/
def SourceMap.clear (map : SourceMap) : SourceMap :=
  { map with byAddress := #[], byLine := #[] }

/-- What an assembler keeps from one source text to the next. -/
structure Assembler where
  labels : Labels := {}
  /-- The address of the next byte. -/
  pc : UInt16 := startAddress
  /-- The number of bytes. -/
  count : Nat := 0
  /-- The segments; the last is the one that bytes are added to. -/
  segments : Array Segment := #[]
  sourceMap : SourceMap := {}
deriving DecidableEq, Repr

/-- An assembler with the memory that it writes to, and all that it has reported. -/
structure Workbench where
  assembler : Assembler
  memory : Memory
  /-- The earliest first. -/
  events : List Event

namespace Workbench

/-- Reports an event. -/
def report (w : Workbench) (event : Event) : Workbench :=
  { w with events := w.events ++ [event] }

/-- Clears what was emitted for the last source text.  The labels stay. -/
def clear (w : Workbench) : Workbench :=
  { w with
    assembler.pc := startAddress
    assembler.count := 0
    assembler.segments := #[]
    assembler.sourceMap := w.assembler.sourceMap.clear }

/-- Lists the labels of a source text. -/
def relist (w : Workbench) (source : Prepared) : Workbench × Except LabelError Nat :=
  match w.assembler.labels.relist source with
  | (labels, found) => ({ w with assembler.labels := labels }, found)

/-! ### Emitting lines -/

/-- Opens a segment at an address. -/
def openSegment (w : Workbench) (address : UInt16) : Workbench :=
  { w with assembler.segments := w.assembler.segments.push ⟨address, 0⟩ }

/-- Goes on at an address, in a new segment. -/
def goTo (w : Workbench) (address : UInt16) : Workbench :=
  { w with assembler.pc := address }.openSegment address

/-- Writes a byte to the current address. -/
def put (w : Workbench) (value : UInt8) : Workbench :=
  { w with
    assembler.pc := w.assembler.pc + 1
    memory := w.memory.set w.assembler.pc value }

/-- Counts bytes that a line has put from an address on. -/
def tally (w : Workbench) (line : Nat) (start : UInt16) (length : Nat) : Workbench :=
  { w with
    assembler.count := w.assembler.count + length
    assembler.segments := w.assembler.segments.modify (w.assembler.segments.size - 1)
      fun segment => { segment with length := segment.length + length }
    assembler.sourceMap := w.assembler.sourceMap.add ⟨start, UInt16.ofNat length⟩ line }

/-- Puts the bytes of a line at the current address. -/
def store (w : Workbench) (line : Nat) (bytes : List UInt8) : Workbench :=
  (bytes.foldl put w).tally line w.assembler.pc bytes.length

/-- Takes over the effect of a line. -/
def take (w : Workbench) (line : Nat) : Effect → Workbench
  | .nothing => w
  | .origin address => w.goTo address
  | .bytes bytes => w.store line bytes

/-- Emits lines, the first of which has a number, up to one that is rejected. -/
def emit (w : Workbench) (line : Nat) : List Text → Workbench × Option Rejected
  | [] => (w, none)
  | text :: rest =>
    match emitLine w.assembler.labels w.assembler.pc text with
    | .error reason => (w, some ⟨reason, line, text⟩)
    | .ok effect => emit (w.take line effect) (line + 1) rest

/-! ### The whole source -/

/-- Ends with the labels, which could not be listed. -/
def unlabelled (w : Workbench) (source : Prepared) (error : LabelError) :
    Workbench × Except AssembleError Report :=
  let text := source.lines[error.line - 1]?.getD []
  ((w.report (.labelsFailure error.message)).report (.assembleFailure error.line text .malformed),
    .error (.label error))

/-- Ends with a line that was rejected. -/
def rejected (w : Workbench) (r : Rejected) : Workbench × Except AssembleError Report :=
  (w.report (.assembleFailure r.line r.text r.reason), .error (.line r.reason r.line r.text))

/-- Drops the segments without bytes, and sorts the map. -/
def tidy (w : Workbench) : Workbench :=
  { w with
    assembler.segments := w.assembler.segments.filter fun segment => segment.length != 0
    assembler.sourceMap := w.assembler.sourceMap.sort }

/-- Ends after the last line, with a zero behind the program if there is one. -/
def finish (w : Workbench) (labels : Nat) : Workbench × Except AssembleError Report :=
  if w.assembler.count = 0 then
    (w.report (.assembleInfo "No code to run."), .error .noCode)
  else
    ({ w with memory := w.memory.set w.assembler.pc 0 }.report
      (.assembleSuccess w.assembler.count), .ok ⟨w.assembler.count, labels⟩)

/-- Emits all lines of a source text, whose labels are listed. -/
def emitAll (w : Workbench) (source : Prepared) (labels : Nat) :
    Workbench × Except AssembleError Report :=
  match (w.openSegment w.assembler.pc).emit 1 source.lines with
  | (w, some r) => w.rejected r
  | (w, none) => w.tidy.finish labels

/-- Assembles a source text into the memory. -/
def assemble (w : Workbench) (text : Text) : Workbench × Except AssembleError Report :=
  let source := Prepared.ofText text
  let w := (w.clear.report (.assembleInfo "Preprocessing ...")).report
    (.assembleInfo "Indexing labels ...")
  match w.relist source with
  | (w, .error error) => w.unlabelled source error
  | (w, .ok labels) =>
    ((w.report (.labelsInfo s!"Found {labels} label(s).")).report
      (.assembleInfo "Assembling code ...")).emitAll source labels

end Workbench

end Mos6502
