import Mos6502.Isa.Encoding
import Mos6502.Text.Blank
import Mos6502.Text.Word
import Mos6502.Text.Hex
import Mos6502.Text.Number
import Mos6502.Source.Prepared
import Mos6502.Source.Statement
import Mos6502.Memory.Dump
import Mos6502.Cpu.Step
import Mos6502.Assembly.Basic
import Mos6502.Assembly.Assembler
import Mos6502.Disassembly.Listing
import Mos6502.Event.Bus
import Mos6502.Session
import Mos6502.Proofs.Operand
import Mos6502.Proofs.Column
import Mos6502.Proofs.Indexing
import Mos6502.Proofs.TwoPass
import Mos6502.Proofs.Writes
import Mos6502.Proofs.Decoding
import Mos6502.Proofs.Emission
import Mos6502.Proofs.ReadBack
import Mos6502.Proofs.Word
import Mos6502.Proofs.Substitution
import Mos6502.Proofs.Printed
import Mos6502.Proofs.PrintedOperand
import Mos6502.Proofs.Reassemble
import Mos6502.Proofs.Schedule
import Mos6502.Proofs.Segments
import Mos6502.Proofs.Faults
import Mos6502.Proofs.Outcome
import Mos6502.Proofs.Mirror
import Mos6502.Proofs.Ending
import Mos6502.Proofs.PutProgram
import Mos6502.Proofs.PutRun
import Mos6502.Proofs.Reuse
import Mos6502.Proofs.Terminator
import Mos6502.Proofs.Readings
import Mos6502.Proofs.LineParts
import Mos6502.Proofs.Front
import Mos6502.Proofs.Spacing
import Mos6502.Proofs.Lookup
import Mos6502.Proofs.LineMap
import Mos6502.Proofs.Reports
import Mos6502.Proofs.Account
import Mos6502.Proofs.Footprint
import Mos6502.Proofs.RandomCell
import Mos6502.Proofs.DumpReading
import Mos6502.Proofs.Branching
import Mos6502.Proofs.Flow
import Mos6502.Proofs.CarryChain
import Mos6502.Proofs.Imprint
import Mos6502.Proofs.Frame
import Mos6502.Proofs.Stack
import Mos6502.Proofs.Failing
import Mos6502.Proofs.TickCount
import Mos6502.Proofs.LabelTable
import Mos6502.Proofs.Rewriting
import Mos6502.Proofs.ShortestForm
import Mos6502.Proofs.Constants
import Mos6502.Proofs.Alignment
import Mos6502.Proofs.ChangeLog
import Mos6502.Proofs.CleanStart
import Mos6502.Proofs.Spelling
import Mos6502.Proofs.Rendering
import Mos6502.Proofs.DumpLayout
import Mos6502.Proofs.HeldDisplay
import Mos6502.Proofs.Delivery
import Mos6502.Proofs.Recurrence
import Mos6502.Proofs.Radix
import Mos6502.Proofs.ShiftRow
import Mos6502.Proofs.ShiftChain
import Mos6502.Proofs.LineLayout
