/-
Why a source text cannot be assembled.
-/
import Mos6502.Text.Basic

namespace Mos6502

/-- Why a line is rejected. -/
inductive LineError where
  /-- It is no statement, or its operand has no form that the instruction allows. -/
  | malformed
  /-- It is a branch to an address more than 128 bytes back or 127 bytes ahead. -/
  | branchRange
deriving DecidableEq, Repr

/-- Why the labels of a source text cannot be listed. -/
inductive LabelError where
  /-- A second label of the same name. -/
  | duplicate (name : Text) (line : Nat)
  /-- A label with the name of a constant. -/
  | shadowsDefine (name : Text) (line : Nat)
  /-- A line whose length cannot be told. -/
  | malformed (line : Nat) (text : Text)
deriving DecidableEq, Repr

/-- Why a source text cannot be assembled. -/
inductive AssembleError where
  /-- A line was rejected. -/
  | line (reason : LineError) (line : Nat) (text : Text)
  /-- The labels cannot be listed. -/
  | label (error : LabelError)
  /-- There is nothing to assemble. -/
  | noCode
deriving DecidableEq, Repr

/-- A rejected line in words. -/
def LineError.message (line : Nat) (text : Text) : LineError → String
  | malformed => s!"Syntax error line {line}: {String.ofList text}"
  | branchRange => s!"Branch out of range line {line}: {String.ofList text}"

namespace LabelError

/-- The line at fault, counted from one. -/
def line : LabelError → Nat
  | duplicate _ line | shadowsDefine _ line | malformed line _ => line

/-- The error in words. -/
def message : LabelError → String
  | duplicate name line => s!"Label {String.ofList name} is already used (line {line})"
  | shadowsDefine name line =>
    s!"Label {String.ofList name} is already used as a define (line {line})"
  | malformed line text => LineError.malformed.message line text

end LabelError

namespace AssembleError

/-- The line at fault, if there is one. -/
def line? : AssembleError → Option Nat
  | line _ n _ => some n
  | label error => some error.line
  | noCode => none

/-- The error in words. -/
def message : AssembleError → String
  | line reason n text => reason.message n text
  | label error => error.message
  | noCode => "No code to run"

end AssembleError

end Mos6502
