/-
Listing the labels of a source text.

Every line is sized, to know the address of the next, and a label gets the address of its
line.  The first line that is wrong ends the list: one that cannot be sized, or a label
whose name is taken.  The labels before it are kept.
-/
import Mos6502.Assembly.Encode
import Mos6502.Memory.Layout
import Mos6502.Source.Prepared

namespace Mos6502

namespace Labels

/-- Why a name cannot be a new label, if it cannot. -/
def refuse? (labels : Labels) (symbols : Symbols) (name : Text) (line : Nat) :
    Option LabelError :=
  if symbols.contains name then some (.shadowsDefine name line)
  else if labels.contains name then some (.duplicate name line)
  else none

/-- Lists the label of a line, if it has one. -/
def define (labels : Labels) (symbols : Symbols) (label : Option Text) (pc : UInt16)
    (line : Nat) : Except LabelError Labels :=
  match label with
  | none => .ok labels
  | some name =>
    match labels.refuse? symbols name line with
    | some error => .error error
    | none => .ok (labels.add ⟨name, pc, line⟩)

/-- The labels after a line, and the address after it. -/
def indexLine (symbols : Symbols) (labels : Labels) (pc : UInt16) (line : Nat) (text : Text) :
    Except LabelError (Labels × UInt16) :=
  match Line.parse? text with
  | none => .error (.malformed line text)
  | some parsed =>
    match parsed.statement.effect labels .size pc with
    | .error _ => .error (.malformed line text)
    | .ok effect =>
      (labels.define symbols parsed.label pc line).map fun labels => (labels, effect.next pc)

/-- Lists the labels of lines, the first of which has a number and an address. -/
def indexFrom (symbols : Symbols) (labels : Labels) (pc : UInt16) (line : Nat) :
    List Text → Labels × Option LabelError
  | [] => (labels, none)
  | text :: rest =>
    match indexLine symbols labels pc line text with
    | .error error => (labels, some error)
    | .ok (labels, pc) => indexFrom symbols labels pc (line + 1) rest

/-- Lists the labels of all lines, up to the first that is wrong. -/
def index (source : Prepared) : Labels × Option LabelError :=
  indexFrom source.symbols {} startAddress 1 source.lines

end Labels

end Mos6502
