/-
Going to a place that a user names.

A place is a label, or an address in hexadecimal with `$` or `0x` in front of one to four
digits.  A label wins over an address.  Blanks around the name do not count.
-/
import Mos6502.Assembly.Label
import Mos6502.Simulator.Basic
import Mos6502.Text.Blank
import Mos6502.Text.Number

namespace Mos6502

/-- A word written with one to four hexadecimal digits. -/
def shortWord? (digits : Text) : Option UInt16 :=
  if digits.length ≤ 4 then word? 16 digits else none

/-- The address that a text writes in hexadecimal. -/
def writtenAddress? : Text → Option UInt16
  | '$' :: digits => shortWord? digits
  | '0' :: 'x' :: digits => shortWord? digits
  | '0' :: 'X' :: digits => shortWord? digits
  | _ => none

/-- The address that a text names. -/
def Labels.place? (labels : Labels) (name : Text) : Option UInt16 :=
  (labels.address? name).or (writtenAddress? name)

/-- A name that stands for no place. -/
structure UnknownPlace where
  name : Text
deriving DecidableEq, Repr

namespace Simulator

/-- What is reported of a name that stands for no place. -/
def unknownPlace : String :=
  "Unable to find/parse given address/label"

/-- Goes to the place that a user names.  If there is none, it is reported and nothing
else changes. -/
def goto (s : Simulator) (labels : Labels) (input : Text) :
    Simulator × Except UnknownPlace UInt16 :=
  let name := trim input
  match labels.place? name with
  | some address =>
    ((s.mapCpu fun cpu => cpu.jump address).report (.goto address), .ok address)
  | none => (s.report (.simulatorInfo unknownPlace), .error ⟨name⟩)

end Simulator

/-- The failure in words. -/
def UnknownPlace.message (place : UnknownPlace) : String :=
  s!"{Simulator.unknownPlace}: {String.ofList place.name}"

end Mos6502
