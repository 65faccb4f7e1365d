/-
The display: 32 rows of 32 pixels over the memory cells `$0200` to `$05FF`.

Each cell is one pixel, row by row, and its low four bits choose the shade.  A display
holds its own copy of the shades and is told about writes one at a time, so what it
shows depends on which writes reach it.
-/
import Mos6502.Display.Palette

namespace Mos6502

/-- The place of a cell on the display, counted row by row, for the cells it shows. -/
def displayCell? (address : UInt16) : Option (Fin 1024) :=
  if h : 0x0200 ≤ address.toNat ∧ address.toNat < 0x0600 then
    some ⟨address.toNat - 0x0200, by omega⟩
  else none

/-- The column and the row of a cell. -/
def pixelOf? (address : UInt16) : Option (Nat × Nat) :=
  (displayCell? address).map fun cell => (cell.val % 32, cell.val / 32)

/-- The shade of every pixel. -/
structure Display where
  pixels : Vector Shade 1024
deriving DecidableEq

namespace Display

/-- A black display. -/
def blank : Display :=
  ⟨Vector.replicate 1024 0⟩

/-- What a write to memory changes on the display. -/
def update (display : Display) (address : UInt16) (value : UInt8) : Display :=
  match displayCell? address with
  | some cell => ⟨display.pixels.set cell.val (Shade.ofByte value) cell.isLt⟩
  | none => display

/-- The shade in a column and a row; both wrap at 32. -/
def pixel (display : Display) (x y : Nat) : Shade :=
  display.pixels[y % 32 * 32 + x % 32]

/-- The colour in a column and a row. -/
def colour (display : Display) (x y : Nat) : Rgb :=
  (display.pixel x y).rgb

/-- Red, green, blue and full opacity of every pixel, row by row. -/
def rgba (display : Display) : List UInt8 :=
  display.pixels.toList.flatMap fun shade =>
    [shade.rgb.red, shade.rgb.green, shade.rgb.blue, 0xff]

/-! ### What an update changes -/

/-- A write to a cell of the display changes that pixel and no other. -/
theorem getElem_update_of_cell {display : Display} {address : UInt16} {cell : Fin 1024}
    (h : displayCell? address = some cell) (value : UInt8) (other : Fin 1024) :
    (display.update address value).pixels[other] =
      if other = cell then Shade.ofByte value else display.pixels[other] := by
  simp only [update, h, Fin.getElem_fin, Vector.getElem_set, Fin.ext_iff, eq_comm]

/-- A write elsewhere changes nothing. -/
theorem update_of_outside {display : Display} {address : UInt16}
    (h : displayCell? address = none) (value : UInt8) :
    display.update address value = display := by
  simp only [update, h]

end Display

end Mos6502
