/-
The sixteen colours of the display.
-/
import Mos6502.Text.Hex

namespace Mos6502

/-- A colour by its red, green and blue parts. -/
structure Rgb where
  red : UInt8
  green : UInt8
  blue : UInt8
deriving DecidableEq, Repr

/-- A colour as `#rrggbb`. -/
def Rgb.hex (colour : Rgb) : Text :=
  '#' :: (hexByte colour.red ++ hexByte colour.green ++ hexByte colour.blue)

/-- The number of a colour in the palette. -/
abbrev Shade := Fin 16

/-- The shade that a byte selects: its low four bits. -/
def Shade.ofByte (value : UInt8) : Shade :=
  ⟨value.toNat % 16, Nat.mod_lt _ (by decide)⟩

/-- Black, white, red, cyan, purple, green, blue, yellow, orange, brown, light red, dark
grey, grey, light green, light blue and light grey. -/
def palette : Vector Rgb 16 :=
  #v[⟨0x00, 0x00, 0x00⟩, ⟨0xff, 0xff, 0xff⟩, ⟨0x88, 0x00, 0x00⟩, ⟨0xaa, 0xff, 0xee⟩,
     ⟨0xcc, 0x44, 0xcc⟩, ⟨0x00, 0xcc, 0x55⟩, ⟨0x00, 0x00, 0xaa⟩, ⟨0xee, 0xee, 0x77⟩,
     ⟨0xdd, 0x88, 0x55⟩, ⟨0x66, 0x44, 0x00⟩, ⟨0xff, 0x77, 0x77⟩, ⟨0x33, 0x33, 0x33⟩,
     ⟨0x77, 0x77, 0x77⟩, ⟨0xaa, 0xff, 0x66⟩, ⟨0x00, 0x88, 0xff⟩, ⟨0xbb, 0xbb, 0xbb⟩]

/-- The colour of a shade. -/
def Shade.rgb (shade : Shade) : Rgb :=
  palette[shade]

end Mos6502
