/-
Where things are in memory.

Page zero holds the random byte and the last key, page one the stack.  The display shows
`$0200` to `$05FF`, and programs are put behind it.
-/
namespace Mos6502

/-- The cell that gets a random byte before every instruction. -/
def randomAddress : UInt16 := 0x00fe

/-- The cell that holds the code of the last key. -/
def keyAddress : UInt16 := 0x00ff

/-- The first cell of the stack. -/
def stackPage : UInt16 := 0x0100

/-- Where programs are put, and where they start. -/
def startAddress : UInt16 := 0x0600

end Mos6502
