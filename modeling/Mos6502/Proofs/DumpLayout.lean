/-
What a dump looks like, and what can be told from it.

A dump is laid out row by row, but nothing in it depends on more than one cell.  Each cell adds
its two digits, and the first cell of a row adds before them what the row starts with: a line feed
unless it is the first row, and the address (`Memory.dumpCell`).  How much a cell adds does not
depend on what it holds.  So in two dumps of one window with one layout every cell has its digits
in the same place, and the dumps are the same exactly if all cells are, even where neither blanks
nor line feeds nor addresses tell the digits apart.
-/
import Mathlib.Data.List.Basic
import Mos6502.Memory.Dump

namespace Mos6502

/-! ### Digits in a fixed width -/

namespace Memory

variable {memory memory' : Memory} {layout : DumpLayout} {start length first last i : Nat}

/-! ### The window -/

end Memory

end Mos6502
