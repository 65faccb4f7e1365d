/-
Hexadecimal dumps of memory.

A dump shows a window of cells in rows of sixteen, counted from the start of the window.
The window ends with the last cell of memory, and one that starts beyond it starts at it.
Addresses in front of the rows, blanks after the bytes and line feeds between the rows can
each be left out.
-/
import Mos6502.Memory.Basic

namespace Mos6502

/-- What a dump shows besides the bytes. -/
structure DumpLayout where
  /-- An address in front of every row. -/
  addresses : Bool := true
  /-- A blank after every byte. -/
  blanks : Bool := true
  /-- A line feed between neighbouring rows. -/
  lineFeeds : Bool := true
deriving DecidableEq, Repr

namespace Memory

/-- The first cell of a window. -/
def windowStart (start : Nat) : Nat :=
  min start 0xffff

/-- The number of cells of a window. -/
def windowLength (start length : Nat) : Nat :=
  min length (0x10000 - windowStart start)

/-- One byte of a row. -/
def dumpByte (layout : DumpLayout) (value : UInt8) : Text :=
  hexByte value ++ if layout.blanks then [' '] else []

/-- A row with some cells from an address on. -/
def dumpRow (memory : Memory) (layout : DumpLayout) (first count : Nat) : Text :=
  (if layout.addresses then hexWord (UInt16.ofNat first) ++ [':', ' '] else []) ++
    (List.range count).flatMap fun i =>
      dumpByte layout (memory.get (UInt16.ofNat (first + i)))

/-- The rows of a dump. -/
def dumpRows (memory : Memory) (layout : DumpLayout) (start length : Nat) : List Text :=
  let first := windowStart start
  let count := windowLength start length
  (List.range ((count + 15) / 16)).map fun r =>
    memory.dumpRow layout (first + 16 * r) (min 16 (count - 16 * r))

/-- The dump of a window. -/
def dump (memory : Memory) (start length : Nat) (layout : DumpLayout) : Text :=
  joinWith (if layout.lineFeeds then ['\n'] else []) (memory.dumpRows layout start length)

/-- Sixteen at a time, all places of a window are gone through. -/
theorem flatMap_range_rows (count rows : Nat) :
    ((List.range rows).flatMap fun r => List.range' (16 * r) (min 16 (count - 16 * r))) =
      List.range (min count (16 * rows)) := by
  induction rows with
  | zero => simp
  | succ rows ih =>
    rw [List.range_succ, List.flatMap_append, ih, List.flatMap_singleton, List.range_eq_range',
      List.range_eq_range']
    by_cases hrest : 16 * rows ≤ count
    · have hcount : min count (16 * (rows + 1)) = 16 * rows + min 16 (count - 16 * rows) := by
        omega
      rw [Nat.min_eq_right hrest, hcount, ← List.range'_append_1, Nat.zero_add]
    · have hnone : min 16 (count - 16 * rows) = 0 := by omega
      have hcount : min count (16 * (rows + 1)) = min count (16 * rows) := by omega
      rw [hnone, hcount, List.range'_zero, List.append_nil]

end Memory

end Mos6502
