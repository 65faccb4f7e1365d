/-
Which line emitted which bytes.

A map is filled line by line.  It keeps its entries twice, to be searched by address and by line,
and once it is complete each of the two rows is sorted by what it is searched by.  A search is a
bisection in either: it arrives at the last entry that does not come after what is looked for, so
of two entries that start together the one added later counts, and it looks at no other.
-/
import Mos6502.Bisect

namespace Mos6502

/-- A row of cells.  Its length is counted modulo 65536. -/
structure AddressRange where
  start : UInt16
  length : UInt16
deriving DecidableEq, Repr

/-- Whether a cell is in a range.  A range may go on at `$0000` after `$FFFF`. -/
def AddressRange.contains (range : AddressRange) (address : UInt16) : Bool :=
  address - range.start < range.length

/-- The cells that a line filled. -/
structure Mapping where
  range : AddressRange
  line : Nat
deriving DecidableEq, Repr

namespace Mapping

/-- Where the cells start. -/
def start (entry : Mapping) : Nat :=
  entry.range.start.toNat

end Mapping

/-- What each line emitted. -/
structure SourceMap where
  /-- The entries in the order of their addresses. -/
  byAddress : Array Mapping := #[]
  /-- The entries in the order of their lines. -/
  byLine : Array Mapping := #[]
deriving DecidableEq, Repr

namespace SourceMap

/-- A map with one more entry. -/
def add (map : SourceMap) (range : AddressRange) (line : Nat) : SourceMap :=
  ⟨map.byAddress.push ⟨range, line⟩, map.byLine.push ⟨range, line⟩⟩

/-- The number of entries. -/
def size (map : SourceMap) : Nat :=
  map.byAddress.size

/-- Entries in the order of a key; those with the same key stay in the order in which they were
added. -/
def sortBy (key : Mapping → Nat) (entries : Array Mapping) : Array Mapping :=
  (entries.toList.mergeSort fun e f => key e ≤ key f).toArray

/-- Puts the entries into order. -/
def sort (map : SourceMap) : SourceMap :=
  ⟨sortBy Mapping.start map.byAddress, sortBy Mapping.line map.byLine⟩

/-- Whether the entry at a position does not come after a key. -/
def comesBy (key : Mapping → Nat) (entries : Array Mapping) (sought : Nat) (i : Nat) : Bool :=
  entries[i]?.any fun entry => key entry ≤ sought

/-- The entry at which the search for a key arrives. -/
def search? (key : Mapping → Nat) (entries : Array Mapping) (sought : Nat) : Option Mapping :=
  match bisect (comesBy key entries sought) entries.size with
  | 0 => none
  | i + 1 => entries[i]?

/-- The line that filled a cell. -/
def lineAt? (map : SourceMap) (address : UInt16) : Option Nat :=
  (search? Mapping.start map.byAddress address.toNat).bind fun entry =>
    if entry.range.contains address then some entry.line else none

/-- The cells that a line filled. -/
def rangeOf? (map : SourceMap) (line : Nat) : Option AddressRange :=
  (search? Mapping.line map.byLine line).bind fun entry =>
    if entry.line = line then some entry.range else none

end SourceMap

end Mos6502
