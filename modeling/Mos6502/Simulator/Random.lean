/-
The generator behind the random cell.

Its state is a word of 64 bits.  A draw replaces the state by three shifts, each combined
with the word that is shifted, and gives out bits 32 to 39 of the new state.  Zero would
stay zero for ever, so a generator never starts from it.
-/
namespace Mos6502

/-- A generator of bytes. -/
structure Random where
  state : UInt64
deriving DecidableEq, Repr

namespace Random

/-- The state that follows a state. -/
def scramble (x : UInt64) : UInt64 :=
  let x := x ^^^ (x <<< 13)
  let x := x ^^^ (x >>> 7)
  x ^^^ (x <<< 17)

/-- Where a generator starts when its seed is zero. -/
def zeroSeed : UInt64 := 0x2545f4914f6cdd1d

/-- The generator of a seed. -/
def ofSeed (seed : UInt64) : Random :=
  ⟨if seed = 0 then zeroSeed else seed⟩

/-- The generator after one more draw. -/
def next (random : Random) : Random :=
  ⟨scramble random.state⟩

/-- The byte of the last draw. -/
def byte (random : Random) : UInt8 :=
  (random.state >>> 32).toUInt8

theorem state_ofSeed_ne_zero (seed : UInt64) : (ofSeed seed).state ≠ 0 := by
  unfold ofSeed
  split
  · decide
  · assumption

end Random

end Mos6502
