/-
What a host may choose when it sets up a simulator.

The random bytes need a seed.  A host that chooses none gets one from the clock, and what the
clock shows is not for the host to say.  It stands beside the choices, so that whatever holds of
a simulator with some settings holds at any time.
-/
import Mos6502.Simulator.Random

namespace Mos6502

/-- The choices of a host, and the clock it makes them by. -/
structure Config where
  /-- How many instructions a tick executes at most. -/
  batchSize : Nat := 97
  /-- How many milliseconds the host lets pass between two ticks. -/
  interval : Nat := 15
  /-- Where the random bytes start. -/
  seed : Option UInt64 := none
  /-- What the clock shows when the simulator is set up. -/
  clock : UInt64 := 0
deriving DecidableEq, Repr

namespace Config

/-- The generator that a simulator starts with. -/
def random (config : Config) : Random :=
  Random.ofSeed (config.seed.getD config.clock)

/-- The choices in short. -/
def summary (config : Config) : String :=
  let seed := match config.seed with
    | none => "None"
    | some seed => "Some(" ++ toString seed ++ ")"
  "SimulatorConfig \x7b batch_size: " ++ toString config.batchSize ++ ", tick_interval: " ++
    toString config.interval ++ "ms, random_seed: " ++ seed ++ " \x7d"

end Config

end Mos6502
