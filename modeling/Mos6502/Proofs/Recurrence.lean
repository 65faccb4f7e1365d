/-
The generator never gets stuck.

A draw combines a word three times with a shift of itself.  A shift leaves no word but zero as it
is, so two words that differ still differ when each is combined with its shift
(`injective_xor_of_linear`), and a draw loses nothing: different states have different states
behind them, and only zero leads to zero.

There are finitely many states.  A walk among them that never brings two together can close only
where it began, so whatever a generator starts from comes back after some number of draws, and
with it all that followed.  A simulator does nothing to its generator but draw, whatever it is
asked, so this is all that its random cell can depend on.
-/
import Mathlib.Data.FinEnum
import Mathlib.Dynamics.PeriodicPts.Lemmas
import Mos6502.Proofs.Account

namespace Mos6502

namespace Random

variable {x y z amount seed : UInt64}

/-! ### One shift -/

/-- A shift to the left moves the lowest bit that is set. -/
theorem eq_zero_of_shiftLeft (hamount : 0 < amount.toNat % 64) (h : z <<< amount = z) : z = 0 := by
  have hbits : ∀ i, z.toNat.testBit i = false := by
    intro i
    induction i using Nat.strong_induction_on with
    | _ i ih =>
      rw [← h, UInt64.toNat_shiftLeft, Nat.testBit_mod_two_pow, Nat.testBit_shiftLeft]
      by_cases hlow : amount.toNat % 64 ≤ i
      · rw [ih (i - amount.toNat % 64) (by omega), Bool.and_false, Bool.and_false]
      · rw [decide_eq_false hlow, Bool.false_and, Bool.and_false]
  refine UInt64.toNat_inj.mp (Nat.eq_of_testBit_eq fun i => ?_)
  rw [hbits i, UInt64.toNat_zero, Nat.zero_testBit]

/-- A shift to the right makes every number smaller. -/
theorem eq_zero_of_shiftRight (hamount : 0 < amount.toNat % 64) (h : z >>> amount = z) :
    z = 0 := by
  by_contra hne
  have hpos : 0 < z.toNat := Nat.pos_of_ne_zero fun hzero => hne (UInt64.toNat_inj.mp hzero)
  have hless : z.toNat / 2 ^ (amount.toNat % 64) < z.toNat :=
    Nat.div_lt_self hpos (Nat.one_lt_two_pow (by omega))
  rw [← Nat.shiftRight_eq_div_pow, ← UInt64.toNat_shiftRight, h] at hless
  exact Nat.lt_irrefl _ hless

/-- A word can be told from its combination with what a linear map makes of it, if the map leaves
no word but zero as it is. -/
theorem injective_xor_of_linear {f : UInt64 → UInt64} (hlinear : ∀ x y, f (x ^^^ y) = f x ^^^ f y)
    (hfixed : ∀ z, f z = z → z = 0) : Function.Injective fun x => x ^^^ f x := by
  intro x y h
  have hcombined : x ^^^ f x = y ^^^ f y := h
  -- What the two words differ in is left as it is.
  have hdifference : f (x ^^^ y) = x ^^^ y := by
    calc f (x ^^^ y) = f x ^^^ f y := hlinear x y
      _ = x ^^^ (x ^^^ f x) ^^^ f y := by rw [← UInt64.xor_assoc, UInt64.xor_self, UInt64.zero_xor]
      _ = x ^^^ y := by
        rw [hcombined, UInt64.xor_assoc, UInt64.xor_assoc, UInt64.xor_self, UInt64.xor_zero]
  exact UInt64.xor_eq_zero_iff.mp (hfixed _ hdifference)

theorem injective_xor_shiftLeft (amount : UInt64) (hamount : 0 < amount.toNat % 64) :
    Function.Injective fun x : UInt64 => x ^^^ (x <<< amount) :=
  injective_xor_of_linear (fun _ _ => UInt64.shiftLeft_xor) fun _ => eq_zero_of_shiftLeft hamount

theorem injective_xor_shiftRight (amount : UInt64) (hamount : 0 < amount.toNat % 64) :
    Function.Injective fun x : UInt64 => x ^^^ (x >>> amount) :=
  injective_xor_of_linear (fun _ _ => UInt64.shiftRight_xor) fun _ => eq_zero_of_shiftRight hamount

/-! ### One draw -/

/-- No two states have the same state behind them. -/
theorem scramble_injective : Function.Injective scramble := by
  have hleft := injective_xor_shiftLeft 13 (by decide)
  have hright := injective_xor_shiftRight 7 (by decide)
  have hleft' := injective_xor_shiftLeft 17 (by decide)
  exact hleft'.comp (hright.comp hleft)

theorem scramble_eq_zero_iff : scramble x = 0 ↔ x = 0 := by
  have hzero : scramble 0 = 0 := rfl
  constructor
  · intro h
    exact scramble_injective (h.trans hzero.symm)
  · rintro rfl
    exact hzero

theorem next_injective : Function.Injective next := by
  intro g g' h
  have hstate : g.state = g'.state := scramble_injective (congrArg state h)
  exact congrArg Random.mk hstate

/-! ### Many draws -/

theorem state_iterate_ne_zero {g : Random} (h : g.state ≠ 0) (n : Nat) :
    (next^[n] g).state ≠ 0 := by
  induction n with
  | zero => exact h
  | succ n ih =>
    rw [Function.iterate_succ_apply']
    intro hzero
    exact ih (scramble_eq_zero_iff.mp hzero)

/-- Every generator comes back to where it is. -/
theorem exists_period (g : Random) : ∃ period, 0 < period ∧ next^[period] g = g := by
  have hfinite : Finite Random := Finite.of_injective state fun g g' h => congrArg Random.mk h
  exact Function.mem_periodicPts.mp (next_injective.mem_periodicPts g)

end Random

/-! ### What a simulator does to its generator -/

namespace Simulator

variable {s t u : Simulator}

/-- Some draws lead from the generator of one simulator to that of another. -/
def Draws (s t : Simulator) : Prop :=
  ∃ n, t.machine.random = Random.next^[n] s.machine.random

theorem Draws.of_eq (h : t.machine.random = s.machine.random) : s.Draws t :=
  ⟨0, h⟩

theorem Draws.trans (h : s.Draws t) (h' : t.Draws u) : s.Draws u := by
  obtain ⟨n, hn⟩ := h
  obtain ⟨k, hk⟩ := h'
  refine ⟨k + n, ?_⟩
  rw [Function.iterate_add_apply, ← hn, hk]

/-- An instruction is one draw, whether it can be executed or not. -/
theorem draws_execute (s : Simulator) (debugging : Bool) : s.Draws (s.execute debugging).1 := by
  rcases machine_execute s debugging with hsame | hstep
  · exact .of_eq (congrArg Machine.random hsame)
  · exact ⟨1, congrArg Machine.random hstep⟩

theorem draws_call (s : Simulator) (c : Call) : s.Draws (s.call c).1 := by
  cases c with
  | execute debugging => exact s.draws_execute debugging
  | step => exact s.draws_execute true
  | tick =>
    rw [call_tick]
    exact (ticked_tick s).keeps (P := s.Draws) (.of_eq rfl)
      (fun t ht => ht.trans (t.draws_execute false)) fun _ ht => ht
  | toggle =>
    refine .of_eq ?_
    show s.toggle.machine.random = _
    unfold toggle
    split <;> rfl
  | goto labels input =>
    refine .of_eq ?_
    show (s.goto labels input).1.machine.random = _
    unfold goto
    simp only
    split <;> rfl
  | setStepper | press | reset => exact .of_eq rfl

theorem draws_after (s : Simulator) (calls : List Call) : s.Draws (s.after calls) := by
  induction calls generalizing s with
  | nil => exact .of_eq rfl
  | cons c rest ih => exact (s.draws_call c).trans (ih (s.call c).1)

end Simulator

/-! ### All states come back -/

/--
**The generator never gets stuck.**  A draw leads from different states to different states, and
from zero alone to zero.  So whatever the seed, no number of draws leads to zero, and the states
repeat from the first on, with some period.  This holds of the generator of a simulator at any
time: whatever was asked of it, its generator is some number of draws behind its seed.
-/
theorem random_states_recur :
    Function.Injective Random.scramble ∧
      (∀ x, Random.scramble x = 0 ↔ x = 0) ∧
      (∀ seed,
        (∀ n, (Random.next^[n] (Random.ofSeed seed)).state ≠ 0) ∧
        ∃ period, 0 < period ∧ ∀ n,
          Random.next^[n + period] (Random.ofSeed seed) = Random.next^[n] (Random.ofSeed seed)) ∧
      ∀ (memory : Memory) (config : Config) (calls : List Simulator.Call), ∃ n,
        ((Simulator.ofMemory memory config).after calls).machine.random =
          Random.next^[n] config.random := by
  refine ⟨Random.scramble_injective, fun _ => Random.scramble_eq_zero_iff, ?_, ?_⟩
  · intro seed
    refine ⟨Random.state_iterate_ne_zero (Random.state_ofSeed_ne_zero seed), ?_⟩
    obtain ⟨period, hpos, hperiod⟩ := Random.exists_period (Random.ofSeed seed)
    refine ⟨period, hpos, fun n => ?_⟩
    rw [Function.iterate_add_apply, hperiod]
  · intro memory config calls
    exact (Simulator.ofMemory memory config).draws_after calls

end Mos6502
