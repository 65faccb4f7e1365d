/-
Bisection.

To find where a property of positions stops holding, look at the middle of what is left
and go on in the upper half if the property holds there, in the lower half otherwise.
If the property holds up to some position and nowhere after it, that position is found:
`bisect_spec`.  On other properties the same probes are made, and what they lead to is
still a definite answer.  Two searches that end at different positions have seen different
answers somewhere between them: `bisect_separates`.
-/
namespace Mos6502

/-- The search among the `size` positions from `base` on.  One position is left at the end,
and the answer is that position or the one after it. -/
def bisectFrom (holds : Nat → Bool) (base size : Nat) : Nat :=
  if size ≤ 1 then
    if size = 1 ∧ holds base then base + 1 else base
  else
    bisectFrom holds (if holds (base + size / 2) then base + size / 2 else base) (size - size / 2)
termination_by size

/-- The number of the first `size` positions that have a property, if these come first. -/
def bisect (holds : Nat → Bool) (size : Nat) : Nat :=
  bisectFrom holds 0 size

private theorem bisectFrom_spec {holds : Nat → Bool} {count : Nat} :
    ∀ (size base : Nat), (∀ i < base + size, holds i = true ↔ i < count) →
      base ≤ count → count ≤ base + size → bisectFrom holds base size = count := by
  intro size
  induction size using Nat.strongRecOn with
  | _ size ih =>
    intro base hp hlo hhi
    rw [bisectFrom]
    split
    · rename_i hsize
      split
      · rename_i h
        have := (hp base (by omega)).mp h.2
        omega
      · rename_i h
        by_cases hone : size = 1
        · have hnot : ¬ base < count := fun hlt => h ⟨hone, (hp base (by omega)).mpr hlt⟩
          omega
        · omega
    · rename_i hsize
      split
      · rename_i h
        have := (hp (base + size / 2) (by omega)).mp h
        exact ih _ (by omega) _ (fun i hi => hp i (by omega)) (by omega) (by omega)
      · rename_i h
        have hnot : ¬ base + size / 2 < count := fun hlt =>
          h ((hp (base + size / 2) (by omega)).mpr hlt)
        exact ih _ (by omega) _ (fun i hi => hp i (by omega)) (by omega) (by omega)

/-- A property that holds exactly below some position is bisected there. -/
theorem bisect_spec {holds : Nat → Bool} {count size : Nat}
    (hp : ∀ i < size, holds i = true ↔ i < count) (h : count ≤ size) :
    bisect holds size = count :=
  bisectFrom_spec size 0 (by simpa using hp) (Nat.zero_le _) (by simpa using h)

/-! ### Searches that end at different positions -/

private theorem bisectFrom_le (holds : Nat → Bool) (size base : Nat) :
    bisectFrom holds base size ≤ base + size := by
  induction size using Nat.strongRecOn generalizing base with
  | _ size ih =>
    rw [bisectFrom]
    split
    · split <;> omega
    · split
      · have := ih (size - size / 2) (by omega) (base + size / 2)
        omega
      · have := ih (size - size / 2) (by omega) base
        omega

private theorem lt_bisectFrom {holds : Nat → Bool} {base : Nat} (size : Nat) (hsize : 0 < size)
    (h : holds base = true) : base < bisectFrom holds base size := by
  induction size using Nat.strongRecOn generalizing base with
  | _ size ih =>
    rw [bisectFrom]
    split
    · rw [if_pos ⟨by omega, h⟩]
      omega
    · split
      · rename_i hmiddle
        have := ih (size - size / 2) (by omega) (by omega) hmiddle
        omega
      · exact ih (size - size / 2) (by omega) (by omega) h

/-- Unless a search ends where it started, the property holds right before its end. -/
private theorem holds_of_bisectFrom {holds : Nat → Bool} {size base i : Nat}
    (h : bisectFrom holds base size = i + 1) (hi : base ≤ i) : holds i = true := by
  induction size using Nat.strongRecOn generalizing base with
  | _ size ih =>
    rw [bisectFrom] at h
    split at h
    · split at h
      · rename_i hone
        rw [← Nat.succ.inj h]
        exact hone.2
      · omega
    · split at h
      · rename_i hmiddle
        by_cases hbehind : base + size / 2 ≤ i
        · exact ih _ (by omega) h hbehind
        · have := lt_bisectFrom (size - size / 2) (by omega) hmiddle
          omega
      · exact ih _ (by omega) h hi

private theorem bisectFrom_separates {p q : Nat → Bool} {size base i j : Nat}
    (hp : bisectFrom p base size = i + 1) (hq : bisectFrom q base size = j + 1)
    (hi : base ≤ i) (hij : i < j) : ∃ k, i < k ∧ k ≤ j ∧ p k = false ∧ q k = true := by
  induction size using Nat.strongRecOn generalizing base with
  | _ size ih =>
    have hpi := holds_of_bisectFrom hp hi
    have hqj := holds_of_bisectFrom hq (by omega)
    by_cases hsize : size ≤ 1
    · have := bisectFrom_le q size base
      omega
    rw [bisectFrom, if_neg hsize] at hp hq
    -- The searches go on together as long as they see the same in the middle.
    cases hpm : p (base + size / 2) with
    | true =>
      rw [if_pos hpm] at hp
      have hafter := lt_bisectFrom (size - size / 2) (by omega) hpm
      cases hqm : q (base + size / 2) with
      | true =>
        rw [if_pos hqm] at hq
        exact ih _ (by omega) hp hq (by omega)
      | false =>
        rw [if_neg (by simp [hqm])] at hq
        have hbefore := bisectFrom_le q (size - size / 2) base
        have hne : j ≠ base + size / 2 := by
          rintro rfl
          rw [hqj] at hqm
          cases hqm
        omega
    | false =>
      rw [if_neg (by simp [hpm])] at hp
      cases hqm : q (base + size / 2) with
      | true =>
        rw [if_pos hqm] at hq
        have hbefore := bisectFrom_le p (size - size / 2) base
        have hafter := lt_bisectFrom (size - size / 2) (by omega) hqm
        have hne : i ≠ base + size / 2 := by
          rintro rfl
          rw [hpi] at hpm
          cases hpm
        exact ⟨base + size / 2, by omega, by omega, hpm, hqm⟩
      | false =>
        rw [if_neg (by simp [hqm])] at hq
        exact ih _ (by omega) hp hq hi

/-- Where one search ends before another, there is a position between the two ends at which
the first property does not hold and the second does. -/
theorem bisect_separates {p q : Nat → Bool} {size i j : Nat} (hp : bisect p size = i + 1)
    (hq : bisect q size = j + 1) (hij : i < j) :
    ∃ k, i < k ∧ k ≤ j ∧ p k = false ∧ q k = true :=
  bisectFrom_separates hp hq (Nat.zero_le i) hij

end Mos6502
