/-
A label in front of a line.

The text before the first colon is a label when it is an identifier.  A line whose first
colon follows anything else has no label, even if a later colon follows an identifier.
-/
import Mos6502.Text.Word

namespace Mos6502

/-- The label of a line and the text after its colon. -/
def splitLabel? (line : Text) : Option (Text × Text) :=
  match line.dropWhile (· != ':') with
  | [] => none
  | _ :: rest =>
    if isIdentifier (line.takeWhile (· != ':')) then some (line.takeWhile (· != ':'), rest)
    else none

/-- A label, its colon and the text after it make up the line. -/
theorem eq_of_splitLabel? {line name rest : Text} (h : splitLabel? line = some (name, rest)) :
    isIdentifier name = true ∧ ':' ∉ name ∧ line = name ++ ':' :: rest := by
  unfold splitLabel? at h
  split at h
  · exact absurd h (by simp)
  · rename_i c tail hdrop
    split at h
    · rename_i hid
      simp only [Option.some.injEq, Prod.mk.injEq] at h
      obtain ⟨rfl, rfl⟩ := h
      have hc : c = ':' := by
        have := List.head_dropWhile_not (fun x : Char => x != ':') (l := line) (by simp [hdrop])
        simpa [hdrop] using this
      subst hc
      refine ⟨hid, ?_, ?_⟩
      · intro hmem
        simpa using List.all_eq_true.mp List.all_takeWhile ':' hmem
      · rw [← hdrop, List.takeWhile_append_dropWhile]
    · exact absurd h (by simp)

end Mos6502
