/-
The table of labels.

Labels are listed in the order of their lines, and no name occurs twice.
-/
import Mos6502.Text.Basic

namespace Mos6502

/-- A name for an address. -/
structure Label where
  name : Text
  address : UInt16
  /-- The line that defines it, counted from one. -/
  line : Nat
deriving DecidableEq, Repr

/-- The labels of a source text. -/
structure Labels where
  entries : List Label := []
deriving DecidableEq, Repr

namespace Labels

/-- The label of a name. -/
def find? (labels : Labels) (name : Text) : Option Label :=
  labels.entries.find? fun label => label.name == name

/-- The address that a name stands for. -/
def address? (labels : Labels) (name : Text) : Option UInt16 :=
  (labels.find? name).map Label.address

/-- Whether a name is a label. -/
def contains (labels : Labels) (name : Text) : Bool :=
  (labels.find? name).isSome

/-- The number of labels. -/
def size (labels : Labels) : Nat :=
  labels.entries.length

/-- A table with one more label at its end. -/
def add (labels : Labels) (label : Label) : Labels :=
  ⟨labels.entries ++ [label]⟩

/-- A new label stands for its address unless its name already stood for one. -/
theorem address?_add (labels : Labels) (label : Label) (name : Text) :
    (labels.add label).address? name =
      (labels.address? name).or (if label.name = name then some label.address else none) := by
  simp only [address?, find?, add, List.find?_append, List.find?_singleton, beq_iff_eq]
  cases labels.entries.find? fun label => label.name == name with
  | some found => simp
  | none => by_cases h : label.name = name <;> simp [h]

end Labels

end Mos6502
