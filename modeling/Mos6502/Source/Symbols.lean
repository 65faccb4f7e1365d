/-
The table of constants that a source text defines.

Names are listed in the order of their definitions.  A name that is already there keeps
its value, so the first definition wins and no name occurs twice.
-/
import Mos6502.Text.Basic

namespace Mos6502

/-- Constants, each with the text that stands for it. -/
structure Symbols where
  entries : List (Text × Text) := []
deriving DecidableEq, Repr

namespace Symbols

/-- The text that a name stands for. -/
def lookup? (symbols : Symbols) (name : Text) : Option Text :=
  symbols.entries.lookup name

/-- Whether a name is defined. -/
def contains (symbols : Symbols) (name : Text) : Bool :=
  (symbols.lookup? name).isSome

/-- The number of names. -/
def size (symbols : Symbols) : Nat :=
  symbols.entries.length

/-- Adds a definition, unless the name has one. -/
def define (symbols : Symbols) (name value : Text) : Symbols :=
  if symbols.contains name then symbols else ⟨symbols.entries ++ [(name, value)]⟩

/-! ### What a definition changes -/

/-- A definition gives its value to its own name, if that was free, and to no other. -/
theorem lookup?_define (symbols : Symbols) (key value name : Text) :
    (symbols.define key value).lookup? name =
      (symbols.lookup? name).or (if name = key then some value else none) := by
  unfold define
  split
  · rename_i h
    by_cases hn : name = key
    · subst hn
      obtain ⟨v, hv⟩ := Option.isSome_iff_exists.mp h
      simp [hv]
    · simp [hn]
  · by_cases hn : name = key
    · subst hn
      simp [lookup?, List.lookup_append]
    · have hbeq : (name == key) = false := by simpa using hn
      simp [lookup?, List.lookup_append, List.lookup_cons, hbeq, hn]

end Symbols

end Mos6502
