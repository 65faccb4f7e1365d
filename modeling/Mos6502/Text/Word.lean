/-
Words and identifiers.

A word is a run of letters, digits and underscores; an identifier is a word that does
not start with a digit.  Letters and digits are those of ASCII, whatever else the
source text holds.
-/
import Mos6502.Text.Basic

namespace Mos6502

/-- An ASCII letter, an ASCII digit or an underscore. -/
def isWordChar (c : Char) : Bool :=
  c.isAlphanum || c == '_'

/-- Whether a word may start with this character and be an identifier. -/
def isIdentifierStart (c : Char) : Bool :=
  c.isAlpha || c == '_'

/-- A word that does not start with a digit. -/
def isIdentifier : Text → Bool
  | [] => false
  | c :: text => isIdentifierStart c && text.all isWordChar

/-- The longest word in front of a text, and what follows it. -/
def splitWord (text : Text) : Text × Text :=
  (text.takeWhile isWordChar, text.dropWhile isWordChar)

theorem isWordChar_of_isIdentifierStart {c : Char} (h : isIdentifierStart c = true) :
    isWordChar c = true := by
  simp only [isIdentifierStart, Bool.or_eq_true] at h
  rcases h with h | h <;> simp [isWordChar, Char.isAlphanum, h]

/-- An identifier is made of word characters. -/
theorem isWordChar_of_mem_identifier {text : Text} (h : isIdentifier text = true) {c : Char}
    (hc : c ∈ text) : isWordChar c = true := by
  match text, h, hc with
  | d :: text, h, hc =>
    simp only [isIdentifier, Bool.and_eq_true, List.all_eq_true] at h
    rcases List.mem_cons.mp hc with rfl | hc
    · exact isWordChar_of_isIdentifierStart h.1
    · exact h.2 c hc

theorem ne_nil_of_isIdentifier {text : Text} (h : isIdentifier text = true) : text ≠ [] := by
  rintro rfl
  simp [isIdentifier] at h

/-- Splitting off a word loses nothing. -/
theorem splitWord_append (text : Text) : (splitWord text).1 ++ (splitWord text).2 = text :=
  List.takeWhile_append_dropWhile

end Mos6502
