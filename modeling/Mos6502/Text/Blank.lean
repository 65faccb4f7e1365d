/-
Blank characters, and trimming.

A character is blank when Unicode gives it the property `White_Space`.  There are 25
of them, in ten ranges.  The zero-width space U+200B and the byte order mark U+FEFF
are not among them.
-/
import Mos6502.Text.Basic

namespace Mos6502

/-- The code points with the property `White_Space`, as ranges that include both ends. -/
def blankRanges : List (Nat × Nat) :=
  [(0x09, 0x0d), (0x20, 0x20), (0x85, 0x85), (0xa0, 0xa0), (0x1680, 0x1680),
   (0x2000, 0x200a), (0x2028, 0x2029), (0x202f, 0x202f), (0x205f, 0x205f), (0x3000, 0x3000)]

/-- Whether a character is white space. -/
def isBlank (c : Char) : Bool :=
  blankRanges.any fun range => range.1 ≤ c.toNat && c.toNat ≤ range.2

/-- How many code points the table covers. -/
example : (blankRanges.map fun range => range.2 - range.1 + 1).sum = 25 := by decide

example : isBlank '\x0b' = true ∧ isBlank '\x0c' = true ∧ isBlank (Char.ofNat 0x3000) = true ∧
    isBlank (Char.ofNat 0x200b) = false ∧ isBlank (Char.ofNat 0xfeff) = false := by decide

/-- A text without the blanks in front. -/
def trimLeft (text : Text) : Text :=
  text.dropWhile isBlank

/-- A text without the blanks at its end. -/
def trimRight (text : Text) : Text :=
  (text.reverse.dropWhile isBlank).reverse

/-- A text without the blanks around it. -/
def trim (text : Text) : Text :=
  trimRight (trimLeft text)

/-- A text of blanks only. -/
def AllBlank (text : Text) : Prop :=
  ∀ c ∈ text, isBlank c = true

/-- A text without any blank. -/
def squeeze (text : Text) : Text :=
  text.filter fun c => !isBlank c

/-! ### Trimming -/

theorem trimLeft_cons_of_blank {c : Char} (h : isBlank c = true) (text : Text) :
    trimLeft (c :: text) = trimLeft text := by
  simp [trimLeft, h]

theorem trimLeft_cons_of_not_blank {c : Char} (h : isBlank c = false) (text : Text) :
    trimLeft (c :: text) = c :: text := by
  simp [trimLeft, h]

theorem trimLeft_append_of_blank {blanks : Text} (h : AllBlank blanks) (text : Text) :
    trimLeft (blanks ++ text) = trimLeft text := by
  rw [trimLeft, List.dropWhile_append_of_pos h, ← trimLeft]

theorem trimRight_append_of_blank {blanks : Text} (h : AllBlank blanks) (text : Text) :
    trimRight (text ++ blanks) = trimRight text := by
  rw [trimRight, trimRight, List.reverse_append, List.dropWhile_append_of_pos]
  exact fun c hc => h c (List.mem_reverse.mp hc)

/-- Trimming at the end stops at a character that is not blank. -/
theorem trimRight_append {text : Text} {c : Char} (hlast : text.getLast? = some c)
    (hc : isBlank c = false) (tail : Text) : trimRight (text ++ tail) = text ++ trimRight tail := by
  have hsolid : text.reverse.dropWhile isBlank = text.reverse := by
    rw [← List.head?_reverse] at hlast
    obtain ⟨front, hfront⟩ := List.head?_eq_some_iff.mp hlast
    rw [hfront, List.dropWhile_cons_of_neg (by simp [hc])]
  rw [trimRight, trimRight, List.reverse_append, List.dropWhile_append]
  split
  · rename_i hblank
    rw [hsolid, List.reverse_reverse, List.isEmpty_iff.mp hblank, List.reverse_nil,
      List.append_nil]
  · rw [List.reverse_append, List.reverse_reverse]

/-- Only blanks are trimmed at the end. -/
theorem exists_trimRight (text : Text) :
    ∃ blanks, text = trimRight text ++ blanks ∧ AllBlank blanks := by
  refine ⟨(text.reverse.takeWhile isBlank).reverse, ?_, ?_⟩
  · rw [trimRight, ← List.reverse_append, List.takeWhile_append_dropWhile, List.reverse_reverse]
  · exact fun c hc => List.all_eq_true.mp List.all_takeWhile c (List.mem_reverse.mp hc)

/-- Nothing is trimmed at the start. -/
theorem head?_of_trimRight {text : Text} {c : Char} (h : (trimRight text).head? = some c) :
    text.head? = some c := by
  obtain ⟨blanks, heq, -⟩ := exists_trimRight text
  rw [heq, List.head?_append, h]
  rfl

/-- Only blanks are trimmed. -/
theorem exists_trim (text : Text) :
    ∃ left right, text = left ++ (trim text ++ right) ∧ AllBlank left ∧ AllBlank right := by
  obtain ⟨right, heq, hright⟩ := exists_trimRight (trimLeft text)
  refine ⟨text.takeWhile isBlank, right, ?_, ?_, hright⟩
  · rw [trim, ← heq]
    exact List.takeWhile_append_dropWhile.symm
  · exact fun c hc => List.all_eq_true.mp List.all_takeWhile c hc

theorem trim_cons_of_not_blank {c : Char} (h : isBlank c = false) (text : Text) :
    trim (c :: text) = c :: trimRight text := by
  rw [trim, trimLeft_cons_of_not_blank h]
  have hlast : [c].getLast? = some c := rfl
  exact trimRight_append hlast h text

/-- Trimmed text starts with no blank. -/
theorem isBlank_of_head?_trimLeft {text : Text} {c : Char} (h : (trimLeft text).head? = some c) :
    isBlank c = false := by
  have hhead := List.head?_dropWhile_not isBlank text
  rw [← trimLeft, h] at hhead
  simpa using hhead

theorem isBlank_of_head?_trim {text : Text} {c : Char} (h : (trim text).head? = some c) :
    isBlank c = false := by
  rw [trim] at h
  exact isBlank_of_head?_trimLeft (head?_of_trimRight h)

theorem trimLeft_eq_self {text : Text} (h : ∀ c, text.head? = some c → isBlank c = false) :
    trimLeft text = text := by
  cases text with
  | nil => rfl
  | cons c text => exact trimLeft_cons_of_not_blank (h c rfl) text

theorem trimLeft_trim (text : Text) : trimLeft (trim text) = trim text :=
  trimLeft_eq_self fun _ => isBlank_of_head?_trim

/-- It does not matter at which end the blanks are taken off first. -/
theorem trimLeft_trimRight (text : Text) : trimLeft (trimRight text) = trim text := by
  have hblank : AllBlank (text.takeWhile isBlank) :=
    fun c hc => List.all_eq_true.mp List.all_takeWhile c hc
  have hsplit : text = text.takeWhile isBlank ++ trimLeft text :=
    List.takeWhile_append_dropWhile.symm
  cases hbody : trimLeft text with
  | nil =>
    rw [hbody, List.append_nil] at hsplit
    rw [trim, hbody, hsplit, ← List.nil_append (List.takeWhile _ _),
      trimRight_append_of_blank hblank]
    rfl
  | cons c body =>
    have hhead : (trimLeft text).head? = some c := by rw [hbody]; rfl
    have hsolid : isBlank c = false := isBlank_of_head?_trimLeft hhead
    have hlast : (text.takeWhile isBlank ++ [c]).getLast? = some c := by simp
    have hcons : trimRight (c :: body) = c :: trimRight body :=
      @trimRight_append [c] c rfl hsolid body
    rw [hbody, List.append_cons] at hsplit
    have hright : trimRight text = text.takeWhile isBlank ++ (c :: trimRight body) := by
      refine (congrArg trimRight hsplit).trans ?_
      rw [trimRight_append hlast hsolid, List.append_assoc, List.singleton_append]
    rw [hright, trimLeft_append_of_blank hblank, trimLeft_cons_of_not_blank hsolid, trim, hbody,
      hcons]

theorem trim_append_of_blank {left right : Text} (hleft : AllBlank left)
    (hright : AllBlank right) (text : Text) : trim (left ++ (text ++ right)) = trim text := by
  rw [← trimLeft_trimRight, ← List.append_assoc, trimRight_append_of_blank hright,
    trimLeft_trimRight, trim, trimLeft_append_of_blank hleft, ← trim]

/-! ### Without blanks -/

theorem squeeze_append (a b : Text) : squeeze (a ++ b) = squeeze a ++ squeeze b :=
  List.filter_append ..

theorem squeeze_of_blank {text : Text} (h : AllBlank text) : squeeze text = [] := by
  refine List.filter_eq_nil_iff.mpr fun c hc => ?_
  simp [h c hc]

theorem squeeze_trimRight (text : Text) : squeeze (trimRight text) = squeeze text := by
  obtain ⟨blanks, heq, hblanks⟩ := exists_trimRight text
  have hsqueeze := congrArg squeeze heq
  rw [squeeze_append, squeeze_of_blank hblanks, List.append_nil] at hsqueeze
  exact hsqueeze.symm

end Mos6502
