/-
Texts, and cutting them at a separator.

A text is a list of characters.  Source text, operands, names and printed listings
are all texts; only messages meant for a reader are strings.  The one structural
operation on them is `pieces`, which cuts at every occurrence of a separator and
keeps empty pieces.  Joining the pieces gives the text back, and a text without the
separator is its own only piece, which is all that its uses rely on.
-/
namespace Mos6502

/-- A list of characters. -/
abbrev Text := List Char

/-- Equality without regard to the case of the letters `A` to `Z`. -/
def sameLetters (a b : Text) : Bool :=
  a.map Char.toLower == b.map Char.toLower

/-- Puts a character in front of the first piece, or opens a new piece at a separator. -/
def pushPiece (separator : Char) (c : Char) (cut : Text × List Text) : Text × List Text :=
  if c = separator then ([], cut.1 :: cut.2) else (c :: cut.1, cut.2)

/-- The first piece of a text, and the pieces after each separator. -/
def cutAt (separator : Char) (text : Text) : Text × List Text :=
  text.foldr (pushPiece separator) ([], [])

/-- The pieces of a text between the separators; one more than there are separators. -/
def pieces (separator : Char) (text : Text) : List Text :=
  (cutAt separator text).1 :: (cutAt separator text).2

/-- A line without the carriage return at its end, if there is one. -/
def dropReturn (line : Text) : Text :=
  if line.getLast? = some '\r' then line.dropLast else line

/-- The lines of a text.  A line feed ends a line, and so does a carriage return with a
line feed behind it.  A line feed at the very end opens no further line, and what is
behind the last one is a line as it stands. -/
def splitLines (text : Text) : List Text :=
  let cut := pieces '\n' text
  cut.dropLast.map dropReturn ++ (cut.getLast?.filter (· != [])).toList

/-- Texts joined with a separator between neighbours. -/
def joinWith (separator : Text) (texts : List Text) : Text :=
  separator.intercalate texts

/-! ### Cutting loses nothing -/

theorem pieces_cons_separator (separator : Char) (text : Text) :
    pieces separator (separator :: text) = [] :: pieces separator text := by
  simp [pieces, cutAt, pushPiece]

theorem pieces_cons {separator c : Char} (h : c ≠ separator) (text : Text) :
    pieces separator (c :: text) =
      (c :: (cutAt separator text).1) :: (cutAt separator text).2 := by
  simp [pieces, cutAt, pushPiece, h]

/-- A text without separators is its own only piece. -/
theorem pieces_of_not_mem {separator : Char} {text : Text} (h : separator ∉ text) :
    pieces separator text = [text] := by
  have key : cutAt separator text = (text, []) := by
    induction text with
    | nil => rfl
    | cons c text ih =>
      simp only [List.mem_cons, not_or] at h
      have hrest : List.foldr (pushPiece separator) ([], []) text = (text, []) := ih h.2
      simp [cutAt, pushPiece, hrest, Ne.symm h.1]
  simp [pieces, key]

/-- The pieces before a separator and those behind it. -/
theorem pieces_append (separator : Char) (a b : Text) :
    pieces separator (a ++ separator :: b) = pieces separator a ++ pieces separator b := by
  induction a with
  | nil => exact pieces_cons_separator separator b
  | cons c a ih =>
    by_cases hc : c = separator
    · subst hc
      rw [List.cons_append, pieces_cons_separator, ih, pieces_cons_separator]
      rfl
    · rw [List.cons_append, pieces_cons hc, pieces_cons hc]
      have hcut := List.cons.inj ih
      rw [hcut.1, hcut.2]
      rfl

/-- Cutting a text that starts with a piece and a separator. -/
theorem pieces_append_separator {separator : Char} {piece : Text} (h : separator ∉ piece)
    (text : Text) :
    pieces separator (piece ++ separator :: text) = piece :: pieces separator text := by
  rw [pieces_append, pieces_of_not_mem h]
  rfl

/-! ### Lines -/

/-- The pieces up to the last are the lines that are ended. -/
theorem splitLines_of_pieces {text last : Text} {ended : List Text}
    (h : pieces '\n' text = ended ++ [last]) :
    splitLines text = ended.map dropReturn ++ if last = [] then [] else [last] := by
  rw [splitLines, h, List.dropLast_concat, List.getLast?_concat]
  by_cases hlast : last = [] <;> simp [hlast]

theorem dropReturn_of_not_mem {line : Text} (h : '\r' ∉ line) : dropReturn line = line :=
  if_neg (mt List.mem_of_getLast? h)

/-- Nothing but a carriage return is dropped. -/
theorem dropReturn_append (line : Text) :
    ∃ dropped, line = dropReturn line ++ dropped ∧ (dropped = [] ∨ dropped = ['\r']) := by
  unfold dropReturn
  split
  · rename_i hlast
    obtain ⟨front, rfl⟩ := List.getLast?_eq_some_iff.mp hlast
    exact ⟨['\r'], by rw [List.dropLast_concat], .inr rfl⟩
  · exact ⟨[], (List.append_nil line).symm, .inl rfl⟩

/-- Only in front of a line feed is a carriage return dropped, and only one. -/
example : splitLines ['a', '\r', '\r', '\n', '\n', 'b', '\r'] =
    [['a', '\r'], [], ['b', '\r']] := by decide

/-! ### Joining -/

/-- Joining the pieces gives the text back. -/
theorem joinWith_pieces (separator : Char) (text : Text) :
    joinWith [separator] (pieces separator text) = text := by
  induction text with
  | nil => rfl
  | cons c text ih =>
    by_cases hc : c = separator
    · subst hc
      rw [pieces_cons_separator, joinWith, pieces, List.intercalate_cons_cons]
      exact congrArg (c :: ·) ih
    · rw [pieces_cons hc, joinWith]
      rw [pieces, joinWith] at ih
      cases htail : (cutAt separator text).2 with
      | nil =>
        rw [htail, List.intercalate_singleton] at ih
        rw [List.intercalate_singleton, ih]
      | cons next rest =>
        rw [htail, List.intercalate_cons_cons] at ih
        rw [List.intercalate_cons_cons]
        exact congrArg (c :: ·) ih

/-- Joined texts are the pieces again. -/
theorem pieces_joinWith {separator : Char} {texts : List Text} (hne : texts ≠ [])
    (h : ∀ text ∈ texts, separator ∉ text) :
    pieces separator (joinWith [separator] texts) = texts := by
  induction texts with
  | nil => exact absurd rfl hne
  | cons text rest ih =>
    rw [List.forall_mem_cons] at h
    cases rest with
    | nil =>
      rw [joinWith, List.intercalate_singleton]
      exact pieces_of_not_mem h.1
    | cons next rest =>
      rw [joinWith, List.intercalate_cons_cons, List.append_assoc, List.singleton_append,
        pieces_append_separator h.1]
      exact congrArg (text :: ·) (ih (List.cons_ne_nil _ _) h.2)

theorem subset_joinWith {separator piece : Text} {texts : List Text} (h : piece ∈ texts) :
    piece ⊆ joinWith separator texts := by
  induction texts with
  | nil => exact absurd h (List.not_mem_nil)
  | cons text rest ih =>
    cases rest with
    | nil =>
      rw [joinWith, List.intercalate_singleton, List.mem_singleton.mp h]
      exact List.Subset.refl text
    | cons next rest =>
      rw [joinWith, List.intercalate_cons_cons]
      rcases List.mem_cons.mp h with rfl | h
      · exact fun _ hc => List.mem_append_left _ (List.mem_append_left _ hc)
      · exact fun _ hc => List.mem_append_right _ (ih h hc)

theorem mem_joinWith {separator : Text} {texts : List Text} {c : Char}
    (h : c ∈ joinWith separator texts) : c ∈ separator ∨ ∃ text ∈ texts, c ∈ text := by
  induction texts with
  | nil => cases h
  | cons text rest ih =>
    cases rest with
    | nil =>
      rw [joinWith, List.intercalate_singleton] at h
      exact .inr ⟨text, List.mem_singleton_self text, h⟩
    | cons next rest =>
      rw [joinWith, List.intercalate_cons_cons, List.mem_append, List.mem_append] at h
      rcases h with (h | h) | h
      · exact .inr ⟨text, List.mem_cons_self .., h⟩
      · exact .inl h
      · refine (ih h).imp_right ?_
        rintro ⟨piece, hpiece, hc⟩
        exact ⟨piece, List.mem_cons_of_mem _ hpiece, hc⟩

end Mos6502
