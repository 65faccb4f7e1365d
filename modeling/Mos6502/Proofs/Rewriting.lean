/-
Which words of an operand constants are put in for.

Constants are put in token by token, and what decides about a token are two characters that
were kept from the text before it.  Said of the text itself, this is a relation between an
operand and what comes of it (`Rewritten`): it is read from the front, every character that is
not part of a word is copied, and a word is copied or gives way to its constant.  The latter
takes that it is the whole word, that it has a constant, that it is not a number and no index
register (`Eligible`).

How much is replaced is a parameter.  Behind the first blank it is every word that may be
(`rewritten_replaced`).  Up to there nothing is, so of an operand as a whole only the other half
holds: nothing else is replaced.  And it holds as long as no index register has its comma up to
the blank and its letter behind it, because what is read before the blank is forgotten.

The inductions are on the length of the text: a step takes a whole word off it.
-/
import Mos6502.Proofs.Substitution

namespace Mos6502

variable {c : Char} {text before behind word value rest out : Text} {symbols : Symbols}
  {every : Prop}

/-! ### Words that constants are put in for -/

/-- A constant may be put in for a word behind a text.  It is no number or part of one, and it is
not the letter of an index register behind a comma. -/
structure Symbols.Eligible (symbols : Symbols) (before word value : Text) : Prop where
  defined : symbols.lookup? word = some value
  digit : ∀ c, word.head? = some c → c.isDigit = false
  sign : before.getLast? ≠ some '$' ∧ before.getLast? ≠ some '%'
  index : (squeeze before).getLast? = some ',' →
    sameLetters word ['x'] = false ∧ sameLetters word ['y'] = false

/-- A word in a text, and what goes on behind it. -/
structure IsWord (word rest : Text) : Prop where
  isWordChar : ∀ c ∈ word, isWordChar c = true
  ne_nil : word ≠ []
  stops : rest.head?.any Mos6502.isWordChar = false

/-- What comes of a text behind another.  Words are replaced by their constants where this is
allowed, every time or just some times, and all else is copied. -/
inductive Rewritten (symbols : Symbols) (every : Prop) : Text → Text → Text → Prop
  | nil {before : Text} : Rewritten symbols every before [] []
  | copy {before : Text} {c : Char} {rest out : Text} (hc : isWordChar c = false)
    (h : Rewritten symbols every (before ++ [c]) rest out) :
    Rewritten symbols every before (c :: rest) (c :: out)
  | keep {before word rest out : Text} (hword : IsWord word rest)
    (hkeep : every → ∀ value, ¬ symbols.Eligible before word value)
    (h : Rewritten symbols every (before ++ word) rest out) :
    Rewritten symbols every before (word ++ rest) (word ++ out)
  | put {before word value rest out : Text} (hword : IsWord word rest)
    (hput : symbols.Eligible before word value)
    (h : Rewritten symbols every (before ++ word) rest out) :
    Rewritten symbols every before (word ++ rest) (value ++ out)

theorem isWord_splitWord (hc : isWordChar c = true) (text : Text) :
    IsWord (splitWord (c :: text)).1 (splitWord (c :: text)).2 where
  isWordChar := fun d hd => List.mem_takeWhile_imp hd
  ne_nil := by simp [splitWord, hc]
  stops := head?_splitWord _

/-- A text is read from the front: it is empty, or goes on with a character that is not part of
a word, or with a word. -/
theorem text_induction {motive : Text → Prop} (nil : motive [])
    (copy : ∀ c rest, isWordChar c = false → motive rest → motive (c :: rest))
    (word : ∀ word rest, IsWord word rest → motive rest → motive (word ++ rest)) (text : Text) :
    motive text := by
  induction hlength : text.length using Nat.strong_induction_on generalizing text with
  | _ n ih =>
    subst hlength
    cases text with
    | nil => exact nil
    | cons c rest =>
      by_cases hc : isWordChar c = true
      · have hword := isWord_splitWord hc rest
        have hlt : (splitWord (c :: rest)).2.length < (c :: rest).length := by
          conv_rhs => rw [← splitWord_append (c :: rest), List.length_append]
          exact Nat.lt_add_of_pos_left (List.length_pos_of_ne_nil hword.ne_nil)
        rw [← splitWord_append (c :: rest)]
        exact word _ _ hword (ih _ hlt _ rfl)
      · exact copy c rest (by simpa using hc) (ih _ (Nat.lt_succ_self _) _ rfl)

namespace Rewritten

/-- What is replaced every time is replaced some times. -/
theorem mono (h : Rewritten symbols every before text out) :
    Rewritten symbols False before text out := by
  induction h with
  | nil => exact .nil
  | copy hc _ ih => exact .copy hc ih
  | keep hword _ _ ih => exact .keep hword False.elim ih
  | put hword hput _ ih => exact .put hword hput ih

/-- A text may be left as it is, if no word goes on behind it. -/
theorem append (hstop : behind.head?.any isWordChar = false)
    (h : Rewritten symbols False (before ++ text) behind out) :
    Rewritten symbols False before (text ++ behind) (text ++ out) := by
  induction text using text_induction generalizing before with
  | nil => simpa using h
  | copy c rest hc ih =>
    refine .copy hc (ih ?_)
    rwa [List.append_assoc, List.singleton_append]
  | word word rest hword ih =>
    rw [List.append_assoc, List.append_assoc]
    refine .keep ⟨hword.isWordChar, hword.ne_nil, ?_⟩ False.elim (ih ?_)
    · cases rest with
      | nil => exact hstop
      | cons c rest => exact hword.stops
    · rwa [List.append_assoc]

theorem refl (text : Text) : Rewritten symbols False before text text := by
  have happend : Rewritten symbols False before (text ++ []) (text ++ []) := append rfl .nil
  rwa [List.append_nil] at happend

/-- A text changes only if a constant may be put in for one of its words. -/
theorem eq_self (h : Rewritten symbols every before text out)
    (hnone : ∀ front word rest value, text = front ++ (word ++ rest) → IsWord word rest →
      ¬symbols.Eligible (before ++ front) word value) : out = text := by
  induction h with
  | nil => rfl
  | @copy before c rest out hc _ ih =>
    refine congrArg (c :: ·) (ih fun front word behind value heq hword => ?_)
    rw [List.append_assoc, List.singleton_append]
    exact hnone (c :: front) word behind value (by rw [heq]; rfl) hword
  | @keep before kept rest out _ _ _ ih =>
    refine congrArg (kept ++ ·) (ih fun front word behind value heq hword => ?_)
    rw [List.append_assoc]
    exact hnone (kept ++ front) word behind value (by rw [heq, List.append_assoc]) hword
  | @put before word value rest out hword hput _ _ =>
    refine absurd hput ?_
    have hfirst := hnone [] word rest value rfl hword
    rwa [List.append_nil] at hfirst

end Rewritten

/-! ### What is kept of the text before -/

/-- What is kept of a text. -/
def Before.of (text : Text) : Before :=
  ⟨text.getLast?, (squeeze text).getLast?⟩

namespace Before

theorem of_concat (before : Text) (c : Char) :
    Before.of (before ++ [c]) =
      ⟨some c, if isBlank c then (Before.of before).lastSolid else some c⟩ := by
  rw [of, List.getLast?_concat, squeeze_append]
  by_cases hblank : isBlank c = true
  · have hnone : squeeze [c] = [] := squeeze_of_blank (List.forall_mem_singleton.mpr hblank)
    rw [hnone, List.append_nil, if_pos hblank]
    rfl
  · have hsolid : squeeze [c] = [c] := by
      simp [squeeze, hblank]
    rw [hsolid, List.getLast?_concat, if_neg hblank]

theorem of_append_word (hword : IsWord word rest) (before : Text) :
    Before.of (before ++ word) = (Before.of before).push word := by
  obtain ⟨start, last, heq⟩ := (List.eq_nil_or_concat word).resolve_left hword.ne_nil
  rw [List.concat_eq_append] at heq
  subst heq
  have hlast : isBlank last = false :=
    isBlank_of_isWordChar (hword.isWordChar last (by simp))
  rw [← List.append_assoc, of_concat, push, List.getLast?_concat]
  simp only [hlast, Bool.false_eq_true, if_false]

/-- Behind a text without blanks the last character counts for both. -/
theorem of_eq (h : ∀ c ∈ text, isBlank c = false) :
    Before.of text = ⟨text.getLast?, text.getLast?⟩ := by
  have hsqueeze : squeeze text = text := by
    refine List.filter_eq_self.mpr fun c hc => ?_
    rw [h c hc]
    rfl
  rw [of, hsqueeze]

end Before

/-! ### What is put in -/

namespace Symbols

theorem eligible_iff :
    symbols.Eligible before word value ↔ symbols.lookup? word = some value ∧
      (Before.of before).isNumber word = false ∧ (Before.of before).isIndex word = false := by
  have hdigit : word.head?.any Char.isDigit = false ↔
      ∀ c, word.head? = some c → c.isDigit = false := by
    cases word <;> simp
  have hindex : (Before.of before).isIndex word = false ↔
      ((squeeze before).getLast? = some ',' →
        sameLetters word ['x'] = false ∧ sameLetters word ['y'] = false) := by
    simp [Before.isIndex, Before.of]
  simp only [Before.isNumber, Bool.or_eq_false_iff, hdigit, hindex]
  constructor
  · rintro ⟨hdefined, hdigit, hsign, hindex⟩
    exact ⟨hdefined, ⟨⟨hdigit, by simpa [Before.of] using hsign.1⟩,
      by simpa [Before.of] using hsign.2⟩, hindex⟩
  · rintro ⟨hdefined, ⟨⟨hdigit, hdollar⟩, hpercent⟩, hindex⟩
    exact ⟨hdefined, hdigit, ⟨by simpa [Before.of] using hdollar,
      by simpa [Before.of] using hpercent⟩, hindex⟩

/-- A word gives way to its constant if it may, and is left as it is if not. -/
theorem replace_word (hword : IsWord word rest) (symbols : Symbols) (before : Text) :
    (∃ value, symbols.Eligible before word value ∧
        symbols.replace (Before.of before) word = value) ∨
      (∀ value, ¬ symbols.Eligible before word value) ∧
        symbols.replace (Before.of before) word = word := by
  have hhead : word.head?.any isWordChar = true := by
    obtain ⟨c, tail, rfl⟩ := List.exists_cons_of_ne_nil hword.ne_nil
    exact hword.isWordChar c (List.mem_cons_self ..)
  simp only [eligible_iff, replace, hhead, Bool.true_and]
  cases (Before.of before).isNumber word with
  | true => exact Or.inr ⟨by simp, rfl⟩
  | false =>
    cases (Before.of before).isIndex word with
    | true => exact Or.inr ⟨by simp, rfl⟩
    | false =>
      cases symbols.lookup? word with
      | none => exact Or.inr ⟨by simp, rfl⟩
      | some value => exact Or.inl ⟨value, ⟨rfl, rfl, rfl⟩, rfl⟩

/-- What stands for the tokens of a text is the text with its constants put in. -/
theorem rewritten_replaced (symbols : Symbols) (before text : Text) :
    Rewritten symbols True before text
      (symbols.replaced (Before.of before) (tokens text)).flatten := by
  induction text using text_induction generalizing before with
  | nil => exact .nil
  | copy c rest hc ih =>
    rw [tokens_cons_of_not_word hc, replaced_cons_of_not_word hc, ← Before.of_concat,
      List.flatten_cons]
    exact .copy hc (ih _)
  | word word rest hword ih =>
    rw [tokens_append hword.stops, tokens_of_word hword.isWordChar hword.ne_nil,
      List.singleton_append, replaced_cons, ← Before.of_append_word hword, List.flatten_cons]
    rcases replace_word hword symbols before with ⟨value, hput, heq⟩ | ⟨hkeep, heq⟩
    · rw [heq]
      exact .put hword hput (ih _)
    · rw [heq]
      exact .keep hword (fun _ => hkeep) (ih _)

/-! ### What becomes of an operand -/

/-- Constants are put in from the first blank on, unless the accumulator is all that is there. -/
theorem rewritten_loose {operand : Text}
    (h : sameLetters (trim (loose operand)) ['a'] = false) :
    Rewritten symbols True [] (loose operand) (symbols.inOperand (loose operand)) := by
  rw [inOperand_eq h]
  exact rewritten_replaced symbols [] (loose operand)

/-- An index register behind the first blank, with its comma in front of the blank and with the
name of a constant.  To nothing else it makes a difference what was read up to the blank. -/
def Misleading (symbols : Symbols) (operand : Text) : Prop :=
  (glued operand).getLast? = some ',' ∧ symbols.Shadows (splitWord (trimLeft (loose operand))).1

/-- In all of the operand nothing else is replaced than what may be. -/
theorem rewritten_operand {operand : Text} (h : ¬ symbols.Misleading operand) :
    Rewritten symbols False [] operand (glued operand ++ symbols.inOperand (loose operand)) := by
  have hloose : Rewritten symbols False (glued operand) (loose operand)
      (symbols.inOperand (loose operand)) := by
    by_cases haccumulator : sameLetters (trim (loose operand)) ['a'] = true
    · rw [inOperand, if_pos haccumulator]
      exact .refl _
    · have hsolid : ∀ c ∈ glued operand, isBlank c = false := fun c hc =>
        isBlank_of_mem_glued hc
      have hrewritten := rewritten_replaced symbols (glued operand) (loose operand)
      rw [Before.of_eq hsolid, replaced_of_lastSolid fun hcomma hshadows => h ⟨hcomma, hshadows⟩,
        replaced_of_last, ← inOperand_eq (by simpa using haccumulator)] at hrewritten
      exact hrewritten.mono
  have happend : Rewritten symbols False [] (glued operand ++ loose operand)
      (glued operand ++ symbols.inOperand (loose operand)) := .append (head?_loose operand) hloose
  rwa [glued_append_loose] at happend

end Symbols

end Mos6502
