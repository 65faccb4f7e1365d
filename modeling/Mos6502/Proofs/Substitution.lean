/-
Constants in one part of an operand and in the next.

Constants are put in token by token.  Two things decide about a token: which word it is, and
what was read before it, of which two characters count.  Neither looks far.  A text can be cut
in front of every character that is not part of a word, and tokens do not go across.  And what
was read before is forgotten with the next token that is not blank.

So an operand whose constants are put in as a whole, and one whose part up to the first blank is
left as it is, come out the same but for three cases: that part names a constant, a constant
named like the accumulator is all that is behind it, or that part ends in a comma and a constant
named like an index register comes next.  `Symbols.Separable` excludes them.
-/
import Mos6502.Proofs.Word
import Mos6502.Source.Prepared

namespace Mos6502

variable {c : Char} {text behind word : Text} {symbols : Symbols} {before : Before}
  {token : Text} {xs ys : List Text}

/-! ### Tokens -/

theorem tokens_cons_of_not_word (hc : isWordChar c = false) (text : Text) :
    tokens (c :: text) = [c] :: tokens text := by
  show pushToken c (tokens text) = _
  cases tokens text <;> simp [pushToken, hc]

/-- No token goes across a place that no word goes across. -/
theorem tokens_append (h : behind.head?.any isWordChar = false) (text : Text) :
    tokens (text ++ behind) = tokens text ++ tokens behind := by
  induction text with
  | nil => rfl
  | cons c text ih =>
    show pushToken c (tokens (text ++ behind)) = pushToken c (tokens text) ++ tokens behind
    rw [ih]
    cases htokens : tokens text with
    | cons token rest =>
      rw [List.cons_append, pushToken, pushToken]
      split <;> rfl
    | nil =>
      cases behind with
      | nil => rfl
      | cons d behind =>
        have hd : isWordChar d = false := h
        rw [tokens_cons_of_not_word hd]
        simp [pushToken, hd]

theorem tokens_of_word (hword : ∀ c ∈ word, isWordChar c = true) (hne : word ≠ []) :
    tokens word = [word] := by
  induction word with
  | nil => exact absurd rfl hne
  | cons c rest ih =>
    rw [List.forall_mem_cons] at hword
    show pushToken c (tokens rest) = _
    cases rest with
    | nil => rfl
    | cons d rest =>
      rw [ih hword.2 (List.cons_ne_nil _ _)]
      simp [pushToken, hword.1, hword.2 d (List.mem_cons_self ..)]

/-- A word in front of a text is as long as it can be. -/
theorem head?_splitWord (text : Text) : (splitWord text).2.head?.any isWordChar = false := by
  have hhead := List.head?_dropWhile_not isWordChar text
  unfold splitWord
  cases hdrop : (text.dropWhile isWordChar).head? with
  | none => rfl
  | some c =>
    rw [hdrop] at hhead
    simpa using hhead

/-- A text that starts with a word has it as its first token. -/
theorem tokens_of_splitWord (h : (splitWord text).1 ≠ []) :
    tokens text = (splitWord text).1 :: tokens (splitWord text).2 := by
  have hword : ∀ c ∈ (splitWord text).1, isWordChar c = true :=
    fun c hc => List.mem_takeWhile_imp hc
  conv_lhs => rw [← splitWord_append text]
  rw [tokens_append (head?_splitWord text), tokens_of_word hword h]
  rfl

theorem tokens_of_blank (hblank : ∀ c ∈ text, isBlank c = true) (behind : Text) :
    tokens (text ++ behind) = text.map (fun c => [c]) ++ tokens behind := by
  induction text with
  | nil => rfl
  | cons c text ih =>
    rw [List.forall_mem_cons] at hblank
    rw [List.cons_append, tokens_cons_of_not_word (isWordChar_of_isBlank hblank.1),
      ih hblank.2]
    rfl

/-! ### One token after another -/

namespace Symbols

/-- What stands for some tokens, once something was read before. -/
def replaced (symbols : Symbols) (before : Before) (tokens : List Text) : List Text :=
  symbols.replaceAll before [] tokens

theorem replaceAll_eq (symbols : Symbols) (before : Before) (done tokens : List Text) :
    symbols.replaceAll before done tokens = done.reverse ++ symbols.replaced before tokens := by
  induction tokens generalizing before done with
  | nil => exact (List.append_nil _).symm
  | cons token rest ih =>
    rw [replaced, replaceAll, replaceAll, ih, ih]
    simp

theorem replaced_cons (symbols : Symbols) (before : Before) (token : Text)
    (rest : List Text) :
    symbols.replaced before (token :: rest) =
      symbols.replace before token :: symbols.replaced (before.push token) rest := by
  rw [replaced, replaceAll, replaceAll_eq]
  rfl

theorem replaced_append (symbols : Symbols) (before : Before) (xs ys : List Text) :
    symbols.replaced before (xs ++ ys) =
      symbols.replaced before xs ++ symbols.replaced (xs.foldl Before.push before) ys := by
  induction xs generalizing before with
  | nil => rfl
  | cons token xs ih =>
    rw [List.cons_append, replaced_cons, replaced_cons, ih]
    rfl

/-- Only a word that has a definition is replaced. -/
theorem replace_eq_self (h : token.head?.any isWordChar = true → symbols.contains token = false)
    (before : Before) : symbols.replace before token = token := by
  unfold replace
  split
  · rename_i hword
    simp only [Bool.and_eq_true] at hword
    have hnone : symbols.lookup? token = none := by
      simpa [contains] using h hword.1.1
    rw [hnone]
    rfl
  · rfl

theorem replaced_eq_self
    (h : ∀ token ∈ xs, token.head?.any isWordChar = true → symbols.contains token = false)
    (before : Before) : symbols.replaced before xs = xs := by
  induction xs generalizing before with
  | nil => rfl
  | cons token xs ih =>
    rw [List.forall_mem_cons] at h
    rw [replaced_cons, replace_eq_self h.1, ih h.2]

theorem replaced_cons_of_not_word (hc : isWordChar c = false) (before : Before)
    (rest : List Text) :
    symbols.replaced before ([c] :: rest) =
      [c] :: symbols.replaced ⟨some c, if isBlank c then before.lastSolid else some c⟩ rest := by
  have hword : [c].head?.any isWordChar = true → symbols.contains [c] = false := by
    intro h
    rw [List.head?_cons, Option.any_some, hc] at h
    cases h
  rw [replaced_cons, replace_eq_self hword]
  rfl

end Symbols

/-! ### What was read before -/

/-- After a text without blanks, its last character is both the last and the last solid one. -/
theorem Before.foldl_push (h : ∀ c ∈ xs.flatten, isBlank c = false) (before : Before) :
    xs.foldl Before.push before =
      ⟨xs.flatten.getLast?.or before.last, xs.flatten.getLast?.or before.lastSolid⟩ := by
  induction xs generalizing before with
  | nil => rfl
  | cons token xs ih =>
    rw [List.flatten_cons, List.forall_mem_append] at h
    rw [List.foldl_cons, ih h.2, List.flatten_cons, List.getLast?_append, push]
    cases hlast : token.getLast? with
    | none => rw [Option.or_none]
    | some c => simp [h.1 c (List.mem_of_getLast? hlast)]

/-- Whether a word is an index register and names a constant as well. -/
def Symbols.Shadows (symbols : Symbols) (token : Text) : Prop :=
  (sameLetters token ['x'] || sameLetters token ['y']) = true ∧ symbols.contains token = true

namespace Symbols

variable {solid : Option Char}

theorem replace_of_lastSolid (h : solid = some ',' → ¬symbols.Shadows token)
    (last : Option Char) :
    symbols.replace ⟨last, solid⟩ token = symbols.replace ⟨last, none⟩ token := by
  cases hindex : Before.isIndex ⟨last, solid⟩ token with
  | true =>
    simp only [Before.isIndex, Bool.and_eq_true, beq_iff_eq] at hindex
    have hfree : symbols.contains token = false := by
      simpa [Shadows, hindex.2] using h hindex.1
    rw [replace_eq_self fun _ => hfree, replace_eq_self fun _ => hfree]
  | false =>
    unfold replace
    rw [hindex]
    rfl

/-- The last solid character is looked at once, for the first word behind it. -/
theorem replaced_of_lastSolid
    (h : solid = some ',' → ¬symbols.Shadows (splitWord (trimLeft text)).1)
    (last : Option Char) :
    symbols.replaced ⟨last, solid⟩ (tokens text) =
      symbols.replaced ⟨last, none⟩ (tokens text) := by
  induction text generalizing last with
  | nil => rfl
  | cons c text ih =>
    cases hblank : isBlank c with
    | true =>
      have hc : isWordChar c = false := isWordChar_of_isBlank hblank
      rw [trimLeft_cons_of_blank hblank] at h
      rw [tokens_cons_of_not_word hc, replaced_cons_of_not_word hc, replaced_cons_of_not_word hc,
        hblank]
      exact congrArg ([c] :: ·) (ih h (some c))
    | false =>
      cases hc : isWordChar c with
      | false =>
        rw [tokens_cons_of_not_word hc, replaced_cons_of_not_word hc,
          replaced_cons_of_not_word hc, hblank]
        rfl
      | true =>
        rw [trimLeft_cons_of_not_blank hblank] at h
        have hne : (splitWord (c :: text)).1 ≠ [] := by
          simp [splitWord, hc]
        have hpush : ∀ solid, Before.push ⟨last, solid⟩ (splitWord (c :: text)).1 =
            ⟨(splitWord (c :: text)).1.getLast?, (splitWord (c :: text)).1.getLast?⟩ := by
          intro solid
          obtain ⟨d, hd⟩ := List.getLast?_isSome.mpr hne |> Option.isSome_iff_exists.mp
          have hword : isWordChar d = true :=
            List.mem_takeWhile_imp (List.mem_of_getLast? hd)
          rw [Before.push, hd]
          simp [isBlank_of_isWordChar hword]
        rw [tokens_of_splitWord hne, replaced_cons, replaced_cons, replace_of_lastSolid h, hpush,
          hpush]

end Symbols

/-! ### Up to the first blank and behind it -/

/-- An operand up to its first blank. -/
def glued (operand : Text) : Text :=
  operand.takeWhile fun c => !isBlank c

/-- An operand from its first blank on. -/
def loose (operand : Text) : Text :=
  operand.dropWhile fun c => !isBlank c

/-- Whether constants may be put into an operand from its first blank on only. -/
structure Symbols.Separable (symbols : Symbols) (operand : Text) : Prop where
  /-- There is nothing to put in up to the blank. -/
  unchanged : symbols.inOperand (glued operand) = glued operand
  /-- Behind the blank, no constant is taken for the accumulator. -/
  accumulator : sameLetters (trim (loose operand)) ['a'] = true →
    symbols.contains (trim (loose operand)) = false
  /-- Behind the blank, no index register is taken for a constant. -/
  index : (glued operand).getLast? = some ',' →
    ¬symbols.Shadows (splitWord (trimLeft (loose operand))).1

theorem glued_append_loose (operand : Text) : glued operand ++ loose operand = operand :=
  List.takeWhile_append_dropWhile

theorem isBlank_of_mem_glued {operand : Text} (hc : c ∈ glued operand) : isBlank c = false := by
  unfold glued at hc
  simpa using List.mem_takeWhile_imp hc

/-- What is behind the first blank starts with it. -/
theorem isBlank_of_loose {operand : Text} (h : loose operand = c :: behind) :
    isBlank c = true := by
  have hhead := List.head?_dropWhile_not (fun c => !isBlank c) operand
  rw [← loose, h] at hhead
  simpa using hhead

theorem head?_loose (operand : Text) : (loose operand).head?.any isWordChar = false := by
  cases hloose : loose operand with
  | nil => rfl
  | cons b behind => exact isWordChar_of_isBlank (isBlank_of_loose hloose)

theorem tokens_of_loose (operand : Text) :
    tokens operand = tokens (glued operand) ++ tokens (loose operand) := by
  conv_lhs => rw [← glued_append_loose operand]
  exact tokens_append (head?_loose operand) _

theorem not_accumulator (hc : isWordChar c = false) (hblank : isBlank c = false) (text : Text) :
    sameLetters (trim (c :: text)) ['a'] = false := by
  rw [trim_cons_of_not_blank hblank, Bool.eq_false_iff]
  intro h
  have hword := isWordChar_of_sameLetters h (by decide) c (List.mem_cons_self ..)
  rw [hc] at hword
  cases hword

theorem mem_tokens_of_splitWord (hne : (splitWord (trimLeft text)).1 ≠ []) :
    (splitWord (trimLeft text)).1 ∈ tokens text := by
  have hblank : ∀ c ∈ text.takeWhile isBlank, isBlank c = true :=
    fun c hc => List.mem_takeWhile_imp hc
  have htokens := tokens_of_blank hblank (trimLeft text)
  rw [trimLeft, List.takeWhile_append_dropWhile, ← trimLeft, tokens_of_splitWord hne] at htokens
  rw [htokens]
  simp

/-- A word between blanks is one token among tokens that are blank. -/
theorem tokens_of_trim (hword : ∀ c ∈ trim text, isWordChar c = true) (hne : trim text ≠ []) :
    ∃ left right : Text, tokens text =
        left.map (fun c => [c]) ++ (trim text :: right.map fun c => [c]) ∧
      (∀ c ∈ left, isBlank c = true) ∧ ∀ c ∈ right, isBlank c = true := by
  obtain ⟨left, right, heq, hleft, hright⟩ := exists_trim text
  refine ⟨left, right, ?_, hleft, hright⟩
  have hbehind : right.head?.any isWordChar = false := by
    cases right with
    | nil => rfl
    | cons c right => exact isWordChar_of_isBlank (hright c (List.mem_cons_self ..))
  have hblanks := tokens_of_blank hright []
  rw [List.append_nil] at hblanks
  conv_lhs => rw [heq]
  rw [tokens_of_blank hleft, tokens_append hbehind, tokens_of_word hword hne, hblanks]
  simp [tokens]

/-- Between blanks, a word is the only token that is one. -/
theorem eq_trim_of_mem_tokens (hword : ∀ c ∈ trim text, isWordChar c = true)
    (hne : trim text ≠ []) (hmem : token ∈ tokens text)
    (htoken : token.head?.any isWordChar = true) : token = trim text := by
  have hblank : ∀ {blanks : Text}, (∀ c ∈ blanks, isBlank c = true) →
      token ∉ blanks.map fun c => [c] := by
    intro blanks hblanks hmem
    obtain ⟨c, hc, rfl⟩ := List.mem_map.mp hmem
    rw [List.head?_cons, Option.any_some, isWordChar_of_isBlank (hblanks c hc)] at htoken
    cases htoken
  obtain ⟨left, right, htokens, hleft, hright⟩ := tokens_of_trim hword hne
  rw [htokens, List.mem_append, List.mem_cons] at hmem
  rcases hmem with hmem | hmem | hmem
  · exact absurd hmem (hblank hleft)
  · exact hmem
  · exact absurd hmem (hblank hright)

namespace Symbols

variable {operand : Text}

theorem inOperand_eq (h : sameLetters (trim operand) ['a'] = false) :
    symbols.inOperand operand = (symbols.replaced {} (tokens operand)).flatten := by
  rw [inOperand, h]
  rfl

/-- A blank comes first, so the last character before it is not looked at. -/
theorem replaced_of_last (symbols : Symbols) (operand : Text) (last : Option Char) :
    symbols.replaced ⟨last, none⟩ (tokens (loose operand)) =
      symbols.replaced {} (tokens (loose operand)) := by
  cases hloose : loose operand with
  | nil => rfl
  | cons b behind =>
    have hword : isWordChar b = false := isWordChar_of_isBlank (isBlank_of_loose hloose)
    rw [tokens_cons_of_not_word hword, replaced_cons_of_not_word hword,
      replaced_cons_of_not_word hword]

/-- Behind the first blank, it makes no difference what was read up to it. -/
theorem Separable.replaced_loose (h : symbols.Separable operand) (last : Option Char) :
    (symbols.replaced ⟨last, (glued operand).getLast?⟩ (tokens (loose operand))).flatten =
      symbols.inOperand (loose operand) := by
  cases haccumulator : sameLetters (trim (loose operand)) ['a'] with
  | true =>
    have hword : ∀ c ∈ trim (loose operand), isWordChar c = true :=
      isWordChar_of_sameLetters haccumulator (by decide)
    have hne : trim (loose operand) ≠ [] := by
      intro hnil
      rw [hnil] at haccumulator
      cases haccumulator
    rw [inOperand, if_pos haccumulator, replaced_eq_self, flatten_tokens]
    intro token hmem htoken
    rw [eq_trim_of_mem_tokens hword hne hmem htoken]
    exact h.accumulator haccumulator
  | false =>
    rw [inOperand_eq haccumulator, replaced_of_lastSolid h.index, replaced_of_last]

/-- Up to the first blank, constants are put in as if nothing was read before. -/
theorem Separable.replaced_glued (hc : isWordChar c = false) (hblank : isBlank c = false)
    (h : symbols.Separable (c :: text)) (before : Before) :
    (symbols.replaced before (tokens (glued (c :: text)))).flatten =
      glued (c :: text) := by
  have hsame := h.unchanged
  rw [glued, List.takeWhile_cons_of_pos (by simp [hblank])] at hsame ⊢
  rw [inOperand_eq (not_accumulator hc hblank _), tokens_cons_of_not_word hc,
    replaced_cons_of_not_word hc] at hsame
  rw [tokens_cons_of_not_word hc, replaced_cons_of_not_word hc]
  simpa only [hblank, Bool.false_eq_true, if_false] using hsame

/-- Nothing is put in where no token has a definition. -/
theorem inOperand_of_free (h : ∀ token ∈ tokens operand, symbols.contains token = false) :
    symbols.inOperand operand = operand := by
  rw [inOperand]
  split
  · rfl
  · rw [← replaced, replaced_eq_self fun token htoken _ => h token htoken, flatten_tokens]

/-- So an operand in which no token has a definition is separable. -/
theorem separable_of_free (h : ∀ token ∈ tokens operand, symbols.contains token = false) :
    symbols.Separable operand := by
  rw [tokens_of_loose, List.forall_mem_append] at h
  refine ⟨inOperand_of_free h.1, fun haccumulator => ?_, fun _ hshadows => ?_⟩
  · have hne : trim (loose operand) ≠ [] := by
      intro hnil
      rw [hnil] at haccumulator
      cases haccumulator
    obtain ⟨left, right, htokens, -, -⟩ :=
      tokens_of_trim (isWordChar_of_sameLetters haccumulator (by decide)) hne
    exact h.2 _ (by simp [htokens])
  · have hne : (splitWord (trimLeft (loose operand))).1 ≠ [] := by
      intro hnil
      rw [hnil] at hshadows
      cases hshadows.1
    have hfree := h.2 _ (mem_tokens_of_splitWord hne)
    rw [hshadows.2] at hfree
    cases hfree

/-- Constants in an operand with a blank in front. -/
theorem inOperand_spaced (hc : isWordChar c = false) (hblank : isBlank c = false)
    (h : symbols.Separable (c :: text)) :
    symbols.inOperand (' ' :: c :: text) =
      ' ' :: (glued (c :: text) ++ symbols.inOperand (loose (c :: text))) := by
  have hspaced : sameLetters (trim (' ' :: c :: text)) ['a'] = false := by
    rw [trim, trimLeft_cons_of_blank (by decide), ← trim]
    exact not_accumulator hc hblank text
  have hword : isWordChar ' ' = false := by decide
  have hsolid : ∀ d ∈ glued (c :: text), isBlank d = false := fun d hd =>
    isBlank_of_mem_glued hd
  obtain ⟨last, hlast⟩ : ∃ last, (glued (c :: text)).getLast? = some last := by
    rw [glued, List.takeWhile_cons_of_pos (by simp [hblank]), List.getLast?_cons]
    exact ⟨_, rfl⟩
  have hread : ∀ before, (tokens (glued (c :: text))).foldl Before.push before =
      ⟨some last, some last⟩ := by
    intro before
    rw [Before.foldl_push (by rwa [flatten_tokens]), flatten_tokens, hlast]
    rfl
  have hloose := h.replaced_loose (some last)
  rw [hlast] at hloose
  rw [inOperand_eq hspaced, tokens_cons_of_not_word hword, replaced_cons_of_not_word hword,
    tokens_of_loose (c :: text), replaced_append, List.flatten_cons, List.flatten_append,
    h.replaced_glued hc hblank, hread, hloose]
  rfl

end Symbols

end Mos6502
