/-
How statements are written, and that they are read back.

A line is written as a label or none, a statement, and blanks around it.  For a statement there is
one form (`Renders`), but the form leaves a choice in the numbers, in the case of the letters and in
the empty entries of a list.

Four scans take a line apart: for the first colon, for the sign of an origin, for the end of the
command and for blanks.  None of them goes wrong on text that belongs to another.  A colon in an
operand is behind the blank that ends the command, so no label ends there; an origin starts with a
sign that is no part of a word; and what a command ends at is no part of a word either.

The other way round, every line is laid out as a label or none and a rest (`LaidOut`), and a line is
rejected exactly if its rest is none of what can be read.
-/
import Mos6502.Proofs.LineParts
import Mos6502.Proofs.Spelling

namespace Mos6502

variable {c : Char} {left gap right text word operand rest : Text} {label : Option Text}
  {s : Statement} {address : UInt16} {bytes : List UInt8} {m : Mnemonic}

/-! ### Blanks around a text -/

theorem isBlank_of_getLast?_trim (h : (trim text).getLast? = some c) : isBlank c = false := by
  have hhead := List.head?_dropWhile_not isBlank (trimLeft text).reverse
  rw [trim, trimRight, List.getLast?_reverse] at h
  rw [h] at hhead
  simpa using hhead

/-- Blanks around a text that starts with a word are taken off behind the word only. -/
theorem trim_word_append (hne : word ≠ []) (hword : ∀ c ∈ word, isWordChar c = true)
    (tail : Text) : trim (word ++ tail) = word ++ trimRight tail := by
  have hsolid : ∀ c ∈ word, isBlank c = false := fun c hc => isBlank_of_isWordChar (hword c hc)
  have hlast : word.getLast? = some (word.getLast hne) := List.getLast?_eq_some_getLast hne
  have hfirst : ∀ c, (word ++ tail).head? = some c → isBlank c = false := by
    intro c hc
    rw [List.head?_append_of_ne_nil _ hne] at hc
    exact hsolid c (List.mem_of_head? hc)
  rw [trim, trimLeft_eq_self hfirst, trimRight_append hlast (hsolid _ (List.getLast_mem hne))]

/-! ### Commands -/

namespace Mnemonic

/-- A text is read as the instruction whose name it spells. -/
theorem ofText?_eq_some_iff : ofText? word = some m ↔ sameLetters m.name word = true := by
  constructor
  · intro h
    simpa using List.find?_some h
  · intro h
    have hsame : ∀ m' : Mnemonic, sameLetters m'.name word = sameLetters m'.name m.name := by
      intro m'
      rw [sameLetters, sameLetters, beq_iff_eq.mp h]
    rw [← ofText?_name m, ofText?, ofText?]
    simp only [hsame]

theorem ofText?_eq_none_iff :
    ofText? word = none ↔ ∀ m : Mnemonic, sameLetters m.name word = false := by
  rw [ofText?, List.find?_eq_none]
  exact ⟨fun h m => by simpa using h m m.mem_all, fun h m _ => by simp [h m]⟩

/-- No instruction has the name of the command for data. -/
theorem not_data (h : sameLetters m.name word = true) :
    sameLetters word ['d', 'c', 'b'] = false := by
  have key : ∀ m ∈ all, sameLetters m.name ['d', 'c', 'b'] = false := by decide
  rw [← key m m.mem_all, sameLetters, sameLetters, beq_iff_eq.mp h]

end Mnemonic

/-! ### Origins -/

/-- A text that sets the address.  Blanks are allowed between its parts. -/
def IsOrigin (text : Text) (address : UInt16) : Prop :=
  ∃ gap inner number behind, AllBlank gap ∧ AllBlank inner ∧ AllBlank behind ∧
    Writes originBases address.toNat number ∧
    text = '*' :: (gap ++ '=' :: (inner ++ (number ++ behind)))

theorem isOrigin_iff :
    IsOrigin text address ↔
      ∃ value, originText? text = some value ∧ originAddress? value = some address := by
  constructor
  · rintro ⟨gap, inner, number, behind, hgap, hinner, hbehind, hnumber, rfl⟩
    refine ⟨number, ?_, originAddress?_eq_some_iff.mpr hnumber⟩
    have hsolid : trim number = number := trim_of_solid hnumber.of_originBases.isBlank
    have hsign : isBlank '=' = false := by decide
    simp only [originText?, trimLeft_append_of_blank hgap, trimLeft_cons_of_not_blank hsign,
      trim_append_of_blank hinner hbehind, hsolid]
  · rintro ⟨value, hvalue, haddress⟩
    unfold originText? at hvalue
    split at hvalue
    · rename_i tail
      split at hvalue
      · rename_i number htail
        obtain rfl := Option.some.inj hvalue
        obtain ⟨inner, behind, hnumber, hinner, hbehind⟩ := exists_trim number
        refine ⟨tail.takeWhile isBlank, inner, trim number, behind,
          fun c hc => List.all_eq_true.mp List.all_takeWhile c hc, hinner, hbehind,
          originAddress?_eq_some_iff.mp haddress, ?_⟩
        rw [← hnumber, ← htail, trimLeft, List.takeWhile_append_dropWhile]
      · cases hvalue
    · cases hvalue

theorem parse?_of_originText? {value : Text} (h : originText? text = some value) :
    Statement.parse? text = (originAddress? value).map .origin := by
  have hne : text ≠ [] := by
    rintro rfl
    cases h
  rw [Statement.parse?, if_neg hne, h]

theorem parse?_of_no_origin (hne : text ≠ []) (h : originText? text = none) :
    Statement.parse? text =
      if sameLetters (splitWord text).1 ['d', 'c', 'b'] then
        (dataBytes? (squeeze (splitWord text).2)).map .data
      else (Mnemonic.ofText? (splitWord text).1).map
        fun m => .instruction m (squeeze (splitWord text).2) := by
  rw [Statement.parse?, if_neg hne, h]

theorem splitWord_of_originText? {value : Text} (h : originText? text = some value) :
    (splitWord text).1 = [] := by
  unfold originText? at h
  split at h
  · rfl
  · cases h

theorem IsOrigin.parse? (h : IsOrigin text address) :
    Statement.parse? text = some (.origin address) := by
  obtain ⟨value, hvalue, haddress⟩ := isOrigin_iff.mp h
  rw [parse?_of_originText? hvalue, haddress]
  rfl

/-- The sign that an origin starts with is no part of a label. -/
theorem splitLabel?_of_star (tail : Text) : splitLabel? ('*' :: tail) = none := by
  cases hlabel : splitLabel? ('*' :: tail) with
  | none => rfl
  | some split =>
    obtain ⟨hid, -, heq⟩ := eq_of_splitLabel? hlabel
    obtain ⟨c, name, hname⟩ := List.exists_cons_of_ne_nil (ne_nil_of_isIdentifier hid)
    rw [hname, List.cons_append] at heq
    obtain ⟨rfl, -⟩ := List.cons.inj heq
    rw [hname] at hid
    exact absurd (isWordChar_of_mem_identifier hid (List.mem_cons_self ..)) (by decide)

/-! ### Writing a statement -/

/-- Whether a statement can be written: its data is not empty, and its operand holds no blanks. -/
def Statement.IsWritable : Statement → Prop
  | .data bytes => bytes ≠ []
  | .instruction _ operand => ∀ c ∈ operand, isBlank c = false
  | _ => True

/-- The texts that a statement is written as. -/
inductive Renders : Statement → Text → Prop
  | empty : Renders .empty []
  | origin {address : UInt16} {number : Text} (hnumber : Writes originBases address.toNat number) :
      Renders (.origin address) (['*', ' ', '=', ' '] ++ number)
  | data {bytes : List UInt8} {word list : Text} (hword : sameLetters word ['d', 'c', 'b'] = true)
      (hlist : ListsBytes list bytes) : Renders (.data bytes) (word ++ ' ' :: list)
  | instruction {m : Mnemonic} {word operand : Text} (hword : sameLetters m.name word = true)
      (hoperand : ∀ c ∈ operand, isBlank c = false) :
      Renders (.instruction m operand) (word ++ ' ' :: operand)

theorem isWritable_iff : s.IsWritable ↔ ∃ text, Renders s text := by
  constructor
  · intro h
    cases s with
    | empty => exact ⟨[], .empty⟩
    | origin address => exact ⟨_, .origin (writes_dollarWord address)⟩
    | data bytes =>
      obtain ⟨list, hlist⟩ := exists_listsBytes h
      have hword : sameLetters ['D', 'C', 'B'] ['d', 'c', 'b'] = true := by decide
      exact ⟨_, .data hword hlist⟩
    | instruction m operand => exact ⟨_, .instruction (beq_self_eq_true _) h⟩
  · rintro ⟨text, h⟩
    cases h with
    | empty => trivial
    | origin => trivial
    | data hword hlist => exact hlist.1
    | instruction hword hoperand => exact hoperand

theorem squeeze_of_solid (h : ∀ c ∈ text, isBlank c = false) : squeeze text = text :=
  List.filter_eq_self.mpr fun c hc => by simp [h c hc]

theorem isBlank_of_mem_squeeze (h : c ∈ squeeze text) : isBlank c = false := by
  simpa using (List.mem_filter.mp h).2

/-- A command and a text without blanks are read as they are. -/
theorem parse?_command (hword : IsCommand word) (hoperand : ∀ c ∈ operand, isBlank c = false) :
    splitLabel? (trim (word ++ ' ' :: operand)) = none ∧
    Statement.parse? (trim (word ++ ' ' :: operand)) =
      if sameLetters word ['d', 'c', 'b'] then (dataBytes? operand).map Statement.data
      else (Mnemonic.ofText? word).map fun m => .instruction m operand := by
  have hends : EndsWord (' ' :: operand) := by
    rintro c ⟨⟩
    decide
  have hsqueeze : squeeze (trimRight (' ' :: operand)) = operand := by
    rw [squeeze_trimRight, squeeze, List.filter_cons_of_neg (by decide)]
    exact squeeze_of_solid hoperand
  rw [trim_word_append hword.ne_nil hword.isWordChar]
  refine ⟨hends.trimRight.splitLabel?_append hword.isWordChar, ?_⟩
  rw [hends.trimRight.parse?_append hword.isWordChar hword.ne_nil, hsqueeze]

/-- An origin is read, with one blank before its sign and one behind it. -/
theorem parse?_origin {number : Text} (h : Writes originBases address.toNat number) :
    splitLabel? (trim (['*', ' ', '=', ' '] ++ number)) = none ∧
      Statement.parse? (trim (['*', ' ', '=', ' '] ++ number)) = some (.origin address) := by
  have hblank : AllBlank [' '] := List.forall_mem_singleton.mpr (by decide)
  have hnothing : AllBlank [] := fun _ hc => absurd hc (List.not_mem_nil)
  have horigin : IsOrigin (['*', ' ', '=', ' '] ++ number) address :=
    ⟨[' '], [' '], number, [], hblank, hblank, hnothing, h, by rw [List.append_nil]; rfl⟩
  have htrim : trim (['*', ' ', '=', ' '] ++ number) = ['*', ' ', '=', ' '] ++ number := by
    refine trim_eq_self (by rintro c ⟨⟩; decide) fun c hc => ?_
    rw [List.getLast?_append_of_ne_nil _ h.ne_nil] at hc
    exact h.of_originBases.isBlank c (List.mem_of_getLast? hc)
  rw [htrim]
  exact ⟨splitLabel?_of_star _, horigin.parse?⟩

/-- A statement that was written is read back, and no part of it is taken for a label. -/
theorem Renders.parse? (h : Renders s text) :
    splitLabel? (trim text) = none ∧ Statement.parse? (trim text) = some s := by
  cases h with
  | empty => exact ⟨rfl, rfl⟩
  | origin hnumber => exact parse?_origin hnumber
  | data hword hlist =>
    obtain ⟨hlabel, hparse⟩ := parse?_command (.inl hword) hlist.isBlank
    rw [hparse, if_pos hword, (dataBytes?_eq_some_iff hlist.isBlank).mpr hlist]
    exact ⟨hlabel, rfl⟩
  | instruction hword hoperand =>
    have hname := Mnemonic.ofText?_eq_some_iff.mpr hword
    obtain ⟨hlabel, hparse⟩ := parse?_command (.inr (by rw [hname]; rfl)) hoperand
    rw [hparse, if_neg (by rw [Mnemonic.not_data hword]; decide), hname]
    exact ⟨hlabel, rfl⟩

/-- What was read can be written. -/
theorem exists_renders (h : Statement.parse? text = some s) : ∃ written, Renders s written := by
  have hsolid : ∀ c ∈ squeeze (splitWord text).2, isBlank c = false :=
    fun c hc => isBlank_of_mem_squeeze hc
  by_cases hne : text = []
  · subst hne
    cases h
    exact ⟨[], .empty⟩
  cases hvalue : originText? text with
  | some value =>
    rw [parse?_of_originText? hvalue] at h
    obtain ⟨address, haddress, rfl⟩ := Option.map_eq_some_iff.mp h
    exact ⟨_, .origin (originAddress?_eq_some_iff.mp haddress)⟩
  | none =>
    rw [parse?_of_no_origin hne hvalue] at h
    split at h
    · rename_i hword
      obtain ⟨bytes, hbytes, rfl⟩ := Option.map_eq_some_iff.mp h
      exact ⟨_, .data hword ((dataBytes?_eq_some_iff hsolid).mp hbytes)⟩
    · obtain ⟨m, hm, rfl⟩ := Option.map_eq_some_iff.mp h
      exact ⟨_, .instruction (Mnemonic.ofText?_eq_some_iff.mp hm) hsolid⟩

/-! ### The layout of a line -/

/-- A line is a label with its colon or none, and a rest, with blanks around both.  The rest starts
and ends with no blank, and what could be a label is one. -/
structure LaidOut (line : Text) (label : Option Text) (rest : Text) : Prop where
  /-- The label is an identifier. -/
  isIdentifier : ∀ name, label = some name → isIdentifier name = true
  /-- Without a label the rest does not start with one. -/
  bare : label = none → ∀ name behind, Mos6502.isIdentifier name = true →
    rest ≠ name ++ ':' :: behind
  first : ∀ c, rest.head? = some c → isBlank c = false
  last : ∀ c, rest.getLast? = some c → isBlank c = false
  eq : ∃ left gap right, AllBlank left ∧ AllBlank gap ∧ AllBlank right ∧
    line = left ++ (label.elim [] (· ++ ':' :: gap) ++ (rest ++ right))

/-- The label is split off, and the rest is read as a statement. -/
theorem parse?_append (hleft : AllBlank left) (hgap : AllBlank gap) (hright : AllBlank right)
    (hname : ∀ name, label = some name → isIdentifier name = true)
    (hbare : label = none → splitLabel? (trim text) = none) :
    Line.parse? (left ++ (label.elim [] (· ++ ':' :: gap) ++ (text ++ right))) =
      (Statement.parse? (trim text)).map fun s => ⟨label, s⟩ := by
  cases label with
  | none =>
    simp only [Option.elim, List.nil_append, Line.parse?, trim_append_of_blank hleft hright,
      hbare rfl]
  | some name =>
    have hid := hname name rfl
    have htrim : trim (left ++ (name ++ ':' :: gap ++ (text ++ right))) =
        name ++ ':' :: trimRight (gap ++ (text ++ right)) := by
      have hhead : ∀ c, (name ++ ':' :: (gap ++ (text ++ right))).head? = some c →
          isBlank c = false := by
        intro c hc
        rw [List.head?_append_of_ne_nil _ (ne_nil_of_isIdentifier hid)] at hc
        exact isBlank_of_isWordChar (isWordChar_of_mem_identifier hid (List.mem_of_head? hc))
      rw [List.append_assoc, List.cons_append, trim, trimLeft_append_of_blank hleft,
        trimLeft_eq_self hhead, List.append_cons,
        trimRight_append (List.getLast?_concat ..) (by decide), List.append_assoc,
        List.singleton_append]
    simp only [Option.elim, Line.parse?, htrim, splitLabel?_of_isIdentifier hid,
      trimLeft_trimRight, trim_append_of_blank hgap hright]

theorem LaidOut.parse?_eq {line : Text} (h : LaidOut line label rest) :
    Line.parse? line = (Statement.parse? rest).map fun s => ⟨label, s⟩ := by
  obtain ⟨left, gap, right, hleft, hgap, hright, rfl⟩ := h.eq
  have htrim : trim rest = rest := trim_eq_self h.first h.last
  rw [parse?_append hleft hgap hright h.isIdentifier, htrim]
  intro hnone
  rw [htrim]
  cases hlabel : splitLabel? rest with
  | none => rfl
  | some split =>
    obtain ⟨hid, -, heq⟩ := eq_of_splitLabel? hlabel
    exact absurd heq (h.bare hnone _ _ hid)

theorem exists_laidOut (line : Text) : ∃ label rest, LaidOut line label rest := by
  obtain ⟨left, right, hline, hleft, hright⟩ := exists_trim line
  cases hlabel : splitLabel? (trim line) with
  | none =>
    refine ⟨none, trim line, ⟨?_, ?_, ?_, ?_, left, [], right, hleft, ?_, hright, hline⟩⟩
    · rintro name ⟨⟩
    · intro _ name behind hid heq
      rw [heq, splitLabel?_of_isIdentifier hid] at hlabel
      cases hlabel
    · exact fun c => isBlank_of_head?_trim
    · exact fun c => isBlank_of_getLast?_trim
    · exact fun c hc => absurd hc (List.not_mem_nil)
  | some split =>
    obtain ⟨name, behind⟩ := split
    obtain ⟨hid, -, heq⟩ := eq_of_splitLabel? hlabel
    obtain ⟨gap, inner, hbehind, hgap, hinner⟩ := exists_trim behind
    refine ⟨some name, trim behind,
      ⟨?_, ?_, ?_, ?_, left, gap, inner ++ right, hleft, hgap, ?_, ?_⟩⟩
    · rintro _ ⟨⟩
      exact hid
    · rintro ⟨⟩
    · exact fun c => isBlank_of_head?_trim
    · exact fun c => isBlank_of_getLast?_trim
    · exact List.forall_mem_append.mpr ⟨hinner, hright⟩
    · rw [heq] at hline
      simp only [Option.elim, List.append_assoc, List.cons_append]
      rw [← List.append_assoc (trim behind), ← List.append_assoc gap, ← hbehind]
      simpa only [List.append_assoc, List.cons_append] using hline

/-! ### What is rejected -/

theorem not_isOrigin (h : originText? rest = none) (address : UInt16) :
    ¬ IsOrigin rest address := by
  intro horigin
  obtain ⟨value, hvalue, -⟩ := isOrigin_iff.mp horigin
  cases h.symm.trans hvalue

/-- With the signs of an origin in front, only the address is looked at. -/
theorem parse?_eq_none_iff_of_originText? {value : Text} (h : originText? rest = some value) :
    Statement.parse? rest = none ↔ ∀ address, ¬ IsOrigin rest address := by
  rw [parse?_of_originText? h, Option.map_eq_none_iff]
  constructor
  · intro hnone address horigin
    obtain ⟨_, hvalue, haddress⟩ := isOrigin_iff.mp horigin
    obtain rfl := Option.some.inj (h.symm.trans hvalue)
    cases hnone.symm.trans haddress
  · intro horigin
    refine Option.eq_none_iff_forall_ne_some.mpr fun address haddress => ?_
    exact horigin address (isOrigin_iff.mpr ⟨value, h, haddress⟩)

/-- Without them a command is looked for, and bytes behind the command for data. -/
theorem parse?_eq_none_iff_of_no_origin (hne : rest ≠ []) (h : originText? rest = none) :
    Statement.parse? rest = none ↔
      (∀ m : Mnemonic, sameLetters m.name (splitWord rest).1 = false) ∧
      ∀ bytes, ¬ (sameLetters (splitWord rest).1 ['d', 'c', 'b'] = true ∧
        ListsBytes (squeeze (splitWord rest).2) bytes) := by
  have hlisted : ∀ bytes, dataBytes? (squeeze (splitWord rest).2) = some bytes ↔
      ListsBytes (squeeze (splitWord rest).2) bytes :=
    fun bytes => dataBytes?_eq_some_iff fun c hc => isBlank_of_mem_squeeze hc
  rw [parse?_of_no_origin hne h]
  by_cases hword : sameLetters (splitWord rest).1 ['d', 'c', 'b'] = true
  · rw [if_pos hword, Option.map_eq_none_iff, Option.eq_none_iff_forall_ne_some]
    constructor
    · intro hnone
      refine ⟨fun m => ?_, fun bytes hlist => hnone bytes ((hlisted bytes).mpr hlist.2)⟩
      rw [Bool.eq_false_iff]
      intro hname
      cases hword.symm.trans (Mnemonic.not_data hname)
    · rintro ⟨-, hnone⟩ bytes hbytes
      exact hnone bytes ⟨hword, (hlisted bytes).mp hbytes⟩
  · rw [if_neg hword, Option.map_eq_none_iff, Mnemonic.ofText?_eq_none_iff]
    exact ⟨fun h => ⟨h, fun bytes h => hword h.1⟩, And.left⟩

/-- A rest that cannot be read is not empty, no origin, and starts with no command; or it starts
with the command for data and lists no bytes. -/
theorem parse?_eq_none_iff :
    Statement.parse? rest = none ↔
      rest ≠ [] ∧ (∀ address, ¬ IsOrigin rest address) ∧
      (∀ m : Mnemonic, sameLetters m.name (splitWord rest).1 = false) ∧
      ∀ bytes, ¬ (sameLetters (splitWord rest).1 ['d', 'c', 'b'] = true ∧
        ListsBytes (squeeze (splitWord rest).2) bytes) := by
  by_cases hempty : rest = []
  · subst hempty
    constructor
    · intro h
      cases h
    · exact fun h => absurd rfl h.1
  cases hvalue : originText? rest with
  | some value =>
    -- The star is no part of a word, so the first word is empty and no command.
    have key : ∀ m ∈ Mnemonic.all, sameLetters m.name [] = false := by decide
    rw [parse?_eq_none_iff_of_originText? hvalue, splitWord_of_originText? hvalue]
    constructor
    · intro horigin
      exact ⟨hempty, horigin, fun m => key m m.mem_all, by rintro bytes ⟨⟨⟩, -⟩⟩
    · exact fun h => h.2.1
  | none =>
    rw [parse?_eq_none_iff_of_no_origin hempty hvalue]
    exact ⟨fun h => ⟨hempty, not_isOrigin hvalue, h⟩, fun h => h.2.2⟩

/--
**What is written is read back.**  A label or none, a statement in any form that it can be written
in, and any blanks around them are read as exactly this label and this statement, also if the
operand holds colons and commas.  All statements can be written but for data without bytes and
operands with blanks, and these two are never read.

Every line is laid out as a label or none and a rest.  It is rejected if the rest is not empty, is
no origin, and its first word is neither the name of an instruction nor the command for data with a
list of bytes behind it, and in no other case.  Blanks do not matter to the list.
-/
theorem rendering_reads_back :
    (∀ label s text left right, (∀ name, label = some name → isIdentifier name = true) →
      Renders s text → AllBlank left → AllBlank right →
        Line.parse? (left ++ (label.elim [] (· ++ [':', ' ']) ++ (text ++ right))) =
          some ⟨label, s⟩) ∧
    (∀ s : Statement, s.IsWritable ↔ ∃ text, Renders s text) ∧
    (∀ line label s, Line.parse? line = some ⟨label, s⟩ →
      (∀ name, label = some name → isIdentifier name = true) ∧ s.IsWritable) ∧
    (∀ line, ∃ label rest, LaidOut line label rest) ∧
    ∀ line label rest, LaidOut line label rest →
      (Line.parse? line = none ↔
        rest ≠ [] ∧ (∀ address, ¬ IsOrigin rest address) ∧
        (∀ m : Mnemonic, sameLetters m.name (rest.takeWhile isWordChar) = false) ∧
        ∀ bytes, ¬ (sameLetters (rest.takeWhile isWordChar) ['d', 'c', 'b'] = true ∧
          ListsBytes (squeeze (rest.dropWhile isWordChar)) bytes)) := by
  refine ⟨?_, fun s => isWritable_iff, ?_, exists_laidOut, ?_⟩
  · intro label s text left right hname htext hleft hright
    have hgap : AllBlank [' '] := List.forall_mem_singleton.mpr (by decide)
    obtain ⟨hlabel, hparse⟩ := htext.parse?
    rw [parse?_append hleft hgap hright hname fun _ => hlabel, hparse]
    rfl
  · intro line label s h
    obtain ⟨found, rest, hline⟩ := exists_laidOut line
    rw [hline.parse?_eq] at h
    obtain ⟨statement, hread, heq⟩ := Option.map_eq_some_iff.mp h
    cases heq
    exact ⟨hline.isIdentifier, isWritable_iff.mpr (exists_renders hread)⟩
  · intro line label rest hline
    rw [hline.parse?_eq, Option.map_eq_none_iff]
    exact parse?_eq_none_iff

/-- A list with a zero in front, small and large letters, an empty entry and three bases behind a
label; an operand with a colon and no label; and a label before a word that is no command. -/
theorem rendering_reads_back_mixed_forms :
    Line.parse? "\tloop: dCb $0fF,,%0010,003 ".toList =
      some ⟨some "loop".toList, .data [0xff, 0x02, 0x03]⟩ ∧
    Line.parse? "lda x:,y".toList = some ⟨none, .instruction .lda "x:,y".toList⟩ ∧
    Line.parse? "x: FOO #$01".toList = none := by
  obtain ⟨hread, -, -, -, hrejected⟩ := rendering_reads_back
  have hnothing : AllBlank [] := fun _ hc => absurd hc (List.not_mem_nil)
  have hlist : ListsBytes "$0fF,,%0010,003".toList [0xff, 0x02, 0x03] := by
    refine ⟨by decide, ["$0fF".toList, [], "%0010".toList, "003".toList], rfl, ?_⟩
    refine .byte ⟨['$'], 16, "0fF".toList, by decide, rfl, 1, by decide⟩ (.empty ?_)
    refine .byte ⟨['%'], 2, "0010".toList, by decide, rfl, 2, by decide⟩ ?_
    exact .byte ⟨[], 10, "003".toList, by decide, rfl, 2, by decide⟩ .nil
  have hdata : Renders (.data [0xff, 0x02, 0x03]) "dCb $0fF,,%0010,003".toList :=
    .data (show sameLetters "dCb".toList _ = true by decide) hlist
  have hsolid : ("x:,y".toList.all fun c => !isBlank c) = true := by decide
  have hload : Renders (.instruction .lda "x:,y".toList) "lda x:,y".toList :=
    .instruction (show sameLetters _ "lda".toList = true by decide)
      fun c hc => by simpa using List.all_eq_true.mp hsolid c hc
  refine ⟨?_, hread none _ _ [] [] (by rintro _ ⟨⟩) hload hnothing hnothing, ?_⟩
  · exact hread (some "loop".toList) _ _ ['\t'] [' '] (by rintro _ ⟨⟩; decide) hdata
      (List.forall_mem_singleton.mpr (by decide)) (List.forall_mem_singleton.mpr (by decide))
  · have hline : LaidOut "x: FOO #$01".toList (some ['x']) "FOO #$01".toList := by
      refine ⟨by rintro _ ⟨⟩; decide, by rintro ⟨⟩, by rintro _ ⟨⟩; decide, by rintro _ ⟨⟩; decide,
        [], [' '], [], hnothing, List.forall_mem_singleton.mpr (by decide), hnothing, rfl⟩
    have key : ∀ m ∈ Mnemonic.all,
        sameLetters m.name ("FOO #$01".toList.takeWhile isWordChar) = false := by
      decide
    refine (hrejected _ _ _ hline).mpr ⟨by decide, ?_, fun m => key m m.mem_all, ?_⟩
    · rintro address ⟨_, _, _, _, -, -, -, -, heq⟩
      cases heq
    · rintro bytes ⟨hword, -⟩
      cases hword

end Mos6502
