/-
What listing the labels comes to.

A line can be wrong in three ways, and a line that is wrong in several is reported for one of
them: that its length cannot be told, that its label is the name of a constant, that its label
has been used.  Which one it is can be read off the lines before it (`flaw?`), without the table
that the listing keeps.

What makes this work is that the length of a line is in its text.  The listing sizes lines with
the labels seen so far, at the address reached so far, and neither makes a difference
(`sizeOf?_congr`).  So the three ways to be wrong do not get into each other's way, and the
listing goes through the lines up to the first that is flawed and keeps the labels of those
before it.

The inductions are on the lines from behind: the table behind some lines is the one behind all
but the last, and what the last line adds.
-/
import Mathlib.Data.List.Induction
import Mathlib.Data.List.Nodup
import Mos6502.Assembly.Assembler
import Mos6502.Proofs.Column
import Mos6502.Proofs.Indexing

namespace Mos6502

variable {m : Mnemonic} {labels seen : Labels} {symbols : Symbols} {pc pc' : UInt16} {line : Nat}
  {operand text name : Text} {lines before rest : List Text} {error : LabelError}

/-! ### The length of a line -/

/-- The number of bytes that a line adds. -/
def Effect.length : Effect → Nat
  | .nothing | .origin _ => 0
  | .bytes bs => bs.length

/-- The number of bytes of a line when it is sized, if it can be. -/
def sizeOf? (labels : Labels) (pc : UInt16) (text : Text) : Option Nat :=
  (Line.parse? text).bind fun parsed =>
    (parsed.statement.effect labels .size pc).toOption.map Effect.length

theorem Mnemonic.column?_size_congr (m : Mnemonic) (labels seen : Labels) (pc pc' : UInt16)
    (operand : Text) : m.column? labels .size pc operand = m.column? seen .size pc' operand := by
  simp only [column?, isSome_encodeAs?, Operand.isSome_encode?_size]

theorem Statement.length_instruction (m : Mnemonic) (labels : Labels) (pc : UInt16)
    (operand : Text) :
    ((Statement.instruction m operand).effect labels .size pc).toOption.map Effect.length =
      (m.column? labels .size pc operand).map fun c => (c.mode m).size := by
  rw [effect]
  cases hcolumn : m.column? labels .size pc operand with
  | none =>
    rw [Mnemonic.encode_eq, hcolumn]
    rfl
  | some c =>
    obtain ⟨bytes, hbytes, hlength⟩ := Mnemonic.exists_encode_size hcolumn
    rw [hbytes, Option.map_some, ← hlength]
    rfl

theorem Statement.length_congr (s : Statement) (labels seen : Labels) (pc pc' : UInt16) :
    (s.effect labels .size pc).toOption.map Effect.length =
      (s.effect seen .size pc').toOption.map Effect.length := by
  cases s with
  | empty | origin | data => rfl
  | instruction m operand =>
    rw [length_instruction, length_instruction, m.column?_size_congr labels seen pc pc']

/-- Neither the labels nor the address make a difference to the length of a line. -/
theorem sizeOf?_congr (labels seen : Labels) (pc pc' : UInt16) (text : Text) :
    sizeOf? labels pc text = sizeOf? seen pc' text := by
  unfold sizeOf?
  congr 1
  funext parsed
  exact parsed.statement.length_congr labels seen pc pc'

/-! ### What is wrong with a line -/

/-- The label in front of a line. -/
def labelOf? (text : Text) : Option Text :=
  (Line.parse? text).bind Line.label

theorem exists_effect_of_sized (h : sizeOf? {} 0 text ≠ none) (labels : Labels) (pc : UInt16) :
    ∃ parsed effect, Line.parse? text = some parsed ∧ labelOf? text = parsed.label ∧
      parsed.statement.effect labels .size pc = .ok effect := by
  rw [sizeOf?_congr {} labels 0 pc, sizeOf?] at h
  cases hparse : Line.parse? text with
  | none =>
    rw [hparse] at h
    exact absurd rfl h
  | some parsed =>
    rw [hparse, Option.bind_some] at h
    cases heffect : parsed.statement.effect labels .size pc with
    | error reason =>
      rw [heffect] at h
      exact absurd rfl h
    | ok effect => exact ⟨parsed, effect, rfl, by rw [labelOf?, hparse, Option.bind_some], heffect⟩

/-- What is wrong with a line behind others.  Its length is told by its text, so any labels and
any address will do to ask for it. -/
def Symbols.flaw? (symbols : Symbols) (before : List Text) (text : Text) : Option LabelError :=
  if sizeOf? {} 0 text = none then some (.malformed (before.length + 1) text)
  else
    match labelOf? text with
    | none => none
    | some name =>
      if symbols.contains name then some (.shadowsDefine name (before.length + 1))
      else if name ∈ before.filterMap labelOf? then some (.duplicate name (before.length + 1))
      else none

/-- No line is flawed. -/
def Symbols.Flawless (symbols : Symbols) (lines : List Text) : Prop :=
  ∀ before text rest, lines = before ++ text :: rest → symbols.flaw? before text = none

theorem Symbols.line_of_flaw? (h : symbols.flaw? before text = some error) :
    error.line = before.length + 1 := by
  unfold flaw? at h
  split at h
  · cases h
    rfl
  · split at h
    · cases h
    · split at h
      · cases h
        rfl
      · split at h
        · cases h
          rfl
        · cases h

theorem Symbols.flawless_nil (symbols : Symbols) : symbols.Flawless [] := by
  intro before text rest h
  simp at h

theorem Symbols.flawless_concat_iff :
    symbols.Flawless (lines ++ [text]) ↔
      symbols.Flawless lines ∧ symbols.flaw? lines text = none := by
  constructor
  · intro h
    refine ⟨?_, h lines text [] rfl⟩
    rintro before found rest rfl
    exact h before found (rest ++ [text]) (by simp)
  · rintro ⟨hlines, hlast⟩ before found rest h
    rcases List.eq_nil_or_concat rest with rfl | ⟨rest, last, rfl⟩
    · obtain ⟨rfl, heq⟩ := List.append_inj' h rfl
      cases heq
      exact hlast
    · rw [List.concat_eq_append, ← List.cons_append, ← List.append_assoc] at h
      exact hlines before found rest (List.append_inj' h rfl).1

/-- Either no line is flawed or there is a first that is. -/
theorem Symbols.flawless_or_first (symbols : Symbols) (lines : List Text) :
    symbols.Flawless lines ∨
      ∃ before text rest error, lines = before ++ text :: rest ∧ symbols.Flawless before ∧
        symbols.flaw? before text = some error := by
  induction lines using List.reverseRecOn with
  | nil => exact Or.inl symbols.flawless_nil
  | append_singleton lines text ih =>
    rcases ih with hlines | ⟨before, first, rest, error, rfl, hbefore, hfirst⟩
    · cases hlast : symbols.flaw? lines text with
      | none => exact Or.inl (flawless_concat_iff.mpr ⟨hlines, hlast⟩)
      | some error => exact Or.inr ⟨lines, text, [], error, rfl, hlines, hlast⟩
    · exact Or.inr ⟨before, first, rest ++ [text], error, by simp, hbefore, hfirst⟩

/-! ### The table behind some lines -/

/-- The labels of lines with the numbers of their lines, counted from one. -/
def labelled (lines : List Text) : List (Text × Nat) :=
  (lines.zipIdx 1).filterMap fun line => (labelOf? line.1).map fun name => (name, line.2)

theorem labelled_concat (lines : List Text) (text : Text) :
    labelled (lines ++ [text]) =
      labelled lines ++ ((labelOf? text).map fun name => (name, lines.length + 1)).toList := by
  rw [labelled, List.zipIdx_append, List.filterMap_append, Nat.add_comm]
  simp only [List.zipIdx_singleton, List.filterMap_cons, List.filterMap_nil]
  cases labelOf? text <;> rfl

theorem filterMap_labelOf?_concat (lines : List Text) (text : Text) :
    (lines ++ [text]).filterMap labelOf? = lines.filterMap labelOf? ++ (labelOf? text).toList := by
  rw [List.filterMap_append, List.filterMap_cons, List.filterMap_nil]
  cases labelOf? text <;> rfl

theorem map_fst_labelled (lines : List Text) :
    (labelled lines).map Prod.fst = lines.filterMap labelOf? := by
  induction lines using List.reverseRecOn with
  | nil => rfl
  | append_singleton lines text ih =>
    rw [labelled_concat, filterMap_labelOf?_concat, List.map_append, ih]
    cases labelOf? text <;> rfl

namespace Labels

/-- The names in a table with the numbers of their lines. -/
def listed (labels : Labels) : List (Text × Nat) :=
  labels.entries.map fun label => (label.name, label.line)

theorem listed_add (labels : Labels) (label : Label) :
    (labels.add label).listed = labels.listed ++ [(label.name, label.line)] := by
  rw [listed, add, List.map_append]
  rfl

theorem contains_iff :
    labels.contains name = true ↔ name ∈ labels.listed.map Prod.fst := by
  rw [contains, find?, List.find?_isSome, listed, List.map_map, List.mem_map]
  simp

theorem indexLine_of_unsized (h : sizeOf? {} 0 text = none) (symbols : Symbols) (labels : Labels)
    (pc : UInt16) (line : Nat) :
    indexLine symbols labels pc line text = .error (.malformed line text) := by
  rw [sizeOf?_congr {} labels 0 pc, sizeOf?] at h
  unfold indexLine
  cases hparse : Line.parse? text with
  | none => rfl
  | some parsed =>
    rw [hparse, Option.bind_some] at h
    cases heffect : parsed.statement.effect labels .size pc with
    | error reason => simp only [heffect]
    | ok effect =>
      rw [heffect] at h
      cases h

theorem indexLine_of_sized (h : sizeOf? {} 0 text ≠ none) (symbols : Symbols) (labels : Labels)
    (pc : UInt16) (line : Nat) :
    ∃ pc', indexLine symbols labels pc line text =
      (labels.define symbols (labelOf? text) pc line).map fun labels => (labels, pc') := by
  obtain ⟨parsed, effect, hparse, hlabel, heffect⟩ := exists_effect_of_sized h labels pc
  refine ⟨effect.next pc, ?_⟩
  simp only [indexLine, hparse, heffect, hlabel]

/-- With the labels of the lines before in the table, a label is refused for what is wrong
with it. -/
theorem flaw?_of_sized (h : sizeOf? {} 0 text ≠ none) (hlisted : labels.listed = labelled before)
    (symbols : Symbols) :
    symbols.flaw? before text =
      (labelOf? text).bind fun name => labels.refuse? symbols name (before.length + 1) := by
  rw [Symbols.flaw?, if_neg h]
  cases labelOf? text with
  | none => rfl
  | some name =>
    simp only [Option.bind_some, refuse?, contains_iff, hlisted, map_fst_labelled]

/-- A line is refused for what is wrong with it. -/
theorem indexLine_of_flaw (hlisted : labels.listed = labelled before)
    (h : symbols.flaw? before text = some error) (pc : UInt16) :
    indexLine symbols labels pc (before.length + 1) text = .error error := by
  by_cases hsize : sizeOf? {} 0 text = none
  · rw [Symbols.flaw?, if_pos hsize] at h
    cases h
    exact indexLine_of_unsized hsize symbols labels pc _
  · obtain ⟨pc', hline⟩ := indexLine_of_sized hsize symbols labels pc (before.length + 1)
    rw [flaw?_of_sized hsize hlisted] at h
    obtain ⟨name, hname, hrefuse⟩ := Option.bind_eq_some_iff.mp h
    rw [hline, hname, define, hrefuse]
    rfl

/-- A line without a flaw adds its label. -/
theorem indexLine_of_flawless (hlisted : labels.listed = labelled before)
    (h : symbols.flaw? before text = none) (pc : UInt16) :
    ∃ seen pc', indexLine symbols labels pc (before.length + 1) text = .ok (seen, pc') ∧
      seen.listed = labelled (before ++ [text]) := by
  have hsize : sizeOf? {} 0 text ≠ none := by
    intro hsize
    rw [Symbols.flaw?, if_pos hsize] at h
    cases h
  obtain ⟨pc', hline⟩ := indexLine_of_sized hsize symbols labels pc (before.length + 1)
  rw [flaw?_of_sized hsize hlisted] at h
  rw [labelled_concat, hline, ← hlisted]
  cases hname : labelOf? text with
  | none => exact ⟨labels, pc', rfl, (List.append_nil _).symm⟩
  | some name =>
    rw [hname, Option.bind_some] at h
    refine ⟨labels.add ⟨name, pc, before.length + 1⟩, pc', ?_, listed_add labels _⟩
    rw [define, h]
    rfl

/-! ### The whole listing -/

theorem after_concat (h : after symbols labels pc line before = .ok (seen, pc')) (text : Text) :
    after symbols labels pc line (before ++ [text]) =
      indexLine symbols seen pc' (line + before.length) text := by
  induction before generalizing labels pc line with
  | nil =>
    cases h
    rw [List.nil_append, after, List.length_nil, Nat.add_zero]
    cases indexLine symbols seen pc' line text <;> rfl
  | cons first before ih =>
    obtain ⟨_, _, hline, hbefore⟩ := after_cons h
    rw [List.cons_append, after, hline, List.length_cons, Nat.add_comm before.length 1,
      ← Nat.add_assoc]
    exact ih hbefore

/-- Behind lines without a flaw the table holds their labels. -/
theorem exists_after_of_flawless (h : symbols.Flawless before) (pc : UInt16) :
    ∃ seen pc', after symbols {} pc 1 before = .ok (seen, pc') ∧
      seen.listed = labelled before := by
  induction before using List.reverseRecOn with
  | nil => exact ⟨{}, pc, rfl, rfl⟩
  | append_singleton before text ih =>
    obtain ⟨hbefore, htext⟩ := Symbols.flawless_concat_iff.mp h
    obtain ⟨seen, reached, hafter, hlisted⟩ := ih hbefore
    obtain ⟨final, pc', hline, hfinal⟩ := indexLine_of_flawless hlisted htext reached
    refine ⟨final, pc', ?_, hfinal⟩
    rw [after_concat hafter, Nat.add_comm, hline]

theorem indexFrom_of_flawless (h : symbols.Flawless lines) (pc : UInt16) :
    ∃ final, indexFrom symbols {} pc 1 lines = (final, none) ∧ final.listed = labelled lines := by
  obtain ⟨final, pc', hafter, hlisted⟩ := exists_after_of_flawless h pc
  refine ⟨final, ?_, hlisted⟩
  rw [← List.append_nil lines, indexFrom_append hafter, indexFrom]

theorem indexFrom_of_flaw (hbefore : symbols.Flawless before)
    (h : symbols.flaw? before text = some error) (rest : List Text) (pc : UInt16) :
    ∃ final, indexFrom symbols {} pc 1 (before ++ text :: rest) = (final, some error) ∧
      final.listed = labelled before := by
  obtain ⟨final, pc', hafter, hlisted⟩ := exists_after_of_flawless hbefore pc
  refine ⟨final, ?_, hlisted⟩
  rw [indexFrom_append hafter, indexFrom, Nat.add_comm, indexLine_of_flaw hlisted h]

/-! ### What the table is like -/

theorem size_eq_of_listed (h : labels.listed = labelled lines) :
    labels.size = (lines.filterMap labelOf?).length := by
  rw [size, ← map_fst_labelled, ← h, List.length_map, listed, List.length_map]

end Labels

/-- Lines are numbered upwards. -/
theorem pairwise_labelled (lines : List Text) :
    ((labelled lines).map Prod.snd).Pairwise (· < ·) := by
  have hbound : ∀ lines : List Text, ∀ n ∈ (labelled lines).map Prod.snd, n ≤ lines.length := by
    intro lines n hn
    obtain ⟨⟨name, n⟩, hmem, rfl⟩ := List.mem_map.mp hn
    obtain ⟨⟨text, k⟩, hk, hname⟩ := List.mem_filterMap.mp hmem
    obtain ⟨_, -, heq⟩ := Option.map_eq_some_iff.mp hname
    cases heq
    have hlt : k < 1 + lines.length := List.snd_lt_add_of_mem_zipIdx hk
    exact Nat.lt_one_add_iff.mp hlt
  induction lines using List.reverseRecOn with
  | nil => exact .nil
  | append_singleton lines text ih =>
    rw [labelled_concat, List.map_append, List.pairwise_append]
    refine ⟨ih, ?_, ?_⟩
    · cases labelOf? text <;> simp
    · intro n hn last hlast
      cases hname : labelOf? text with
      | none => simp [hname] at hlast
      | some name =>
        have hlast : last = lines.length + 1 := by simpa [hname] using hlast
        rw [hlast]
        exact Nat.lt_succ_of_le (hbound lines n hn)

namespace Symbols

/-- A label of a line without a flaw is neither a constant nor the label of a line before. -/
theorem free_of_flaw? (h : symbols.flaw? before text = none) (hname : labelOf? text = some name) :
    symbols.contains name = false ∧ name ∉ before.filterMap labelOf? := by
  unfold flaw? at h
  split at h
  · cases h
  · simp only [hname] at h
    by_cases hconstant : symbols.contains name = true
    · rw [if_pos hconstant] at h
      cases h
    · rw [if_neg hconstant] at h
      by_cases hused : name ∈ before.filterMap labelOf?
      · rw [if_pos hused] at h
        cases h
      · exact ⟨by simpa using hconstant, hused⟩

theorem Flawless.names (h : symbols.Flawless lines) :
    (lines.filterMap labelOf?).Nodup ∧
      ∀ name ∈ lines.filterMap labelOf?, symbols.contains name = false := by
  induction lines using List.reverseRecOn with
  | nil => simp
  | append_singleton lines text ih =>
    obtain ⟨hlines, htext⟩ := flawless_concat_iff.mp h
    obtain ⟨hnodup, hfree⟩ := ih hlines
    rw [filterMap_labelOf?_concat]
    cases hname : labelOf? text with
    | none =>
      rw [Option.toList_none, List.append_nil]
      exact ⟨hnodup, hfree⟩
    | some name =>
      obtain ⟨hconstant, hnew⟩ := free_of_flaw? htext hname
      refine ⟨List.nodup_append.mpr ⟨hnodup, List.nodup_singleton name, ?_⟩, ?_⟩
      · intro earlier hearlier last hlast
        rw [List.mem_singleton.mp hlast]
        rintro rfl
        exact hnew hearlier
      · intro found hfound
        rcases List.mem_append.mp hfound with hearlier | hlast
        · exact hfree found hearlier
        · rw [List.mem_singleton.mp hlast]
          exact hconstant

end Symbols

namespace Labels

theorem relist_of_flawless (prior : Labels) {source : Prepared}
    (h : source.symbols.Flawless source.lines) :
    ∃ final, prior.relist source = (final, .ok (source.lines.filterMap labelOf?).length) ∧
      final.listed = labelled source.lines := by
  obtain ⟨final, hindex, hlisted⟩ := indexFrom_of_flawless h startAddress
  refine ⟨final, ?_, hlisted⟩
  rw [relist, reset, hindex, ← size_eq_of_listed hlisted]

theorem relist_of_flaw (prior : Labels) {source : Prepared}
    (hlines : source.lines = before ++ text :: rest) (hbefore : source.symbols.Flawless before)
    (h : source.symbols.flaw? before text = some error) :
    ∃ final, prior.relist source = (final, .error error) ∧ final.listed = labelled before := by
  obtain ⟨final, hindex, hlisted⟩ := indexFrom_of_flaw hbefore h rest startAddress
  refine ⟨final, ?_, hlisted⟩
  rw [relist, reset, hlines, hindex]

/-- The labels of lines without a flaw are told apart by their names and by their lines. -/
theorem table_of_flawless (h : symbols.Flawless lines) (hlisted : labels.listed = labelled lines) :
    (labels.listed.map Prod.fst).Nodup ∧
      (∀ name ∈ labels.listed.map Prod.fst, symbols.contains name = false) ∧
      (labels.listed.map Prod.snd).Pairwise (· < ·) := by
  obtain ⟨hnodup, hfree⟩ := h.names
  rw [hlisted, map_fst_labelled]
  exact ⟨hnodup, hfree, pairwise_labelled lines⟩

/--
**Listing the labels is exact.**  Whatever the table held before, either no line is flawed, and
the answer is the number of labelled lines, or there is a first line that is, and the answer is
what is wrong with it: that it cannot be read or sized, or else that its label is the name of a
constant, or else that a line before has the label.  The table then holds the labels of all lines
or of those before the flawed one, in the order of the lines and with their numbers.  In it no
name occurs twice and none is the name of a constant, and the lines are numbered upwards.  And
whether a line can be sized, and how long it is, depends on neither the labels nor the address.
-/
theorem relist_exact (prior : Labels) (source : Prepared) :
    (source.symbols.Flawless source.lines ∧
        (∃ final, prior.relist source = (final, .ok (source.lines.filterMap labelOf?).length) ∧
          final.listed = labelled source.lines) ∨
      ∃ before text rest error, source.lines = before ++ text :: rest ∧
        source.symbols.Flawless before ∧ source.symbols.flaw? before text = some error ∧
        error.line = before.length + 1 ∧
        ∃ final, prior.relist source = (final, .error error) ∧ final.listed = labelled before) ∧
    (((prior.relist source).1.listed.map Prod.fst).Nodup ∧
      (∀ name ∈ (prior.relist source).1.listed.map Prod.fst,
        source.symbols.contains name = false) ∧
      ((prior.relist source).1.listed.map Prod.snd).Pairwise (· < ·)) ∧
    ∀ text labels seen pc pc', sizeOf? labels pc text = sizeOf? seen pc' text := by
  have hsize : ∀ text labels seen pc pc', sizeOf? labels pc text = sizeOf? seen pc' text := by
    intro text labels seen pc pc'
    exact sizeOf?_congr labels seen pc pc' text
  rcases source.symbols.flawless_or_first source.lines with hlines |
    ⟨before, text, rest, error, hlines, hbefore, hflaw⟩
  · obtain ⟨final, hrelist, hlisted⟩ := relist_of_flawless prior hlines
    rw [hrelist]
    exact ⟨Or.inl ⟨hlines, final, rfl, hlisted⟩, table_of_flawless hlines hlisted, hsize⟩
  · obtain ⟨final, hrelist, hlisted⟩ := relist_of_flaw prior hlines hbefore hflaw
    rw [hrelist]
    exact ⟨Or.inr ⟨before, text, rest, error, hlines, hbefore, hflaw,
      Symbols.line_of_flaw? hflaw, final, rfl, hlisted⟩, table_of_flawless hbefore hlisted, hsize⟩

end Labels

end Mos6502
