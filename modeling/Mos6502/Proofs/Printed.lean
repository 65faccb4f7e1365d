/-
What the assembler makes of printed lines.

Few characters are printed: capitals, the small letters among the hexadecimal digits, and
the signs that operands are written with.  None of them is blank, starts a comment, ends a
label or ends a line.  So of all that is done to a source text before its lines are read,
nothing changes a printed line, and the one blank in it separates the command from the
operand.

Printed numbers have a fixed number of digits, which is what their width is read from: a
byte is read in zero-page width and a word is not, whatever its value.
-/
import Mathlib.Data.List.Basic
import Mathlib.Data.List.TakeWhile
import Mos6502.Disassembly.Listing
import Mos6502.Proofs.Operand
import Mos6502.Proofs.Substitution

namespace Mos6502

/-! ### Printed characters -/

/-- The characters of printed commands and operands. -/
def printedChars : Text :=
  (List.range 26).map (fun n => Char.ofNat (65 + n)) ++ (List.range 16).map hexDigit ++
    ['$', '#', '(', ')', ',', '*', '=']

/-- A text of printed characters. -/
def Printed (text : Text) : Prop :=
  ∀ c ∈ text, c ∈ printedChars

variable {text command operand : Text} {c : Char}

theorem printed_nil : Printed [] := by
  intro c hc
  exact absurd hc (List.not_mem_nil)

theorem printed_cons : Printed (c :: text) ↔ c ∈ printedChars ∧ Printed text :=
  List.forall_mem_cons

theorem printed_append {a b : Text} : Printed (a ++ b) ↔ Printed a ∧ Printed b :=
  List.forall_mem_append

/-- A closed text is checked character by character. -/
theorem printed_of_all (h : text.all printedChars.contains = true) : Printed text := by
  intro c hc
  exact List.contains_iff_mem.mp (List.all_eq_true.mp h c hc)

theorem Printed.isBlank (h : Printed text) : ∀ c ∈ text, isBlank c = false := by
  have key : printedChars.all (fun c => !Mos6502.isBlank c) = true := by decide
  intro c hc
  simpa using List.all_eq_true.mp key c (h c hc)

theorem hexDigit_mem_printedChars : ∀ n < 16, hexDigit n ∈ printedChars := by
  decide

theorem printed_dollarByte (b : UInt8) : Printed (Instruction.dollarByte b) := by
  have hb := b.toNat_lt
  simp only [Instruction.dollarByte, hexByte, printed_cons]
  exact ⟨by decide, hexDigit_mem_printedChars _ (by omega),
    hexDigit_mem_printedChars _ (by omega), printed_nil⟩

theorem printed_dollarWord (w : UInt16) : Printed (Instruction.dollarWord w) := by
  have hw := w.toNat_lt
  simp only [Instruction.dollarWord, hexWord, printed_cons]
  exact ⟨by decide, hexDigit_mem_printedChars _ (by omega),
    hexDigit_mem_printedChars _ (by omega), hexDigit_mem_printedChars _ (by omega),
    hexDigit_mem_printedChars _ (by omega), printed_nil⟩

theorem printed_dataName : Printed ['D', 'C', 'B'] :=
  printed_of_all (by decide)

theorem Instruction.printed_name (i : Instruction) : Printed i.name := by
  have key : ∀ m ∈ Mnemonic.all, m.name.all printedChars.contains = true := by decide
  unfold name
  split
  · exact printed_of_all (key _ (Mnemonic.mem_all _))
  · exact printed_dataName

theorem Instruction.printed_operandText (i : Instruction) : Printed i.operandText := by
  have hsigns : Printed ['A', 'X', 'Y', '#', ',', '(', ')'] := printed_of_all (by decide)
  simp only [printed_cons] at hsigns
  unfold operandText
  split
  · exact printed_dollarByte _
  · split <;>
      simp [printed_cons, printed_append, printed_dollarByte, printed_dollarWord, hsigns]

/-! ### Lines that are left alone -/

theorem trim_eq_self (hfirst : ∀ c, text.head? = some c → isBlank c = false)
    (hlast : ∀ c, text.getLast? = some c → isBlank c = false) : trim text = text := by
  rw [trim, trimLeft_eq_self hfirst, trimRight]
  rw [← List.head?_reverse] at hlast
  cases hreverse : text.reverse with
  | nil => rw [List.dropWhile_nil, ← hreverse, List.reverse_reverse]
  | cons c rest =>
    rw [hreverse] at hlast
    rw [List.dropWhile_cons_of_neg (by simp [hlast c rfl]), ← hreverse, List.reverse_reverse]

theorem trim_of_solid (h : ∀ c ∈ text, isBlank c = false) : trim text = text :=
  trim_eq_self (fun c hc => h c (List.mem_of_head? hc)) fun c hc => h c (List.mem_of_getLast? hc)

/-- A command and its operand, with a blank between them if there is an operand. -/
def layOut (command operand : Text) : Text :=
  if operand = [] then command else command ++ ' ' :: operand

theorem layOut_eq (command operand : Text) :
    layOut command operand = command ++ if operand = [] then [] else ' ' :: operand := by
  unfold layOut
  split <;> simp

theorem notMem_layOut (hcommand : Printed command) (hoperand : Printed operand)
    (hc : c ∉ ' ' :: printedChars) : c ∉ layOut command operand := by
  rw [List.mem_cons, not_or] at hc
  intro hmem
  rw [layOut_eq, List.mem_append] at hmem
  rcases hmem with hmem | hmem
  · exact hc.2 (hcommand c hmem)
  · split at hmem
    · exact absurd hmem (List.not_mem_nil)
    · rcases List.mem_cons.mp hmem with hblank | hmem
      · exact hc.1 hblank
      · exact hc.2 (hoperand c hmem)

theorem trim_layOut (hcommand : Printed command) (hne : command ≠ [])
    (hoperand : Printed operand) : trim (layOut command operand) = layOut command operand := by
  apply trim_eq_self
  · intro c hc
    refine hcommand.isBlank c ?_
    rw [layOut_eq, List.head?_append_of_ne_nil _ hne] at hc
    exact List.mem_of_head? hc
  · intro c hc
    unfold layOut at hc
    split at hc
    · exact hcommand.isBlank c (List.mem_of_getLast? hc)
    · rename_i hsome
      rw [List.getLast?_append_of_ne_nil _ (List.cons_ne_nil _ _),
        List.getLast?_cons_of_ne_nil hsome] at hc
      exact hoperand.isBlank c (List.mem_of_getLast? hc)

theorem code_layOut (hcommand : Printed command) (hne : command ≠ [])
    (hoperand : Printed operand) : code (layOut command operand) = layOut command operand := by
  have hcomment : ';' ∉ layOut command operand := notMem_layOut hcommand hoperand (by decide)
  rw [code, List.takeWhile_eq_self_iff.mpr, trim_layOut hcommand hne hoperand]
  intro c hc
  simpa using fun h : c = ';' => hcomment (h ▸ hc)

/-- A printed line is no definition if its command is not as long as the keyword. -/
theorem definition?_layOut (hcommand : Printed command) (hlength : command.length ≠ 6) :
    definition? (layOut command operand) = none := by
  have hkeyword : (layOut command operand).takeWhile (fun c => !isBlank c) = command := by
    rw [layOut_eq, List.takeWhile_append_of_pos (by simpa using hcommand.isBlank)]
    split
    · simp
    · rw [List.takeWhile_cons_of_neg (by decide), List.append_nil]
  have hsame : sameLetters command ['d', 'e', 'f', 'i', 'n', 'e'] = false := by
    rw [Bool.eq_false_iff]
    intro h
    have := congrArg List.length (beq_iff_eq.mp h)
    simp at this
    exact hlength this
  unfold definition?
  simp only [hkeyword, hsame]
  simp

theorem inLine_empty (line : Text) : Symbols.inLine {} line = line := by
  have hfree : ∀ name, Symbols.contains {} name = false := fun _ => rfl
  rw [Symbols.inLine, Symbols.inOperand_of_free fun token _ => hfree token, splitHead_append]

/-! ### Printed numbers -/

theorem digitValue_hexDigit : ∀ n < 16, digitValue (hexDigit n) = n := by
  decide

theorem isDigitOf_hexDigit {n : Nat} (h : n < 16) : isDigitOf 16 (hexDigit n) = true := by
  rw [isDigitOf, digitValue_hexDigit n h]
  exact decide_eq_true h

theorem word?_hexByte (b : UInt8) : word? 16 (hexByte b) = some b.toUInt16 := by
  have hb := b.toNat_lt
  have hhigh : b.toNat / 16 < 16 := by omega
  have hlow : b.toNat % 16 < 16 := by omega
  refine word?_eq_some_iff.mpr ⟨List.cons_ne_nil _ _, ?_, ?_⟩
  · simp [hexByte, isDigitOf_hexDigit hhigh, isDigitOf_hexDigit hlow]
  · simp only [denoted, hexByte, List.foldl_cons, List.foldl_nil, digitValue_hexDigit _ hhigh,
      digitValue_hexDigit _ hlow, UInt8.toNat_toUInt16]
    omega

theorem word?_hexWord (w : UInt16) : word? 16 (hexWord w) = some w := by
  have hw := w.toNat_lt
  have h3 : w.toNat / 4096 < 16 := by omega
  have h2 : w.toNat / 256 % 16 < 16 := by omega
  have h1 : w.toNat / 16 % 16 < 16 := by omega
  have h0 : w.toNat % 16 < 16 := by omega
  refine word?_eq_some_iff.mpr ⟨List.cons_ne_nil _ _, ?_, ?_⟩
  · simp [hexWord, isDigitOf_hexDigit h3, isDigitOf_hexDigit h2, isDigitOf_hexDigit h1,
      isDigitOf_hexDigit h0]
  · simp only [denoted, hexWord, List.foldl_cons, List.foldl_nil, digitValue_hexDigit _ h3,
      digitValue_hexDigit _ h2, digitValue_hexDigit _ h1, digitValue_hexDigit _ h0]
    omega

/-- A printed byte is read in zero-page width. -/
theorem parse?_dollarByte (b : UInt8) :
    Literal.parse? (Instruction.dollarByte b) = some ⟨b.toUInt16, true⟩ := by
  rw [Instruction.dollarByte, Literal.parse?, word?_hexByte]
  rfl

/-- A printed word is not, even if its value is small. -/
theorem parse?_dollarWord (w : UInt16) :
    Literal.parse? (Instruction.dollarWord w) = some ⟨w, false⟩ := by
  rw [Instruction.dollarWord, Literal.parse?, word?_hexWord]
  rfl

theorem byte?_toUInt16 (b : UInt8) (short : Bool) :
    Literal.byte? ⟨b.toUInt16, short⟩ = some b := by
  have hb := b.toNat_lt
  have hle : b.toUInt16 ≤ 0xff := by
    rw [UInt16.le_iff_toNat_le, UInt8.toNat_toUInt16]
    exact Nat.le_of_lt_succ hb
  rw [Literal.byte?, if_pos hle, UInt8.toUInt8_toUInt16]

theorem short?_dollarByte (b : UInt8) : Operand.short? (Instruction.dollarByte b) = some b := by
  rw [Operand.short?, parse?_dollarByte]
  exact byte?_toUInt16 b true

theorem short?_dollarWord (w : UInt16) : Operand.short? (Instruction.dollarWord w) = none := by
  rw [Operand.short?, parse?_dollarWord]
  rfl

theorem address?_dollarWord (labels : Labels) (pass : Pass) (w : UInt16) :
    Operand.address? labels pass (Instruction.dollarWord w) = some w := by
  simp [Operand.address?, parse?_dollarWord]

/-! ### Reading printed lines -/

theorem splitLabel?_of_notMem {line : Text} (h : ':' ∉ line) : splitLabel? line = none := by
  have hnone : line.dropWhile (· != ':') = [] := by
    rw [List.dropWhile_eq_nil_iff]
    intro c hc
    simpa using fun heq : c = ':' => h (heq ▸ hc)
  rw [splitLabel?, hnone]

/-- A printed line is read as its command and its operand. -/
theorem parse?_layOut (hcommand : Printed command) (hne : command ≠ [])
    (hword : ∀ c ∈ command, isWordChar c = true) (hoperand : Printed operand) :
    Line.parse? (layOut command operand) =
      (if sameLetters command ['d', 'c', 'b'] then (dataBytes? operand).map Statement.data
        else (Mnemonic.ofText? command).map fun m => .instruction m operand).map
          fun s => ⟨none, s⟩ := by
  have hends : EndsWord (if operand = [] then [] else ' ' :: operand) := by
    intro c hc
    split at hc
    · cases hc
    · obtain rfl := Option.some.inj hc
      decide
  have hsqueeze : squeeze (if operand = [] then [] else ' ' :: operand) = operand := by
    have hsolid : squeeze operand = operand :=
      List.filter_eq_self.mpr fun c hc => by simp [hoperand.isBlank c hc]
    split
    · rename_i hempty
      rw [hempty]
      rfl
    · exact hsolid
  simp only [Line.parse?, trim_layOut hcommand hne hoperand]
  rw [layOut_eq, hends.splitLabel?_append hword]
  simp only [hends.parse?_append hword hne, hsqueeze]

theorem ofText?_name (m : Mnemonic) : Mnemonic.ofText? m.name = some m := by
  cases m <;> rfl

theorem parse?_instruction (m : Mnemonic) (hoperand : Printed operand) :
    Line.parse? (layOut m.name operand) = some ⟨none, .instruction m operand⟩ := by
  have hprinted : Printed m.name := Instruction.printed_name ⟨0, 0, some ⟨m, .implicit⟩, []⟩
  have key : ∀ m ∈ Mnemonic.all, m.name ≠ [] ∧ m.name.all isWordChar = true ∧
      sameLetters m.name ['d', 'c', 'b'] = false := by
    decide
  obtain ⟨hne, hword, hcommand⟩ := key m m.mem_all
  rw [parse?_layOut hprinted hne (List.all_eq_true.mp hword) hoperand, hcommand, ofText?_name]
  rfl

theorem Printed.trim_eq (h : Printed text) : trim text = text :=
  trim_of_solid h.isBlank

theorem parse?_data (b : UInt8) :
    Line.parse? (layOut ['D', 'C', 'B'] (Instruction.dollarByte b)) =
      some ⟨none, .data [b]⟩ := by
  have hcomma : ',' ∉ Instruction.dollarByte b := by
    intro h
    exact absurd (isAtomChar_of_parse? (parse?_dollarByte b) _ h) (by decide)
  have hbytes : dataBytes? (Instruction.dollarByte b) = some [b] := by
    have hentries : ((pieces ',' (Instruction.dollarByte b)).map trim).filter (· ≠ []) =
        [Instruction.dollarByte b] := by
      rw [pieces_of_not_mem hcomma, List.map_singleton, (printed_dollarByte b).trim_eq]
      rfl
    rw [dataBytes?, hentries]
    simp [parse?_dollarByte, byte?_toUInt16]
  have hword : ['D', 'C', 'B'].all isWordChar = true := by decide
  rw [parse?_layOut printed_dataName (List.cons_ne_nil _ _) (List.all_eq_true.mp hword)
    (printed_dollarByte b), hbytes]
  rfl

/-- A line that sets the address. -/
def originLine (address : UInt16) : Text :=
  '*' :: '=' :: Instruction.dollarWord address

theorem printed_originLine (address : UInt16) : Printed (originLine address) := by
  simp only [originLine, printed_cons]
  exact ⟨by decide, by decide, printed_dollarWord address⟩

theorem parse?_originLine (address : UInt16) :
    Line.parse? (originLine address) = some ⟨none, .origin address⟩ := by
  have hlabel : splitLabel? (originLine address) = none := by
    refine splitLabel?_of_notMem fun h => ?_
    exact absurd (printed_originLine address _ h) (by decide)
  have htext : originText? (originLine address) = some (Instruction.dollarWord address) := by
    have hsign : isBlank '=' = false := by decide
    simp only [originText?, originLine, trimLeft_cons_of_not_blank hsign,
      (printed_dollarWord address).trim_eq]
  have haddress : originAddress? (Instruction.dollarWord address) = some address :=
    word?_hexWord address
  simp only [Line.parse?, (printed_originLine address).trim_eq, hlabel, Statement.parse?, htext,
    haddress]
  rfl

/-! ### A source text of printed lines -/

/-- A line of a printed command and a printed operand.  Its command is not as long as the
keyword of a definition. -/
inductive PrintedLine : Text → Prop
  | mk (command operand : Text) (hcommand : Printed command) (hne : command ≠ [])
      (hlength : command.length ≠ 6) (hoperand : Printed operand) :
      PrintedLine (layOut command operand)

namespace PrintedLine

variable {line : Text}

theorem ne_nil (h : PrintedLine line) : line ≠ [] := by
  obtain ⟨command, operand, -, hne, -, -⟩ := h
  rw [layOut_eq]
  simp [hne]

theorem notMem_lineFeed (h : PrintedLine line) : '\n' ∉ line := by
  obtain ⟨command, operand, hcommand, -, -, hoperand⟩ := h
  exact notMem_layOut hcommand hoperand (by decide)

theorem notMem_return (h : PrintedLine line) : '\r' ∉ line := by
  obtain ⟨command, operand, hcommand, -, -, hoperand⟩ := h
  exact notMem_layOut hcommand hoperand (by decide)

theorem code_eq (h : PrintedLine line) : code line = line := by
  obtain ⟨command, operand, hcommand, hne, -, hoperand⟩ := h
  exact code_layOut hcommand hne hoperand

theorem definition?_eq (h : PrintedLine line) : definition? line = none := by
  obtain ⟨command, operand, hcommand, -, hlength, -⟩ := h
  exact definition?_layOut hcommand hlength

end PrintedLine

theorem splitLines_joinWith {lines : List Text} (hne : lines ≠ [])
    (h : ∀ line ∈ lines, PrintedLine line) : splitLines (joinWith ['\n'] lines) = lines := by
  obtain ⟨ended, last, rfl⟩ := lines.eq_nil_or_concat'.resolve_left hne
  have hpieces := pieces_joinWith hne fun line hline => (h line hline).notMem_lineFeed
  have hkept : ended.map dropReturn = ended := by
    refine (List.map_congr_left fun line hline => ?_).trans ended.map_id'
    exact dropReturn_of_not_mem (h line (List.mem_append_left _ hline)).notMem_return
  rw [splitLines_of_pieces hpieces, hkept, if_neg (h last (by simp)).ne_nil]

/-- A source text of printed lines is assembled as it stands. -/
theorem prepared_of_splitLines {source : Text} {lines : List Text}
    (hlines : splitLines source = lines) (h : ∀ line ∈ lines, PrintedLine line) :
    Prepared.ofText source = ⟨lines, {}⟩ := by
  have hcode : lines.map code = lines :=
    (List.map_congr_left fun line hline => (h line hline).code_eq).trans lines.map_id'
  have hsymbols : Symbols.ofLines lines = {} := by
    rw [Symbols.ofLines,
      List.filterMap_eq_nil_iff.mpr fun line hline => (h line hline).definition?_eq]
    rfl
  have hkept : (lines.map fun line =>
      if (definition? line).isSome then [] else Symbols.inLine {} line) = lines := by
    refine (List.map_congr_left fun line hline => ?_).trans lines.map_id'
    rw [(h line hline).definition?_eq, inLine_empty]
    rfl
  unfold Prepared.ofText
  simp only [hlines, hcode, hsymbols, hkept]

theorem prepared_joinWith {lines : List Text} (hne : lines ≠ [])
    (h : ∀ line ∈ lines, PrintedLine line) :
    Prepared.ofText (joinWith ['\n'] lines) = ⟨lines, {}⟩ :=
  prepared_of_splitLines (splitLines_joinWith hne h) h

end Mos6502
