/-
Why an assembly fails, and what it leaves behind then.

Where the labels could be listed, every line was sized, so it makes sense and its operand has
a form that the instruction allows.  What is left to go wrong when it is emitted are the two
things that sizing does not look at: whether a name has an address, and whether a branch
reaches.  Both are asked in the column in which the line was sized
(`Mnemonic.encode_of_sized`): emitting takes this column or none.

A line is at fault for what it says and where it stands, whatever became of the lines before
it.  So the first line at fault is the one at which the assembly ends, and the lines before it
are those that were emitted.
-/
import Mos6502.Proofs.Emission

namespace Mos6502

variable {m : Mnemonic} {c : Column} {seen seen' labels : Labels} {symbols : Symbols}
  {pc pc' : UInt16} {operand text : Text} {reason : LineError} {line n : Nat}
  {lines before rest : List Text} {e e' : Emitted} {source : Prepared}

/-! ### What sizing does not look at -/

/-- Whether an operand is about an address in this column. -/
def Column.takesAddress : Column → Bool
  | absolute | absoluteX | absoluteY | indirect | branch => true
  | _ => false

theorem Column.takesAddress_iff :
    c.takesAddress = true ↔ ∃ shape, c.shape? = some shape ∧ c.isShort = false := by
  cases c <;> simp [takesAddress, shape?, isShort]

namespace Operand

/-- In a column for an address, the operand is about a name that no label has. -/
def Unknown (labels : Labels) (operand : Text) (c : Column) : Prop :=
  c.takesAddress = true ∧ ∃ shape name, c.shape? = some shape ∧
    shape.base? operand = some name ∧ isIdentifier name = true ∧ labels.address? name = none

/-- In the column for branches, the operand is an address that is too far away. -/
def OutOfReach (labels : Labels) (pc : UInt16) (operand : Text) (c : Column) : Prop :=
  c = .branch ∧ ∃ target, address? labels .emit operand = some target ∧
    ¬ (-128 ≤ distance pc target ∧ distance pc target ≤ 127)

/-- What can be wrong with an operand in a column that it fits. -/
def Wrong (labels : Labels) (pc : UInt16) (operand : Text) (c : Column) : LineError → Prop
  | .malformed => Unknown labels operand c
  | .branchRange => OutOfReach labels pc operand c

/-- An operand that fits is turned down for an unknown name only. -/
theorem encode?_eq_none_iff (hfits : fits operand c = true) :
    encode? labels .emit pc operand c = none ↔ Unknown labels operand c := by
  constructor
  · intro h
    obtain ⟨shape, name, hshape, hshort, hname⟩ := unknown_of_fits hfits h
    exact ⟨Column.takesAddress_iff.mpr ⟨shape, hshape, hshort⟩, shape, name, hshape, hname⟩
  · rintro ⟨htakes, shape, name, hshape, hbase, hid, hunknown⟩
    obtain ⟨-, -, hshort⟩ := Column.takesAddress_iff.mp htakes
    rw [encode?_of_shape hshape, hbase, Option.bind_some, encodeBase?, if_neg (by simp [hshort])]
    simp [address?, parse?_of_isIdentifier hid, hid, hunknown]

/-- An operand that is taken is wrong for a distance only. -/
theorem encode?_eq_error_iff :
    encode? labels .emit pc operand c = some (.error reason) ↔
      reason = .branchRange ∧ OutOfReach labels pc operand c := by
  cases c with
  | branch =>
    simp only [encode?, Option.map_eq_some_iff, OutOfReach, true_and, offset]
    constructor
    · rintro ⟨target, htarget, hoffset⟩
      split at hoffset
      · cases hoffset
      · cases hoffset
        exact ⟨rfl, target, htarget, by assumption⟩
    · rintro ⟨rfl, target, htarget, hfar⟩
      exact ⟨target, htarget, if_neg hfar⟩
  | single =>
    simp only [encode?, OutOfReach]
    split <;> simp
  | _ =>
    refine ⟨fun h => ?_, fun h => absurd h.2.1 (by decide)⟩
    obtain ⟨w, -, hw⟩ := Option.map_eq_some_iff.mp h
    cases hw

/-- What is wrong with an operand that fits is the error that it ends in. -/
theorem getD_encode?_eq_error_iff (hfits : fits operand c = true) :
    (encode? labels .emit pc operand c).getD (.error .malformed) = .error reason ↔
      Wrong labels pc operand c reason := by
  have hunknown : encode? labels .emit pc operand c = none ↔ Unknown labels operand c :=
    encode?_eq_none_iff hfits
  have hfar : ∀ reason, encode? labels .emit pc operand c = some (.error reason) ↔
      reason = .branchRange ∧ OutOfReach labels pc operand c := fun reason => encode?_eq_error_iff
  cases hencode : encode? labels .emit pc operand c with
  | none =>
    rw [hencode] at hunknown hfar
    cases reason with
    | malformed => simpa [Wrong] using hunknown
    | branchRange => simpa [Wrong] using hfar .branchRange
  | some r =>
    rw [hencode] at hunknown hfar
    cases reason with
    | malformed =>
      refine ⟨?_, fun h => absurd (hunknown.mpr h) (by simp)⟩
      rintro rfl
      exact absurd ((hfar .malformed).mp rfl).1 (by decide)
    | branchRange => simpa [Wrong] using hfar .branchRange

end Operand

/-! ### One instruction -/

namespace Mnemonic

/-- An instruction that was sized in a column is emitted in this column or not at all. -/
theorem encode_of_sized (hsized : m.column? seen .size pc' operand = some c) (labels : Labels)
    (pc : UInt16) :
    m.encode labels .emit pc operand =
      (m.encodeAs? labels .emit pc operand c).getD (.error .malformed) := by
  rw [encode_eq]
  cases hc : m.column? labels .emit pc operand with
  | some c' =>
    have hsame := column?_size_of_emit hc seen pc'
    rw [hsized] at hsame
    cases hsame
    rfl
  | none =>
    have hnone := List.find?_eq_none.mp hc c c.mem_tried
    rw [Option.not_isSome_iff_eq_none] at hnone
    rw [hnone]
    rfl

theorem fits_of_sized (hsized : m.column? seen .size pc operand = some c) :
    ∃ opcode, m.opcode? c = some opcode ∧ Operand.fits operand c = true := by
  have hsome := isSome_of_column? hsized
  rw [isSome_encodeAs?, Bool.and_eq_true, Operand.isSome_encode?_size] at hsome
  obtain ⟨opcode, hopcode⟩ := Option.isSome_iff_exists.mp hsome.1
  exact ⟨opcode, hopcode, hsome.2⟩

/-- An instruction that was sized in a column fails for what is wrong with its operand there,
and for nothing else. -/
theorem encode_eq_error_iff (hsized : m.column? seen .size pc' operand = some c) :
    m.encode labels .emit pc operand = .error reason ↔
      Operand.Wrong labels pc operand c reason := by
  obtain ⟨opcode, hopcode, hfits⟩ := fits_of_sized hsized
  rw [← Operand.getD_encode?_eq_error_iff hfits, encode_of_sized hsized, encodeAs?, hopcode]
  cases Operand.encode? labels .emit pc operand c with
  | none => rfl
  | some r => cases r <;> simp [Except.map]

end Mnemonic

/-! ### One line -/

/-- What is wrong with a line at an address, where it was sized with the labels seen before
it: it holds an instruction, and the operand is wrong in the column in which it was sized. -/
def Fails (seen labels : Labels) (pc : UInt16) (text : Text) (reason : LineError) : Prop :=
  ∃ label m operand c, Line.parse? text = some ⟨label, .instruction m operand⟩ ∧
    m.column? seen .size pc operand = some c ∧ Operand.Wrong labels pc operand c reason

/-- A line that was sized fails for what is wrong with it, and for nothing else. -/
theorem emitLine_eq_error_iff
    (hsize : Labels.indexLine symbols seen pc line text = .ok (seen', pc')) :
    emitLine labels pc text = .error reason ↔ Fails seen labels pc text reason := by
  obtain ⟨⟨label, statement⟩, effect, hparse, heffect, -, -⟩ := Labels.indexLine_eq_ok_iff.mp hsize
  have hemit : emitLine labels pc text = statement.effect labels .emit pc := by
    rw [emitLine, hparse]
  rw [hemit, Fails, hparse]
  cases statement with
  | empty | origin | data => simp [Statement.effect]
  | instruction m operand =>
    obtain ⟨bytes, hbytes⟩ : ∃ bytes, m.encode seen .size pc operand = .ok bytes := by
      simp only [Statement.effect] at heffect
      cases hencode : m.encode seen .size pc operand with
      | error reason => simp [hencode, Except.map] at heffect
      | ok bytes => exact ⟨bytes, rfl⟩
    obtain ⟨c, hsized, -⟩ := Mnemonic.encode_eq_ok_iff.mp hbytes
    have herror : m.encode labels .emit pc operand = .error reason ↔
        Operand.Wrong labels pc operand c reason := Mnemonic.encode_eq_error_iff hsized
    have hmap : Statement.effect labels .emit pc (.instruction m operand) = .error reason ↔
        m.encode labels .emit pc operand = .error reason := by
      simp only [Statement.effect]
      cases m.encode labels .emit pc operand <;> simp [Except.map]
    rw [hmap, herror]
    constructor
    · intro hwrong
      exact ⟨label, m, operand, c, rfl, hsized, hwrong⟩
    · rintro ⟨_, _, _, c', heq, hsized', hwrong⟩
      cases heq
      rw [hsized] at hsized'
      cases hsized'
      exact hwrong

/-- Behind the sign of an immediate operand nothing fails. -/
theorem not_fails_of_immediate {label : Option Text} {value : Text}
    (hparse : Line.parse? text = some ⟨label, .instruction m ('#' :: value)⟩) :
    ¬ Fails seen labels pc text reason := by
  rintro ⟨_, _, _, c, heq, hsized, hwrong⟩
  rw [hparse] at heq
  cases heq
  obtain ⟨-, -, hfits⟩ := Mnemonic.fits_of_sized hsized
  have hc := Operand.eq_immediate_of_fits hfits
  subst hc
  cases reason with
  | malformed => exact absurd hwrong.1 (by decide)
  | branchRange => exact absurd hwrong.1 (by decide)

/-! ### A run over lines -/

theorem emitFrom_cons_of_ok {effect : Effect} (h : emitLine labels e.pc text = .ok effect)
    (line : Nat) (rest : List Text) :
    emitFrom labels e line (text :: rest) =
      emitFrom labels (e.take line effect) (line + 1) rest := by
  rw [emitFrom, h]

/-- Emitting all lines is emitting the first few and going on from there. -/
theorem emitFrom_append (h : emitFrom labels e line before = (e', none)) (rest : List Text) :
    emitFrom labels e line (before ++ rest) = emitFrom labels e' (line + before.length) rest := by
  induction before generalizing e line with
  | nil =>
    cases h
    rfl
  | cons text before ih =>
    obtain ⟨effect, hline, hbefore⟩ := emitFrom_cons h
    rw [List.cons_append, emitFrom_cons_of_ok hline, ih hbefore, List.length_cons,
      Nat.add_assoc, Nat.add_comm 1]

/-- Where all lines were emitted, so were the first few. -/
theorem exists_emitFrom (h : emitFrom labels e line (before ++ rest) = (e', none)) :
    ∃ reached, emitFrom labels e line before = (reached, none) := by
  induction before generalizing e line with
  | nil => exact ⟨e, rfl⟩
  | cons text before ih =>
    obtain ⟨effect, hline, hbefore⟩ := emitFrom_cons h
    obtain ⟨reached, hreached⟩ := ih hbefore
    exact ⟨reached, by rw [emitFrom_cons_of_ok hline, hreached]⟩

/-- Where a line was rejected, those before it were emitted. -/
theorem exists_of_rejected {r : Rejected} (h : emitFrom labels e line lines = (e', some r)) :
    ∃ before rest, lines = before ++ r.text :: rest ∧ r.line = line + before.length ∧
      emitFrom labels e line before = (e', none) ∧
      emitLine labels e'.pc r.text = .error r.reason := by
  induction lines generalizing e line with
  | nil => cases h
  | cons text rest ih =>
    rw [emitFrom] at h
    cases hline : emitLine labels e.pc text with
    | error reason =>
      rw [hline] at h
      cases h
      exact ⟨[], rest, rfl, rfl, rfl, hline⟩
    | ok effect =>
      rw [hline] at h
      obtain ⟨before, behind, rfl, hnumber, hbefore, herror⟩ := ih h
      refine ⟨text :: before, behind, rfl, ?_, ?_, herror⟩
      · rw [hnumber, List.length_cons, Nat.add_assoc, Nat.add_comm 1]
      · rw [emitFrom_cons_of_ok hline, hbefore]

/-- The lines before one that is rejected are those that are listed. -/
theorem emissions_of_rejected (h : emitFrom labels e line before = (e', none))
    (herror : emitLine labels e'.pc text = .error reason) (rest : List Text) :
    emissions labels e.pc (before ++ text :: rest) = emissions labels e.pc before := by
  induction before generalizing e line with
  | nil =>
    cases h
    simp only [List.nil_append, emissions, herror]
  | cons first before ih =>
    obtain ⟨effect, hline, hbefore⟩ := emitFrom_cons h
    rw [List.cons_append, emissions_cons hline, emissions_cons hline,
      ← Emitted.pc_take e line effect, ih hbefore]

/-! ### The first line at fault -/

/-- A line is at fault where it stands: at the address and with the labels that sizing had
reached there. -/
def Prepared.Faulty (source : Prepared) (labels : Labels) (reason : LineError) (n : Nat)
    (text : Text) : Prop :=
  ∃ before rest seen pc, source.lines = before ++ text :: rest ∧ n = before.length + 1 ∧
    Labels.after source.symbols {} startAddress 1 before = .ok (seen, pc) ∧
    Fails seen labels pc text reason

theorem Prepared.Faulty.exists_lines (h : source.Faulty labels reason n text) :
    ∃ before rest, source.lines = before ++ text :: rest ∧ n = before.length + 1 := by
  obtain ⟨before, rest, _, _, hlines, hn, -, -⟩ := h
  exact ⟨before, rest, hlines, hn⟩

section

variable (hindex : Labels.index source = (labels, none))

include hindex

/-- When a line is reached, it is rejected if it is at fault. -/
theorem emitLine_eq_error_iff_faulty (hlines : source.lines = before ++ text :: rest)
    (hreached : emitFrom labels Emitted.initial 1 before = (e, none)) :
    emitLine labels e.pc text = .error reason ↔
      source.Faulty labels reason (before.length + 1) text := by
  have hall := hindex
  rw [Labels.index, hlines] at hall
  obtain ⟨seen, pc, hafter⟩ := Labels.exists_after hall
  have hpc : pc = e.pc := pc_eq_of_after (e := Emitted.initial) hafter hreached
  subst hpc
  rw [Labels.indexFrom_append hafter] at hall
  obtain ⟨_, _, hsize, -⟩ := Labels.indexFrom_cons hall
  rw [emitLine_eq_error_iff hsize]
  constructor
  · intro hfails
    exact ⟨before, rest, seen, e.pc, hlines, rfl, hafter, hfails⟩
  · rintro ⟨before', rest', seen', pc', hlines', hlength, hafter', hfails⟩
    obtain ⟨rfl, -⟩ := List.append_inj (hlines.symm.trans hlines') (Nat.succ.inj hlength)
    rw [hafter] at hafter'
    cases hafter'
    exact hfails

/-- No line that was emitted is at fault. -/
theorem not_faulty_of_emitted (hlines : source.lines = before ++ rest)
    (h : emitFrom labels Emitted.initial 1 before = (e, none)) (hn : n ≤ before.length) :
    ¬ source.Faulty labels reason n text := by
  intro hfaulty
  obtain ⟨before', rest', hlines', rfl⟩ := hfaulty.exists_lines
  have hprefix : before' ++ [text] <+: before := by
    have hshort : before' ++ [text] <+: source.lines :=
      ⟨rest', by rw [hlines', List.append_assoc, List.singleton_append]⟩
    have hlong : before <+: source.lines := ⟨rest, hlines.symm⟩
    exact List.prefix_of_prefix_length_le hshort hlong (by simpa using hn)
  obtain ⟨more, rfl⟩ := hprefix
  obtain ⟨through, hthrough⟩ := exists_emitFrom h
  obtain ⟨reached, hreached⟩ := exists_emitFrom hthrough
  rw [emitFrom_append hreached] at hthrough
  obtain ⟨effect, hline, -⟩ := emitFrom_cons hthrough
  rw [← emitLine_eq_error_iff_faulty hindex hlines' hreached, hline] at hfaulty
  cases hfaulty

/-- The line at which an assembly ends is at fault, and none before it is. -/
theorem faulty_of_rejected {r : Rejected}
    (h : emitFrom labels Emitted.initial 1 source.lines = (e, some r)) :
    source.Faulty labels r.reason r.line r.text ∧
      ∀ k < r.line, ∀ reason text, ¬ source.Faulty labels reason k text := by
  obtain ⟨before, rest, hlines, hline, hbefore, herror⟩ := exists_of_rejected h
  rw [hline, Nat.add_comm]
  refine ⟨(emitLine_eq_error_iff_faulty hindex hlines hbefore).mp herror, ?_⟩
  intro k hk reason text
  exact not_faulty_of_emitted hindex hlines hbefore (Nat.le_of_lt_succ hk)

/-- A run ends at the first line at fault, and nowhere else. -/
theorem emitFrom_eq_rejected_iff :
    (∃ e, emitFrom labels Emitted.initial 1 source.lines = (e, some ⟨reason, n, text⟩)) ↔
      source.Faulty labels reason n text ∧
        ∀ k < n, ∀ reason text, ¬ source.Faulty labels reason k text := by
  constructor
  · rintro ⟨e, h⟩
    exact faulty_of_rejected hindex h
  · rintro ⟨hfaulty, hfirst⟩
    obtain ⟨before, rest, hlines, rfl⟩ := hfaulty.exists_lines
    cases hrun : emitFrom labels Emitted.initial 1 source.lines with
    | mk e r =>
      cases r with
      | none =>
        refine absurd hfaulty (not_faulty_of_emitted hindex (List.append_nil _).symm hrun ?_)
        simp [hlines]
      | some r =>
        obtain ⟨hfaulty', hfirst'⟩ := faulty_of_rejected hindex hrun
        have hline : r.line = before.length + 1 := by
          rcases Nat.lt_trichotomy r.line (before.length + 1) with hlt | heq | hgt
          · exact absurd hfaulty' (hfirst _ hlt _ _)
          · exact heq
          · exact absurd hfaulty (hfirst' _ hgt _ _)
        obtain ⟨before', rest', hlines', hline', hreached, herror⟩ := exists_of_rejected hrun
        have hlength : before'.length = before.length := by omega
        obtain ⟨rfl, htail⟩ := List.append_inj (hlines'.symm.trans hlines) hlength
        obtain ⟨rfl, -⟩ := List.cons.inj htail
        rw [← emitLine_eq_error_iff_faulty hindex hlines' hreached, herror] at hfaulty
        cases hfaulty
        exact ⟨e, by rw [← hline]⟩

/-- All lines are emitted if none is at fault. -/
theorem emitFrom_eq_none_iff :
    (∃ e, emitFrom labels Emitted.initial 1 source.lines = (e, none)) ↔
      ∀ reason n text, ¬ source.Faulty labels reason n text := by
  constructor
  · rintro ⟨e, h⟩ reason n text hfaulty
    obtain ⟨before, rest, hlines, rfl⟩ := hfaulty.exists_lines
    refine not_faulty_of_emitted hindex (List.append_nil _).symm h ?_ hfaulty
    simp [hlines]
  · intro hnone
    cases hrun : emitFrom labels Emitted.initial 1 source.lines with
    | mk e r =>
      cases r with
      | none => exact ⟨e, rfl⟩
      | some r => exact absurd (faulty_of_rejected hindex hrun).1 (hnone _ _ _)

end

end Mos6502
