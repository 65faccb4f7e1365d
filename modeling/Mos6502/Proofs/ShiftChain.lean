/-
The processor shifts numbers of many bytes.

A shift instruction works on the accumulator or on a cell, and all that matters of it is which of
the two it is: the byte there becomes what the shift makes of it, and the carry what falls out.

Two things are said of a number.  Its bytes may pass by one after the other, at any places and in
states that have nothing in common but the carry (`Sweep`).  Or they are held in different cells
during one run, where each is shifted where it is or by way of the accumulator, and the other
instructions leave the cells and the carry alone (`Tour`).  Either way it is a row of shifts, so
what is known of rows holds of it.

The second needs that no shift touches what another one left, and this is where the cells have to
be different.  Code that is nowhere written to makes such a tour.
-/
import Mos6502.Proofs.PutRun
import Mos6502.Proofs.ShiftRow

namespace Mos6502

/-- Where an instruction finds its operand. -/
inductive Place where
  | accumulator
  | cell (address : UInt16)
deriving DecidableEq, Repr

namespace Cpu

variable {s t u : Cpu} {m : Mnemonic} {mode : Mode} {shift : Shift} {shifts : List Shift}
  {place : Place} {c : UInt16} {cells held : List UInt16} {carry out : Bool}

/-- The byte at a place. -/
def byteAt (s : Cpu) : Place → UInt8
  | .accumulator => s.a
  | .cell address => s.memory.get address

/-- The next instruction, and the place that it works on. -/
inductive Faces (s : Cpu) (m : Mnemonic) : Place → Prop
  | accumulator (hdecode : decode (s.memory.get s.pc) = some ⟨m, .accumulator⟩) :
      Faces s m .accumulator
  | cell {mode : Mode} (hdecode : decode (s.memory.get s.pc) = some ⟨m, mode⟩)
      (hmode : mode ≠ .accumulator) : Faces s m (.cell (s.effectiveAddress mode))

/-! ### One instruction -/

/-- A shift replaces its operand, and takes over the carry. -/
theorem step_of_shift (hdecode : decode (s.memory.get s.pc) = some ⟨shift.mnemonic, mode⟩) :
    s.step = (((s.jump (s.pc + UInt16.ofNat mode.size)).replaceShifted mode
      (s.effectiveAddress mode) (shift.apply (s.operand mode) s.flags.carry)).count, none) := by
  rw [step_of_decode hdecode (by cases shift <;> exact nofun) (by cases shift <;> exact nofun)]
  cases shift <;> rfl

/-- A shift is executed, wherever its operand is.  The byte there and the carry are what the
shift makes of them, and no other cell is written. -/
theorem Faces.shift_spec (h : s.Faces shift.mnemonic place) :
    s.step.2 = none ∧
      s.step.1.byteAt place = (shift.apply (s.byteAt place) s.flags.carry).value ∧
      s.step.1.flags.carry = (shift.apply (s.byteAt place) s.flags.carry).carry ∧
      s.step.1.memory = s.memory.apply (match place with
        | .accumulator => []
        | .cell c => [⟨c, (shift.apply (s.byteAt place) s.flags.carry).value⟩]) := by
  cases h with
  | accumulator hdecode =>
    rw [step_of_shift hdecode]
    exact ⟨rfl, rfl, rfl, rfl⟩
  | @cell mode hdecode hmode =>
    rw [step_of_shift hdecode]
    cases mode with
    | accumulator => exact absurd rfl hmode
    | _ => exact ⟨rfl, Memory.get_set_self _ _ _, rfl, rfl⟩

/-- A load takes a byte over. -/
theorem Faces.load_spec (h : s.Faces .lda (.cell c)) :
    s.step.1.a = s.memory.get c ∧ s.step.1.flags.carry = s.flags.carry ∧
      s.step.1.memory = s.memory := by
  cases h with
  | @cell mode hdecode hmode =>
    rw [step_of_decode hdecode nofun nofun]
    cases mode with
    | accumulator => exact absurd rfl hmode
    | _ => exact ⟨rfl, rfl, rfl⟩

/-- A store puts the accumulator into a cell. -/
theorem Faces.store_spec (h : s.Faces .sta (.cell c)) :
    s.step.1.memory = s.memory.set c s.a ∧ s.step.1.flags.carry = s.flags.carry := by
  cases h with
  | cell hdecode hmode =>
    rw [step_of_decode hdecode nofun nofun]
    exact ⟨rfl, rfl⟩

/-! ### Bytes that pass by -/

/-- Some shifts, one after the other, with the state and the place of each.  Each finds the carry
that the one before it left.  How the bytes came to their places is left open. -/
inductive Sweep : List Shift → Bool → List (Cpu × Place) → Bool → Prop
  | nil {carry : Bool} : Sweep [] carry [] carry
  | cons {shift : Shift} {shifts : List Shift} {s : Cpu} {place : Place}
      {visits : List (Cpu × Place)} {out : Bool} (hfaces : s.Faces shift.mnemonic place)
      (rest : Sweep shifts s.step.1.flags.carry visits out) :
      Sweep (shift :: shifts) s.flags.carry ((s, place) :: visits) out

/-- The bytes that shifts find. -/
def bytesBefore (visits : List (Cpu × Place)) : List UInt8 :=
  visits.map fun visit => visit.1.byteAt visit.2

/-- The bytes that shifts leave. -/
def bytesAfter (visits : List (Cpu × Place)) : List UInt8 :=
  visits.map fun visit => visit.1.step.1.byteAt visit.2

theorem Sweep.row {visits : List (Cpu × Place)} (h : Sweep shifts carry visits out) :
    Row shifts carry (bytesBefore visits) (bytesAfter visits) out := by
  induction h with
  | nil => exact .nil
  | @cons shift shifts s place visits out hfaces rest ih =>
    obtain ⟨-, hbyte, hcarry, -⟩ := hfaces.shift_spec
    rw [hcarry] at ih
    show Row _ _ (s.byteAt place :: bytesBefore visits)
      (s.step.1.byteAt place :: bytesAfter visits) out
    rw [hbyte]
    exact .cons ih

/-! ### Bytes that are held -/

/-- A cell is shifted, where it is or by way of the accumulator. -/
inductive ShiftsCell (shift : Shift) (c : UInt16) (s : Cpu) : Cpu → Prop
  | inPlace (h : s.Faces shift.mnemonic (.cell c)) : ShiftsCell shift c s s.step.1
  | throughA (hload : s.Faces .lda (.cell c))
      (hshift : s.step.1.Faces shift.mnemonic .accumulator)
      (hstore : s.step.1.step.1.Faces .sta (.cell c)) :
      ShiftsCell shift c s s.step.1.step.1.step.1

/-- A run in which some cells are shifted, one after the other.  All other instructions leave the
carry alone, and the cells that are held. -/
inductive Tour (held : List UInt16) : List Shift → List UInt16 → Cpu → Cpu → Prop
  | done {s : Cpu} : Tour held [] [] s s
  | cell {shift : Shift} {shifts : List Shift} {c : UInt16} {cells : List UInt16} {s u t : Cpu}
      (h : ShiftsCell shift c s u) (rest : Tour held shifts cells u t) :
      Tour held (shift :: shifts) (c :: cells) s t
  | pass {shifts : List Shift} {cells : List UInt16} {s t : Cpu}
      (hcarry : s.step.1.flags.carry = s.flags.carry)
      (hheld : ∀ c ∈ held, s.step.1.memory.get c = s.memory.get c)
      (rest : Tour held shifts cells s.step.1 t) : Tour held shifts cells s t

/-- Both ways, the cell and the carry are what the shift makes of them, and the other cells are
left alone. -/
theorem ShiftsCell.spec (h : ShiftsCell shift c s t) :
    t.memory = s.memory.set c (shift.apply (s.memory.get c) s.flags.carry).value ∧
      t.flags.carry = (shift.apply (s.memory.get c) s.flags.carry).carry := by
  cases h with
  | inPlace h =>
    obtain ⟨-, -, hcarry, hmemory⟩ := h.shift_spec
    exact ⟨hmemory, hcarry⟩
  | throughA hload hshift hstore =>
    obtain ⟨ha, hcarry, hmemory⟩ := hload.load_spec
    obtain ⟨-, hvalue, hcarry', hmemory'⟩ := hshift.shift_spec
    obtain ⟨hstored, hkept⟩ := hstore.store_spec
    have hbyte : s.step.1.byteAt .accumulator = s.memory.get c := ha
    rw [hbyte, hcarry] at hvalue hcarry'
    have hsame : s.step.1.step.1.memory = s.memory := hmemory'.trans hmemory
    refine ⟨?_, hkept.trans hcarry'⟩
    rw [hstored, hsame]
    exact congrArg (s.memory.set c) hvalue

/-- A cell that is not shifted stays. -/
theorem Tour.get_eq (h : Tour held shifts cells s t) (hheld : c ∈ held) (hc : c ∉ cells) :
    t.memory.get c = s.memory.get c := by
  induction h with
  | done => rfl
  | cell h rest ih =>
    rw [List.mem_cons, not_or] at hc
    rw [ih hc.2, h.spec.1, Memory.get_set_of_ne hc.1]
  | pass hcarry hkept rest ih => exact (ih hc).trans (hkept c hheld)

/-- From its first state to its last, a tour is a row of shifts on the cells. -/
theorem Tour.row (h : Tour held shifts cells s t) (hnodup : cells.Nodup)
    (hheld : ∀ c ∈ cells, c ∈ held) :
    Row shifts s.flags.carry (cells.map s.memory.get) (cells.map t.memory.get) t.flags.carry := by
  induction h with
  | done => exact .nil
  | @cell shift shifts c cells s u t h rest ih =>
    obtain ⟨hc, hnodup⟩ := List.nodup_cons.mp hnodup
    obtain ⟨hfirst, hheld⟩ := List.forall_mem_cons.mp hheld
    obtain ⟨hmemory, hcarry⟩ := h.spec
    have hothers : cells.map u.memory.get = cells.map s.memory.get := by
      refine List.map_congr_left fun d hd => ?_
      rw [hmemory, Memory.get_set_of_ne (ne_of_mem_of_not_mem hd hc)]
    have hrest := ih hnodup hheld
    rw [hothers, hcarry] at hrest
    -- The shifts that follow do not touch this cell again.
    have hlast : t.memory.get c = (shift.apply (s.memory.get c) s.flags.carry).value := by
      rw [rest.get_eq hfirst hc, hmemory, Memory.get_set_self]
    rw [List.map_cons, List.map_cons, hlast]
    exact .cons hrest
  | @pass shifts cells s t hcarry hkept rest ih =>
    have hcells : cells.map s.step.1.memory.get = cells.map s.memory.get :=
      List.map_congr_left fun c hc => hkept c (hheld c hc)
    have hrest := ih hnodup hheld
    rwa [hcells, hcarry] at hrest

/-- A row of bytes is shifted by the processor: one byte after the other passes by, or all are
held in different cells during one run. -/
inductive Shifting (shifts : List Shift) : Bool → List UInt8 → List UInt8 → Bool → Prop
  | passing {carry out : Bool} {visits : List (Cpu × Place)}
      (h : Sweep shifts carry visits out) :
      Shifting shifts carry (bytesBefore visits) (bytesAfter visits) out
  | held {cells : List UInt16} {s t : Cpu} (hnodup : cells.Nodup)
      (h : Tour cells shifts cells s t) :
      Shifting shifts s.flags.carry (cells.map s.memory.get) (cells.map t.memory.get) t.flags.carry

theorem Shifting.row {bytes results : List UInt8} (h : Shifting shifts carry bytes results out) :
    Row shifts carry bytes results out := by
  cases h with
  | passing h => exact h.row
  | held hnodup h => exact h.row hnodup fun _ hc => hc

end Cpu

/-! ### There are such chains -/

namespace Shift

/-- The opcode for the accumulator. -/
def accumulatorOpcode : Shift → UInt8
  | asl => 0x0a
  | lsr => 0x4a
  | rol => 0x2a
  | ror => 0x6a

/-- The opcode for a cell anywhere in memory. -/
def absoluteOpcode : Shift → UInt8
  | asl => 0x0e
  | lsr => 0x4e
  | rol => 0x2e
  | ror => 0x6e

theorem decode_accumulatorOpcode (shift : Shift) :
    decode shift.accumulatorOpcode = some ⟨shift.mnemonic, .accumulator⟩ := by
  cases shift <;> decide +kernel

theorem decode_absoluteOpcode (shift : Shift) :
    decode shift.absoluteOpcode = some ⟨shift.mnemonic, .absolute⟩ := by
  cases shift <;> decide +kernel

end Shift

/-- A cell that is to be shifted, and whether by way of the accumulator. -/
structure ShiftJob where
  shift : Shift
  cell : UInt16
  throughA : Bool
deriving DecidableEq, Repr

/-- The code that does it. -/
def ShiftJob.code (job : ShiftJob) : List UInt8 :=
  if job.throughA then
    [0xad, lowByte job.cell, highByte job.cell] ++ [job.shift.accumulatorOpcode] ++
      [0x8d, lowByte job.cell, highByte job.cell]
  else [job.shift.absoluteOpcode, lowByte job.cell, highByte job.cell]

namespace Cpu

variable {s t : Cpu} {m : Mnemonic} {shift : Shift} {job : ShiftJob} {jobs : List ShiftJob}
  {opcode : UInt8} {c : UInt16} {held : List UInt16} {first rest : List UInt8}

/-- Some code is in front of the processor, and none of the cells that are held is in it. -/
structure Before (held : List UInt16) (code : List UInt8) (s : Cpu) : Prop where
  holds : s.memory.Holds s.pc code
  apart : ∀ c ∈ held, c ∉ Memory.extent s.pc code

theorem Before.pass (h : Before held (first ++ rest) s)
    (hpc : t.pc = s.pc + UInt16.ofNat first.length) {changes : List Change}
    (hmemory : t.memory = s.memory.apply changes)
    (hheld : ∀ change ∈ changes, change.address ∈ held) : Before held rest t := by
  obtain ⟨hholds, hapart⟩ := h.holds.pass h.apart hheld
  rw [← hmemory, ← hpc] at hholds
  exact ⟨hholds, hpc ▸ hapart⟩

/-- The address behind an opcode is the one of its cell. -/
theorem Before.absolute (h : Before held ([opcode, lowByte c, highByte c] ++ rest) s)
    (hopcode : decode opcode = some ⟨m, .absolute⟩) :
    decode (s.memory.get s.pc) = some ⟨m, .absolute⟩ ∧ s.effectiveAddress .absolute = c := by
  obtain ⟨hfirst, hrest⟩ := Memory.holds_cons.mp h.holds
  obtain ⟨hlow, hrest⟩ := Memory.holds_cons.mp hrest
  obtain ⟨hhigh, -⟩ := Memory.holds_cons.mp hrest
  refine ⟨by rw [hfirst, hopcode], ?_⟩
  show wordOf (s.memory.get (s.pc + 1)) (s.memory.get (s.pc + 1 + 1)) = c
  rw [hlow, hhigh, wordOf_lowByte_highByte]

theorem Before.faces_absolute (h : Before held ([opcode, lowByte c, highByte c] ++ rest) s)
    (hopcode : decode opcode = some ⟨m, .absolute⟩) : s.Faces m (.cell c) := by
  obtain ⟨hdecode, hcell⟩ := h.absolute hopcode
  rw [← hcell]
  exact .cell hdecode (by decide)

/-- A cell is shifted where it is. -/
theorem Before.shift_in_place
    (h : Before held ([shift.absoluteOpcode, lowByte c, highByte c] ++ rest) s) (hc : c ∈ held) :
    ShiftsCell shift c s s.step.1 ∧ Before held rest s.step.1 := by
  have hfaces := h.faces_absolute shift.decode_absoluteOpcode
  have hpc : s.step.1.pc = s.pc + 3 := by
    rw [step_of_shift (h.absolute shift.decode_absoluteOpcode).1]
    rfl
  refine ⟨.inPlace hfaces, h.pass hpc hfaces.shift_spec.2.2.2 ?_⟩
  rw [List.forall_mem_singleton]
  exact hc

theorem Before.shift_accumulator (h : Before held ([shift.accumulatorOpcode] ++ rest) s) :
    s.Faces shift.mnemonic .accumulator ∧ Before held rest s.step.1 := by
  obtain ⟨hopcode, -⟩ := Memory.holds_cons.mp h.holds
  have hdecode : decode (s.memory.get s.pc) = some ⟨shift.mnemonic, .accumulator⟩ := by
    rw [hopcode, shift.decode_accumulatorOpcode]
  have hfaces : s.Faces shift.mnemonic .accumulator := .accumulator hdecode
  have hpc : s.step.1.pc = s.pc + 1 := by
    rw [step_of_shift hdecode]
    rfl
  exact ⟨hfaces, h.pass hpc hfaces.shift_spec.2.2.2 nofun⟩

theorem Before.load (h : Before held ([0xad, lowByte c, highByte c] ++ rest) s) :
    s.Faces .lda (.cell c) ∧ Before held rest s.step.1 := by
  have hlda : decode 0xad = some ⟨.lda, .absolute⟩ := by
    decide +kernel
  have hfaces := h.faces_absolute hlda
  have hpc : s.step.1.pc = s.pc + 3 := by
    rw [step_of_decode (h.absolute hlda).1 nofun nofun]
    rfl
  have hmemory : s.step.1.memory = s.memory.apply [] := hfaces.load_spec.2.2
  exact ⟨hfaces, h.pass hpc hmemory nofun⟩

theorem Before.store (h : Before held ([0x8d, lowByte c, highByte c] ++ rest) s)
    (hc : c ∈ held) : s.Faces .sta (.cell c) ∧ Before held rest s.step.1 := by
  have hsta : decode 0x8d = some ⟨.sta, .absolute⟩ := by
    decide +kernel
  have hfaces := h.faces_absolute hsta
  have hpc : s.step.1.pc = s.pc + 3 := by
    rw [step_of_decode (h.absolute hsta).1 nofun nofun]
    rfl
  have hmemory : s.step.1.memory = s.memory.apply [⟨c, s.a⟩] := hfaces.store_spec.1
  refine ⟨hfaces, h.pass hpc hmemory ?_⟩
  rw [List.forall_mem_singleton]
  exact hc

/-- A cell is loaded, shifted in the accumulator and stored. -/
theorem Before.shift_through_a
    (h : Before held ([0xad, lowByte c, highByte c] ++ ([shift.accumulatorOpcode] ++
      ([0x8d, lowByte c, highByte c] ++ rest))) s) (hc : c ∈ held) :
    ShiftsCell shift c s s.step.1.step.1.step.1 ∧
      Before held rest s.step.1.step.1.step.1 := by
  obtain ⟨hload, hloaded⟩ := h.load
  obtain ⟨hshift, hshifted⟩ := hloaded.shift_accumulator
  obtain ⟨hstore, hstored⟩ := hshifted.store hc
  exact ⟨.throughA hload hshift hstore, hstored⟩

/-- What the code of some cells does is a tour of them. -/
theorem Before.exists_tour (h : Before held (jobs.flatMap ShiftJob.code) s)
    (hheld : ∀ job ∈ jobs, job.cell ∈ held) :
    ∃ t, Tour held (jobs.map ShiftJob.shift) (jobs.map ShiftJob.cell) s t := by
  induction jobs generalizing s with
  | nil => exact ⟨s, .done⟩
  | cons job jobs ih =>
    obtain ⟨hc, hheld⟩ := List.forall_mem_cons.mp hheld
    have hfirst : ∃ u, ShiftsCell job.shift job.cell s u ∧
        Before held (jobs.flatMap ShiftJob.code) u := by
      rw [List.flatMap_cons, ShiftJob.code] at h
      split at h
      · rw [List.append_assoc, List.append_assoc] at h
        exact ⟨_, h.shift_through_a hc⟩
      · exact ⟨_, h.shift_in_place hc⟩
    obtain ⟨u, hshifts, hbefore⟩ := hfirst
    obtain ⟨t, htour⟩ := ih hbefore hheld
    exact ⟨t, .cell hshifts htour⟩

/-- A state that is about to shift a byte in the accumulator. -/
def facing (shift : Shift) (byte : UInt8) (carry : Bool) : Cpu :=
  { ofMemory (Memory.empty.set startAddress shift.accumulatorOpcode) with
    a := byte
    flags := { Flags.ofByte 0x30 with carry } }

theorem facing_faces (shift : Shift) (byte : UInt8) (carry : Bool) :
    (facing shift byte carry).Faces shift.mnemonic .accumulator := by
  refine .accumulator ?_
  show decode ((Memory.empty.set startAddress shift.accumulatorOpcode).get startAddress) = _
  rw [Memory.get_set_self, shift.decode_accumulatorOpcode]

/-- Any bytes can pass by. -/
theorem exists_sweep {shifts : List Shift} {bytes : List UInt8}
    (hlength : shifts.length = bytes.length) (carry : Bool) :
    ∃ visits out, Sweep shifts carry visits out ∧ bytesBefore visits = bytes := by
  induction shifts generalizing bytes carry with
  | nil =>
    obtain rfl := List.length_eq_zero_iff.mp hlength.symm
    exact ⟨[], carry, .nil, rfl⟩
  | cons shift shifts ih =>
    cases bytes with
    | nil => cases hlength
    | cons byte bytes =>
      let s := facing shift byte carry
      obtain ⟨visits, out, hsweep, hbytes⟩ := ih (Nat.succ.inj hlength) s.step.1.flags.carry
      have hcons : Sweep (shift :: shifts) s.flags.carry ((s, .accumulator) :: visits) out :=
        .cons (facing_faces shift byte carry) hsweep
      exact ⟨_, out, hcons, congrArg (byte :: ·) hbytes⟩

end Cpu

/-! ### Whole numbers move through the carry -/

/--
**Chains of shifts are exact.**  Let a row of bytes be the number that it stands for with the lowest
byte first.  A shift to the left from the lowest byte up doubles it, up to the bit that falls out,
and leaves this bit, its highest, in the carry.  A shift to the right from the highest byte down
halves it, and leaves its lowest bit in the carry.  And a rotation to the left, with any carry, and
back to the right restores the bytes and the carry.  This holds of bytes that pass by one after the
other, in the accumulator or in memory, and of bytes that are held in different cells during one
run.  No shift fails; any bytes can pass by; and code that shifts different cells, each where it is
or through the accumulator, makes such a run wherever it lies, unless it lies in one of the cells.
-/
theorem shift_chains_exact :
    (∀ k carry bytes results out,
      Cpu.Shifting (.asl :: List.replicate k .rol) carry bytes results out →
        Numeral.binary.value results = 2 * Numeral.binary.value bytes % 256 ^ (k + 1) ∧
          out = (Numeral.binary.value bytes).testBit (8 * k + 7)) ∧
      (∀ k carry (bytes results : List UInt8) out,
        Cpu.Shifting (.lsr :: List.replicate k .ror) carry bytes.reverse results.reverse out →
          Numeral.binary.value results = Numeral.binary.value bytes / 2 ∧
            out = (Numeral.binary.value bytes).testBit 0) ∧
      (∀ n carry bytes between (results : List UInt8) turned out,
        Cpu.Shifting (List.replicate n .rol) carry bytes between turned →
        Cpu.Shifting (List.replicate n .ror) turned between.reverse results.reverse out →
          results = bytes ∧ out = carry) ∧
      (∀ (s : Cpu) (shift : Shift) place, s.Faces shift.mnemonic place → s.step.2 = none) ∧
      (∀ (shifts : List Shift) (bytes : List UInt8) carry, shifts.length = bytes.length →
        ∃ results out, Cpu.Shifting shifts carry bytes results out) ∧
      ∀ (s : Cpu) (jobs : List ShiftJob),
        s.memory.Holds s.pc (jobs.flatMap ShiftJob.code) →
        (∀ job ∈ jobs, job.cell ∉ Memory.extent s.pc (jobs.flatMap ShiftJob.code)) →
          ∃ t, Cpu.Tour (jobs.map ShiftJob.cell) (jobs.map ShiftJob.shift)
            (jobs.map ShiftJob.cell) s t := by
  refine ⟨?_, ?_, ?_, ?_, ?_, ?_⟩
  · intro k carry bytes results out h
    exact h.row.doubles
  · intro k carry bytes results out h
    exact h.row.halves
  · intro n carry bytes between results turned out hup hdown
    exact hup.row.restores hdown.row
  · intro s shift place h
    exact h.shift_spec.1
  · intro shifts bytes carry hlength
    obtain ⟨visits, out, hsweep, rfl⟩ := Cpu.exists_sweep hlength carry
    exact ⟨_, out, .passing hsweep⟩
  · intro s jobs hholds hapart
    have hbefore : Cpu.Before (jobs.map ShiftJob.cell) (jobs.flatMap ShiftJob.code) s := by
      refine ⟨hholds, fun c hc => ?_⟩
      obtain ⟨job, hjob, rfl⟩ := List.mem_map.mp hc
      exact hapart job hjob
    exact hbefore.exists_tour fun job hjob => List.mem_map_of_mem hjob

end Mos6502
