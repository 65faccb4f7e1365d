/-
A program of stores runs to its end and leaves in memory what it says.

Such a program never jumps, so all that could go wrong is that its code changes under it.
`Ahead` is the invariant: the rest of the code is where the machine stands, and none of the
addresses that may be written is in it.  Each instruction takes its own bytes off the front
(`Ahead.pass`), whatever it writes, and what remains in the end is the zero that the assembler
put behind the code, which is a break.

Two memories are alike if they differ in the random cell only.  Up to that, a run writes what
the puts say, in their order (`halts_of_ahead`), and the rest is what the reset left there.
-/
import Mos6502.Proofs.Ending
import Mos6502.Proofs.Mirror
import Mos6502.Proofs.PutProgram

namespace Mos6502

/-! ### Bytes in memory -/

namespace Memory

variable {memory : Memory} {address : UInt16} {b : UInt8} {bytes rest : List UInt8}

/-- The cells that some bytes take up. -/
def extent (address : UInt16) (bytes : List UInt8) : List UInt16 :=
  (changesFrom address bytes).map Change.address

theorem extent_append (address : UInt16) (bytes rest : List UInt8) :
    extent address (bytes ++ rest) =
      extent address bytes ++ extent (address + UInt16.ofNat bytes.length) rest := by
  rw [extent, changesFrom_append, List.map_append]
  rfl

theorem mem_extent (h : bytes ≠ []) : address ∈ extent address bytes := by
  obtain ⟨b, rest, rfl⟩ := List.exists_cons_of_ne_nil h
  rw [extent, changesFrom_cons, List.map_cons]
  exact List.mem_cons_self ..

/-- Some bytes are in consecutive cells. -/
def Holds (memory : Memory) (address : UInt16) (bytes : List UInt8) : Prop :=
  ∀ change ∈ changesFrom address bytes, memory.get change.address = change.value

theorem holds_cons : memory.Holds address (b :: rest) ↔
    memory.get address = b ∧ memory.Holds (address + 1) rest := by
  rw [Holds, changesFrom_cons, List.forall_mem_cons]
  rfl

theorem Holds.of_append (h : memory.Holds address (bytes ++ rest)) :
    memory.Holds (address + UInt16.ofNat bytes.length) rest := by
  intro change hchange
  refine h change ?_
  rw [changesFrom_append]
  exact List.mem_append_right _ hchange

/-- Writes to other cells do not touch them. -/
theorem Holds.apply (h : memory.Holds address bytes) {changes : List Change}
    (hother : ∀ change ∈ changes, change.address ∉ extent address bytes) :
    (memory.apply changes).Holds address bytes := by
  intro held hheld
  rw [get_apply_of_notMem, h held hheld]
  intro hwritten
  obtain ⟨change, hchange, heq⟩ := List.mem_map.mp hwritten
  exact hother change hchange (List.mem_map.mpr ⟨held, hheld, heq.symm⟩)

/-- Behind some of the bytes the others stay, if nothing is written but cells that all of them
leave free. -/
theorem Holds.pass {reserved : List UInt16} (h : memory.Holds address (bytes ++ rest))
    (hapart : ∀ cell ∈ reserved, cell ∉ extent address (bytes ++ rest)) {changes : List Change}
    (hreserved : ∀ change ∈ changes, change.address ∈ reserved) :
    (memory.apply changes).Holds (address + UInt16.ofNat bytes.length) rest ∧
      ∀ cell ∈ reserved, cell ∉ extent (address + UInt16.ofNat bytes.length) rest := by
  have hbehind : ∀ cell ∈ reserved,
      cell ∉ extent (address + UInt16.ofNat bytes.length) rest := by
    intro cell hcell hmem
    refine hapart cell hcell ?_
    rw [extent_append]
    exact List.mem_append_right _ hmem
  exact ⟨h.of_append.apply fun change hchange => hbehind _ (hreserved change hchange), hbehind⟩

end Memory

/-! ### One instruction -/

namespace Machine

variable {reserved : List UInt16} {m next : Machine} {v : UInt8} {a : UInt16}
  {first rest : List UInt8} {puts : List Put}

/-- Some code is ahead of the machine.  No signal is pending, and none of the reserved
addresses is in the code. -/
structure Ahead (reserved : List UInt16) (code : List UInt8) (m : Machine) : Prop where
  quiet : m.cpu.signals = []
  holds : m.cpu.memory.Holds m.cpu.pc code
  apart : ∀ address ∈ reserved, address ∉ Memory.extent m.cpu.pc code

/-- Behind some of the code the rest is ahead, if only reserved addresses were written. -/
theorem Ahead.pass (h : Ahead reserved (first ++ rest) m) (hquiet : next.cpu.signals = [])
    (hpc : next.cpu.pc = m.cpu.pc + UInt16.ofNat first.length) {changes : List Change}
    (hmemory : next.cpu.memory = m.cpu.memory.apply changes)
    (hreserved : ∀ change ∈ changes, change.address ∈ reserved) : Ahead reserved rest next := by
  obtain ⟨hholds, hapart⟩ := h.holds.pass h.apart hreserved
  rw [← hmemory, ← hpc] at hholds
  exact ⟨hquiet, hholds, hpc ▸ hapart⟩

/-- The machine is not at zero before its code is. -/
theorem Ahead.pc_ne_zero (h : Ahead reserved rest m) (hne : rest ≠ []) (hzero : 0 ∈ reserved) :
    m.cpu.pc ≠ 0 :=
  fun hpc => h.apart 0 hzero (hpc ▸ Memory.mem_extent hne)

/-- The refresh of the random cell leaves the code as it is. -/
theorem Ahead.refresh (h : Ahead reserved rest m) (hrandom : randomAddress ∈ reserved) :
    m.refresh.cpu.memory.Holds m.cpu.pc rest := by
  have hmemory : m.refresh.cpu.memory =
      m.cpu.memory.apply [⟨randomAddress, m.random.next.byte⟩] := rfl
  rw [hmemory]
  refine h.holds.apply ?_
  rw [List.forall_mem_singleton]
  exact h.apart _ hrandom

theorem step_of_decode {op : Operation}
    (h : decode (m.refresh.cpu.memory.get m.cpu.pc) = some op) (hcli : op.mnemonic ≠ .cli)
    (hsei : op.mnemonic ≠ .sei) :
    m.step = (⟨(m.refresh.cpu.executed op).count, m.random.next⟩, none) := by
  have hstep : m.refresh.cpu.step = ((m.refresh.cpu.executed op).count, none) :=
    Cpu.step_of_decode h hcli hsei
  rw [step_eq, hstep]
  rfl

/-- What one instruction of straight-line code does besides: it is counted, goes on behind its
bytes, and leaves the rest of the code ahead. -/
structure Passes (reserved : List UInt16) (size : UInt16) (rest : List UInt8)
    (m next : Machine) : Prop where
  step : m.step = (next, none)
  pc : next.cpu.pc = m.cpu.pc + size
  counted : next.cpu.instructions = m.cpu.instructions + 1
  ahead : Ahead reserved rest next

section

variable (hrandom : randomAddress ∈ reserved)

include hrandom

/-- Loading a byte into the accumulator. -/
theorem step_load (h : Ahead reserved (0xa9 :: v :: rest) m) :
    ∃ next, Passes reserved 2 rest m next ∧ next.cpu.a = v ∧
      next.cpu.memory.Alike m.cpu.memory := by
  obtain ⟨hopcode, hrest⟩ := Memory.holds_cons.mp (h.refresh hrandom)
  obtain ⟨hvalue, -⟩ := Memory.holds_cons.mp hrest
  have hdecode : decode (m.refresh.cpu.memory.get m.cpu.pc) = some ⟨.lda, .immediate⟩ := by
    rw [hopcode]
    decide +kernel
  have hahead : Ahead reserved ([0xa9, v] ++ rest) m := h
  refine ⟨_, ⟨step_of_decode hdecode (by decide) (by decide), rfl, rfl, ?_⟩, hvalue,
    Memory.alike_set_random _ _⟩
  have hmemory : (m.refresh.cpu.executed ⟨.lda, .immediate⟩).count.memory =
      m.cpu.memory.apply [⟨randomAddress, m.random.next.byte⟩] := rfl
  exact hahead.pass h.quiet rfl hmemory (by simpa using hrandom)

/-- Storing the accumulator. -/
theorem step_store (h : Ahead reserved (0x8d :: lowByte a :: highByte a :: rest) m)
    (ha : a ∈ reserved) :
    ∃ next, Passes reserved 3 rest m next ∧
      next.cpu.memory.Alike (m.cpu.memory.set a m.cpu.a) := by
  obtain ⟨hopcode, hrest⟩ := Memory.holds_cons.mp (h.refresh hrandom)
  obtain ⟨hlow, hrest⟩ := Memory.holds_cons.mp hrest
  obtain ⟨hhigh, -⟩ := Memory.holds_cons.mp hrest
  have hdecode : decode (m.refresh.cpu.memory.get m.cpu.pc) = some ⟨.sta, .absolute⟩ := by
    rw [hopcode]
    decide +kernel
  have haddress : m.refresh.cpu.effectiveAddress .absolute = a := by
    show wordOf (m.refresh.cpu.memory.get (m.cpu.pc + 1))
      (m.refresh.cpu.memory.get (m.cpu.pc + 1 + 1)) = a
    rw [hlow, hhigh, wordOf_lowByte_highByte]
  have hmemory : (m.refresh.cpu.executed ⟨.sta, .absolute⟩).count.memory =
      m.cpu.memory.apply [⟨randomAddress, m.random.next.byte⟩, ⟨a, m.cpu.a⟩] := by
    show m.refresh.cpu.memory.set (m.refresh.cpu.effectiveAddress .absolute) m.cpu.a = _
    rw [haddress]
    rfl
  have hahead : Ahead reserved ([0x8d, lowByte a, highByte a] ++ rest) m := h
  refine ⟨_, ⟨step_of_decode hdecode (by decide) (by decide), rfl, rfl, ?_⟩, ?_⟩
  · exact hahead.pass h.quiet rfl hmemory (by simp [hrandom, ha])
  · rw [hmemory]
    exact (Memory.alike_set_random m.cpu.memory _).apply [⟨a, m.cpu.a⟩]

/-- The zero behind the code is a break. -/
theorem halts_of_break (h : Ahead reserved [0] m) :
    ∃ m', Halts 0 m m' ∧ m'.cpu.pc = m.cpu.pc + 1 ∧
      m'.cpu.instructions = m.cpu.instructions + 1 ∧ m'.cpu.memory.Alike m.cpu.memory := by
  obtain ⟨hopcode, -⟩ := Memory.holds_cons.mp (h.refresh hrandom)
  have hdecode : decode (m.refresh.cpu.memory.get m.cpu.pc) = some ⟨.brk, .implicit⟩ := by
    rw [hopcode]
    decide +kernel
  have hsignals : (m.refresh.cpu.executed ⟨.brk, .implicit⟩).count.signals = [.halt] := by
    show m.cpu.signals ++ [.halt] = _
    rw [h.quiet]
    rfl
  exact ⟨_, .last (step_of_decode hdecode (by decide) (by decide)) hsignals, rfl, rfl,
    Memory.alike_set_random _ _⟩

end

/-! ### All instructions -/

/-- The code of some puts runs to its end.  Up to the random cell it writes what the puts say,
in their order. -/
theorem halts_of_ahead (hrandom : randomAddress ∈ reserved) (hzero : 0 ∈ reserved)
    (hputs : ∀ p ∈ puts, p.address ∈ reserved)
    (h : Ahead reserved (Put.program puts ++ [0]) m) :
    ∃ m', Halts (2 * puts.length) m m' ∧
      m'.cpu.pc = m.cpu.pc + UInt16.ofNat (5 * puts.length) + 1 ∧
      m'.cpu.instructions = m.cpu.instructions + 2 * puts.length + 1 ∧
      m'.cpu.memory.Alike (m.cpu.memory.apply (puts.map Put.change)) := by
  induction puts generalizing m with
  | nil =>
    obtain ⟨m', hhalts, hpc, hcounted, halike⟩ := halts_of_break hrandom h
    refine ⟨m', hhalts, ?_, hcounted, halike⟩
    rw [hpc]
    exact congrArg (· + 1) (UInt16.add_zero _).symm
  | cons p rest ih =>
    rw [List.forall_mem_cons] at hputs
    -- Two steps for the first put.  All that they write is reserved, so the rest is still ahead.
    have hload : Ahead reserved (0xa9 :: p.value :: 0x8d :: lowByte p.address ::
        highByte p.address :: (Put.program rest ++ [0])) m := h
    obtain ⟨loaded, hloaded, ha, hsame⟩ := step_load hrandom hload
    obtain ⟨stored, hstored, hwritten⟩ := step_store hrandom hloaded.ahead hputs.1
    obtain ⟨m', hhalts, hpc, hcounted, halike⟩ := ih hputs.2 hstored.ahead
    have hend : Put.program rest ++ [0] ≠ [] := by simp
    refine ⟨m', ?_, ?_, ?_, ?_⟩
    · exact .more hloaded.step hloaded.ahead.quiet (hloaded.ahead.pc_ne_zero (by simp) hzero)
        (.more hstored.step hstored.ahead.quiet (hstored.ahead.pc_ne_zero hend hzero) hhalts)
    · rw [hpc, hstored.pc, hloaded.pc, List.length_cons, Nat.mul_succ, Nat.add_comm,
        UInt16.ofNat_add, UInt16.add_assoc m.cpu.pc, UInt16.add_assoc m.cpu.pc]
      rfl
    · rw [hcounted, hstored.counted, hloaded.counted, List.length_cons]
      omega
    · have hput : stored.cpu.memory.Alike (m.cpu.memory.apply [p.change]) := by
        rw [ha] at hwritten
        exact hwritten.trans (hsame.apply [p.change])
      exact halike.trans (hput.apply (rest.map Put.change))

end Machine

/-! ### From the reset to the end -/

variable {puts before after : List Put} {p : Put} {address : UInt16} {bytes : List UInt8}

theorem Memory.toNat_of_mem_extent (h : address ∈ Memory.extent startAddress bytes)
    (hfits : 0x0600 + bytes.length ≤ 0x10000) :
    0x0600 ≤ address.toNat ∧ address.toNat < 0x0600 + bytes.length := by
  rw [extent, map_address_changesFrom] at h
  obtain ⟨i, hi, rfl⟩ := List.mem_map.mp h
  have hi := List.mem_range.mp hi
  have hstart : startAddress.toNat = 0x0600 := rfl
  rw [UInt16.toNat_add, UInt16.toNat_ofNat', hstart]
  omega

theorem Put.length_program_zero (puts : List Put) :
    (program puts ++ [0]).length = 5 * puts.length + 1 := by
  rw [List.length_append, length_program, List.length_singleton]

/-- The code of some puts is ahead of a machine that it was loaded into. -/
theorem Machine.ahead_load (hlength : puts.length ≤ 12799)
    (hcode : ∀ p ∈ puts, p.address.toNat < 0x0600 ∨ 0x0600 + 5 * puts.length < p.address.toNat)
    (memory : Memory) (random : Random) :
    Ahead (0 :: randomAddress :: puts.map Put.address) (Put.program puts ++ [0])
      ⟨Cpu.ofMemory (memory.apply (Memory.changesFrom startAddress (Put.program puts ++ [0]))),
        random⟩ := by
  have hbytes := Put.length_program_zero puts
  refine ⟨rfl, fun change hchange => ?_, fun address haddress hmem => ?_⟩
  · exact Memory.get_apply_of_mem (Memory.nodup_changesFrom _ (by omega)) hchange memory
  · obtain ⟨hle, hlt⟩ := Memory.toNat_of_mem_extent hmem (by omega)
    rw [List.mem_cons, List.mem_cons] at haddress
    rcases haddress with rfl | rfl | hput
    · exact absurd hle (by decide)
    · exact absurd hle (by decide)
    · obtain ⟨p, hp, rfl⟩ := List.mem_map.mp hput
      have := hcode p hp
      omega

/-- The last put for an address decides. -/
theorem Put.get_apply_last (hlast : ∀ q ∈ after, q.address ≠ p.address) (memory : Memory) :
    (memory.apply ((before ++ p :: after).map change)).get p.address = p.value := by
  have hafter : p.address ∉ (after.map change).map Change.address := by
    simpa [change] using hlast
  rw [List.map_append, List.map_cons, Memory.apply_append, Memory.apply_cons,
    Memory.get_apply_of_notMem hafter]
  exact Memory.get_set_self _ _ _

/-- A cell below the program that no put is for is as the reset left it. -/
theorem Put.get_apply_below (haddress : address < startAddress)
    (hother : ∀ p ∈ puts, p.address ≠ address) (hlength : puts.length ≤ 12799) (memory : Memory) :
    (((memory.clear 0 startAddress).apply
      (Memory.changesFrom startAddress (program puts ++ [0]))).apply (puts.map change)).get
        address = 0 := by
  have hbytes := length_program_zero puts
  have hputs : address ∉ (puts.map change).map Change.address := by
    simpa [change] using hother
  have hbelow : address.toNat < 0x0600 := UInt16.lt_iff_toNat_lt.mp haddress
  have hcode : address ∉ Memory.extent startAddress (program puts ++ [0]) := by
    intro hmem
    have := (Memory.toNat_of_mem_extent hmem (by omega)).1
    omega
  rw [Memory.get_apply_of_notMem hputs, Memory.get_apply_of_notMem hcode]
  have hclear : (memory.clear 0 startAddress).get (0 + UInt16.ofNat address.toNat) = 0 :=
    Memory.get_clear hbelow memory
  rwa [UInt16.ofNat_toNat, UInt16.zero_add] at hclear

/-- An assembly reports no stop. -/
theorem Assembly.filterMap_stopReason? (source : Text) :
    (ofText source).events.filterMap Event.stopReason? = [] := by
  unfold ofText ofPrepared
  split
  · rfl
  · split
    · rfl
    · unfold complete
      split <;> rfl

namespace Session

variable {source : Text}

theorem simulator_assemble (s : Session) (source : Text) :
    (s.assemble source).1.simulator =
      { s.simulator.reset.mapMemory (Assembly.ofText source).load with
        events := s.simulator.reset.events ++ (Assembly.ofText source).events } := by
  obtain ⟨assembly, simulator⟩ := s
  exact Simulator.foldl_report _ _

/-- After an assembly the machine is reset, with the program in its memory. -/
theorem machine_assemble (s : Session) (source : Text) :
    (s.assemble source).1.simulator.machine =
      ⟨Cpu.ofMemory ((Assembly.ofText source).load (s.simulator.memory.clear 0 startAddress)),
        s.simulator.machine.random⟩ := by
  rw [simulator_assemble]
  show s.simulator.reset.machine.mapCpu _ = _
  rw [Simulator.machine_reset]
  generalize s.simulator.memory.clear 0 startAddress = memory
  rfl

theorem stops_assemble (s : Session) (source : Text) :
    (s.assemble source).1.simulator.stops = s.simulator.stops := by
  have hreset : s.simulator.reset.stops = s.simulator.stops :=
    (Simulator.stops_report _ .reset).trans (List.append_nil _)
  rw [simulator_assemble, Simulator.stops, Array.toList_appendList, List.filterMap_append,
    Assembly.filterMap_stopReason?, List.append_nil]
  exact hreset

theorem result_assemble (s : Session) (source : Text) :
    (s.assemble source).2 = (Assembly.ofText source).result := by
  obtain ⟨assembly, simulator⟩ := s
  rfl

/-- A program that was assembled and started: the machine is as after a reset, with the program
in its memory, and it runs. -/
theorem toggle_assemble (s : Session) (source : Text) :
    ∃ started, (s.assemble source).1.toggle.simulator = started ∧ started.running = true ∧
      started.stepper = s.simulator.stepper ∧ started.config = s.simulator.config ∧
      started.machine =
        ⟨Cpu.ofMemory ((Assembly.ofText source).load (s.simulator.memory.clear 0 startAddress)),
          s.simulator.machine.random⟩ ∧
      started.stops = s.simulator.stops := by
  have hassembled := s.simulator_assemble source
  have hstopped : (s.assemble source).1.simulator.running = false := by
    rw [hassembled]
    rfl
  have htoggle : (s.assemble source).1.toggle.simulator =
      Simulator.report .start { (s.assemble source).1.simulator with running := true } := by
    show (s.assemble source).1.simulator.toggle = _
    rw [Simulator.toggle, if_neg (by simp [hstopped])]
  refine ⟨_, htoggle, rfl, ?_, ?_, s.machine_assemble source, ?_⟩
  · rw [Simulator.stepper_report, hassembled]
    rfl
  · rw [Simulator.config_report, hassembled]
    rfl
  · rw [Simulator.stops_report]
    exact (List.append_nil _).trans (s.stops_assemble source)

theorem ticks_eq {s : Session} {t : Simulator} {count : Nat} {answer : Nat × Option Fault}
    (h : Simulator.ticks count 0 s.simulator = (t, answer)) :
    s.ticks count = (⟨s.assembly, t⟩, answer) := by
  obtain ⟨assembly, simulator⟩ := s
  rw [ticks, drive, h]

end Session

/--
**A program of stores runs to its end and leaves in memory what it says.**  For up to 12799
puts, none of them for the random cell or for the code, the program is assembled to five bytes
each.  Whatever happened in the session before, and whatever its batches are, as many ticks as
the instructions need execute all of them and the break behind, without a fault, and stop at
the end of the program.  Then every address has the value of its last put, and every other cell
below the program is zero, save for the random one.
-/
theorem puts_run_to_end {session : Session} {source : Text} (hne : puts ≠ [])
    (hlength : puts.length ≤ 12799) (hlines : splitLines source = puts.flatMap Put.lines)
    (hrandom : ∀ p ∈ puts, p.address ≠ randomAddress)
    (hcode : ∀ p ∈ puts, p.address.toNat < 0x0600 ∨ 0x0600 + 5 * puts.length < p.address.toNat)
    (hstepper : session.simulator.stepper = false)
    (hbatch : 1 ≤ session.simulator.config.batchSize) :
    ∃ assembled ended : Session,
      session.assemble source = (assembled, .ok ⟨5 * puts.length, 0⟩) ∧
      assembled.toggle.ticks ((2 * puts.length + 1) ⌈/⌉ session.simulator.config.batchSize) =
        (ended, 2 * puts.length + 1, none) ∧
      ended.simulator.cpu.instructions = 2 * puts.length + 1 ∧
      ended.simulator.running = false ∧
      ended.simulator.cpu.pc = UInt16.ofNat (0x0600 + 5 * puts.length + 1) ∧
      ended.simulator.stops = session.simulator.stops ++
        [.programEnd (UInt16.ofNat (0x0600 + 5 * puts.length))] ∧
      (∀ before p after, puts = before ++ p :: after → (∀ q ∈ after, q.address ≠ p.address) →
        ended.simulator.memory.get p.address = p.value) ∧
      ∀ address, address < startAddress → address ≠ randomAddress →
        (∀ p ∈ puts, p.address ≠ address) → ended.simulator.memory.get address = 0 := by
  obtain ⟨hresult, hchanges⟩ := ofText_puts hne hlines
  obtain ⟨started, hstarted, hrunning, hsuspended, hconfig, hmachine, hstops⟩ :=
    session.toggle_assemble source
  rw [Assembly.load, hchanges] at hmachine
  -- What a run may write: the puts, and the random cell.  Zero is kept out of the code as well,
  -- since a program counter of zero would end the program.
  have hahead := Machine.ahead_load hlength hcode
    (session.simulator.memory.clear 0 startAddress) session.simulator.machine.random
  rw [← hmachine] at hahead
  have hreserved : ∀ p ∈ puts, p.address ∈ 0 :: randomAddress :: puts.map Put.address :=
    fun p hp => List.mem_cons_of_mem _ (List.mem_cons_of_mem _ (List.mem_map_of_mem hp))
  obtain ⟨m', hhalts, hpc, hcounted, halike⟩ :=
    Machine.halts_of_ahead (by simp) (by simp) hreserved hahead
  obtain ⟨t, hticks, rfl, hended, hstop⟩ := Simulator.ticks_of_halts hhalts hrunning
    (hsuspended.trans hstepper) (hconfig ▸ hbatch)
  rw [hconfig, ← hstarted] at hticks
  rw [hmachine] at hpc hcounted halike
  have hlast : t.machine.cpu.pc = UInt16.ofNat (0x0600 + 5 * puts.length) + 1 := by
    rw [hpc, UInt16.ofNat_add]
    rfl
  refine ⟨_, ⟨_, t⟩, Prod.ext rfl ((session.result_assemble source).trans hresult),
    Session.ticks_eq hticks, ?_, hended, ?_, ?_, ?_, ?_⟩
  · exact hcounted.trans (congrArg (· + 1) (Nat.zero_add _))
  · rw [UInt16.ofNat_add]
    exact hlast
  · rw [hstop, hstops, hlast, UInt16.add_sub_cancel]
  · rintro before p after rfl hafter
    have hp : p.address ≠ randomAddress := hrandom p (by simp)
    exact (halike p.address hp).trans (Put.get_apply_last hafter _)
  · intro address haddress hother hputs
    exact (halike address hother).trans
      (Put.get_apply_below haddress hputs hlength session.simulator.memory)

/-- Into the display, the stack and the display again, in two batches of five. -/
theorem puts_run_to_end_twice :
    ∃ assembled ended : Session,
      (Session.new { batchSize := 5 }).assemble
        "LDA #$C0\nSTA $0200\nLDA #$05\nSTA $01fF\nLDA #$01\nSTA $0200\n".toList =
          (assembled, .ok ⟨15, 0⟩) ∧
      assembled.toggle.ticks 2 = (ended, 7, none) ∧
      ended.simulator.memory.get 0x0200 = 0x01 ∧ ended.simulator.memory.get 0x0201 = 0x00 := by
  let first : Put :=
    ⟨0xc0, 0x0200, "C0".toList, "0200".toList, rfl, rfl, by decide, by decide⟩
  let second : Put :=
    ⟨0x05, 0x01ff, "05".toList, "01fF".toList, rfl, rfl, by decide, by decide⟩
  let third := Put.of 0x01 0x0200
  obtain ⟨assembled, ended, hassemble, hticks, -, -, -, -, hlast, hother⟩ :=
    @puts_run_to_end [first, second, third] (Session.new { batchSize := 5 })
      "LDA #$C0\nSTA $0200\nLDA #$05\nSTA $01fF\nLDA #$01\nSTA $0200\n".toList
      (List.cons_ne_nil _ _) (by decide) (by decide +kernel) (by decide) (by decide) rfl
      (by decide)
  have hcount : (7 : Nat) ⌈/⌉ 5 = 2 := by
    rw [Nat.ceilDiv_eq_add_pred_div]
  have hticks : assembled.toggle.ticks (7 ⌈/⌉ 5) = (ended, 7, none) := hticks
  rw [hcount] at hticks
  refine ⟨assembled, ended, hassemble, hticks, ?_, ?_⟩
  · exact hlast [first, second] third [] rfl (by simp)
  · exact hother 0x0201 (by decide) (by decide) (by decide)

end Mos6502
