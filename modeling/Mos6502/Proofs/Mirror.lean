/-
The display shows what is in memory.

A session has many writers: the assembler with its bytes and the zero behind them, stores,
read-modify-write instructions, pushes, the random cell, a key, the clearing of a reset.  All
that matters about them is that none of them touches a cell in another way than by a write.
`Reaches` says this of two memories, and each part of a session is gone through once to see
that it only ever reaches memories in this way.

The other half is about a single write.  It tells the display, which changes the one pixel of
the cell that was written, and so goes on showing what is there.
-/
import Mos6502.Proofs.Imprint
import Mos6502.Proofs.Schedule
import Mos6502.Session

namespace Mos6502

/-! ### Nothing but writes -/

namespace Memory

variable {memory memory' memory'' : Memory}

/-- Some writes lead from one memory to another. -/
def Reaches (memory memory' : Memory) : Prop :=
  ∃ changes, memory' = memory.apply changes

theorem Reaches.refl (memory : Memory) : memory.Reaches memory :=
  ⟨[], rfl⟩

theorem Reaches.trans (h : memory.Reaches memory') (h' : memory'.Reaches memory'') :
    memory.Reaches memory'' := by
  obtain ⟨first, rfl⟩ := h
  obtain ⟨second, rfl⟩ := h'
  exact ⟨first ++ second, (apply_append memory first second).symm⟩

theorem reaches_apply (memory : Memory) (changes : List Change) :
    memory.Reaches (memory.apply changes) :=
  ⟨changes, rfl⟩

theorem reaches_set (memory : Memory) (address : UInt16) (value : UInt8) :
    memory.Reaches (memory.set address value) :=
  reaches_apply memory [⟨address, value⟩]

theorem reaches_clear (memory : Memory) (first last : UInt16) :
    memory.Reaches (memory.clear first last) := by
  rw [clear_eq_apply]
  exact reaches_apply _ _

end Memory

namespace Cpu

theorem reaches_step (s : Cpu) : s.memory.Reaches s.step.1.memory :=
  ⟨s.writes, s.memory_step⟩

end Cpu

theorem Machine.reaches_step (m : Machine) : m.cpu.memory.Reaches m.step.1.cpu.memory :=
  (Memory.reaches_set _ _ _).trans (Cpu.reaches_step m.refresh.cpu)

namespace Simulator

theorem reaches_execute (s : Simulator) (debugging : Bool) :
    s.memory.Reaches (s.execute debugging).1.memory := by
  show s.machine.cpu.memory.Reaches (s.execute debugging).1.machine.cpu.memory
  rcases machine_execute s debugging with hsame | hstep
  · rw [hsame]
    exact .refl _
  · rw [hstep]
    exact s.machine.reaches_step

theorem reaches_tick (s : Simulator) : s.memory.Reaches s.tick.1.memory :=
  (ticked_tick s).keeps (P := fun t => s.memory.Reaches t.memory) (.refl _)
    (fun t ht => ht.trans (reaches_execute t false)) fun _ ht => ht

theorem reaches_toggle (s : Simulator) : s.memory.Reaches s.toggle.memory := by
  unfold toggle
  split <;> exact .refl _

theorem machine_reset (s : Simulator) :
    s.reset.machine = ⟨Cpu.ofMemory (s.memory.clear 0 startAddress), s.machine.random⟩ := by
  have hcpu : s.reset.cpu = (s.cpu.mapMemory fun memory => memory.clear 0 startAddress).reset :=
    rfl
  have hmachine : s.reset.machine = ⟨s.reset.cpu, s.machine.random⟩ := rfl
  rw [hmachine, hcpu, Cpu.reset, Cpu.mapMemory, memory]

theorem memory_reset (s : Simulator) : s.reset.memory = s.memory.clear 0 startAddress := by
  rw [memory, cpu, machine_reset, Cpu.ofMemory]

theorem reaches_reset (s : Simulator) : s.memory.Reaches s.reset.memory := by
  rw [memory_reset]
  exact Memory.reaches_clear _ _ _

theorem reaches_goto (s : Simulator) (labels : Labels) (input : Text) :
    s.memory.Reaches (s.goto labels input).1.memory := by
  unfold goto
  simp only
  split <;> exact .refl _

theorem foldl_report (events : List Event) (s : Simulator) :
    events.foldl (fun s event => s.report event) s = { s with events := s.events ++ events } := by
  induction events generalizing s with
  | nil => simp
  | cons event rest ih =>
    rw [List.foldl_cons, ih, events_report]
    simp [report]

end Simulator

/-! ### What a session can be asked -/

namespace Session

/-- What a host can ask a session. -/
inductive Call where
  | assemble (source : Text)
  | toggle
  | tick
  | step
  | setStepper (on : Bool)
  | reset
  | goto (input : Text)
  | press (key : UInt8)
  | dump
  | disassemble
deriving DecidableEq, Repr

/-- The session after a call, whether it succeeded or failed. -/
def call (s : Session) : Call → Session
  | .assemble source => (s.assemble source).1
  | .toggle => s.toggle
  | .tick => s.tick.1
  | .step => s.step.1
  | .setStepper on => s.setStepper on
  | .reset => s.reset
  | .goto input => (s.goto input).1
  | .press key => s.press key
  | .dump => s.dump.1
  | .disassemble => s.disassemble.1

/-- The session after some calls. -/
def after (s : Session) (calls : List Call) : Session :=
  calls.foldl call s

theorem reaches_assemble (s : Session) (source : Text) :
    s.simulator.memory.Reaches (s.assemble source).1.simulator.memory := by
  obtain ⟨assembly, simulator⟩ := s
  show simulator.memory.Reaches (Simulator.memory (List.foldl _ _ _))
  rw [Simulator.foldl_report]
  exact simulator.reaches_reset.trans (Memory.reaches_apply _ _)

theorem reaches_call (s : Session) (c : Call) :
    s.simulator.memory.Reaches (s.call c).simulator.memory := by
  cases c with
  | assemble source => exact s.reaches_assemble source
  | toggle => exact s.simulator.reaches_toggle
  | tick => exact s.simulator.reaches_tick
  | step => exact s.simulator.reaches_execute true
  | reset => exact s.simulator.reaches_reset
  | goto input => exact s.simulator.reaches_goto s.assembly.labels input
  | press key => exact Memory.reaches_set _ _ _
  | setStepper | dump | disassemble => exact .refl _

theorem reaches_after (s : Session) (calls : List Call) :
    s.simulator.memory.Reaches (s.after calls).simulator.memory := by
  induction calls generalizing s with
  | nil => exact .refl _
  | cons c rest ih => exact (s.reaches_call c).trans (ih (s.call c))

end Session

/-! ### What the display shows -/

/-- The cell of a pixel, counted row by row. -/
def cellAddress (cell : Fin 1024) : UInt16 :=
  0x0200 + UInt16.ofNat cell.val

theorem toNat_cellAddress (cell : Fin 1024) : (cellAddress cell).toNat = 0x0200 + cell.val := by
  have hcell := cell.isLt
  rw [cellAddress, UInt16.toNat_add, UInt16.toNat_ofNat']
  simp only [UInt16.reduceToNat]
  omega

/-- Every pixel has one cell, and the cells are those of the display. -/
theorem displayCell?_eq_some_iff {address : UInt16} {cell : Fin 1024} :
    displayCell? address = some cell ↔ address = cellAddress cell := by
  have hcell := cell.isLt
  rw [← UInt16.toNat_inj, toNat_cellAddress, displayCell?]
  split
  · rw [Option.some.injEq, Fin.ext_iff]
    show address.toNat - 0x0200 = cell.val ↔ _
    omega
  · simp only [reduceCtorEq, false_iff]
    omega

namespace Memory

variable {memory memory' : Memory}

/-- One display watches the memory, nobody is holding it, and each pixel shows its cell. -/
def Mirrored (memory : Memory) : Prop :=
  ∃ display, memory.watchers = [.screen display false] ∧
    ∀ cell : Fin 1024, display.pixels.get cell = Shade.ofByte (memory.get (cellAddress cell))

/-- A display is the picture of a memory if each pixel shows its cell. -/
theorem eq_picture_iff {display : Display} :
    display = memory.picture ↔
      ∀ cell : Fin 1024, display.pixels.get cell = Shade.ofByte (memory.get (cellAddress cell)) := by
  have hpicture : ∀ cell : Fin 1024,
      memory.picture.pixels.get cell = Shade.ofByte (memory.get (cellAddress cell)) := by
    intro cell
    show memory.picture.pixels[cell.val] = _
    simp only [picture, Vector.getElem_ofFn]
    rfl
  constructor
  · rintro rfl
    exact hpicture
  · intro hpixels
    obtain ⟨pixels⟩ := display
    refine congrArg Display.mk (Vector.ext fun i hi => ?_)
    exact (hpixels ⟨i, hi⟩).trans (hpicture ⟨i, hi⟩).symm

theorem mirrored_attachDisplay (h : memory.watchers = []) : memory.attachDisplay.Mirrored := by
  refine ⟨memory.picture, ?_, eq_picture_iff.mp rfl⟩
  show memory.watchers ++ _ = _
  rw [h]
  rfl

/-- A write changes the pixel of its cell, if the cell has one, and no other. -/
theorem picture_set (memory : Memory) (address : UInt16) (value : UInt8) :
    (memory.set address value).picture = memory.picture.update address value := by
  symm
  rw [eq_picture_iff]
  intro cell
  have hpixel : memory.picture.pixels[cell] = Shade.ofByte (memory.get (cellAddress cell)) :=
    eq_picture_iff.mp rfl cell
  show (memory.picture.update address value).pixels[cell] = _
  rw [get_set]
  cases hcell : displayCell? address with
  | none =>
    have hother : cellAddress cell ≠ address := by
      intro heq
      rw [displayCell?_eq_some_iff.mpr heq.symm] at hcell
      cases hcell
    rw [Display.update_of_outside hcell, if_neg hother, hpixel]
  | some written =>
    rw [Display.getElem_update_of_cell hcell, displayCell?_eq_some_iff.mp hcell]
    by_cases hsame : cell = written
    · rw [if_pos hsame, if_pos (congrArg cellAddress hsame)]
    · have hother : cellAddress cell ≠ cellAddress written := by
        intro heq
        have hnat := congrArg UInt16.toNat heq
        rw [toNat_cellAddress, toNat_cellAddress] at hnat
        exact hsame (Fin.ext (Nat.add_left_cancel hnat))
      rw [if_neg hsame, if_neg hother, hpixel]

theorem Mirrored.set (h : memory.Mirrored) (address : UInt16) (value : UInt8) :
    (memory.set address value).Mirrored := by
  obtain ⟨display, hwatchers, hpixels⟩ := h
  obtain rfl := eq_picture_iff.mpr hpixels
  refine ⟨(memory.set address value).picture, ?_, eq_picture_iff.mp rfl⟩
  rw [watchers_set, hwatchers, picture_set]
  rfl

theorem Mirrored.of_reaches (h : memory.Mirrored) (hreaches : memory.Reaches memory') :
    memory'.Mirrored := by
  obtain ⟨changes, rfl⟩ := hreaches
  induction changes generalizing memory with
  | nil => exact h
  | cons change rest ih => exact ih (h.set change.address change.value)

end Memory

/-- The low half of a byte as a shade. -/
theorem Shade.ofNat_ofByte (value : UInt8) :
    UInt8.ofNat (Shade.ofByte value).val = value &&& 0x0f := by
  apply UInt8.toNat_inj.mp
  have hvalue := value.toNat_lt
  rw [UInt8.toNat_and, UInt8.toNat_ofNat']
  show value.toNat % 16 % 256 = value.toNat &&& (2 ^ 4 - 1)
  rw [Nat.and_two_pow_sub_one_eq_mod]
  omega

/--
**The display shows what is in memory.**  Whatever calls a session has had, and whether they
succeeded or failed, the pixel in every column and row is the low half of its cell.
-/
theorem display_shows_memory (config : Config) (calls : List Session.Call) (x y : Fin 32) :
    UInt8.ofNat ((((Session.new config).after calls).display.pixel x.val y.val).val) =
      ((Session.new config).after calls).simulator.memory.get
        (UInt16.ofNat (0x0200 + 32 * y.val + x.val)) &&& 0x0f := by
  have hnew : (Session.new config).simulator.memory.Mirrored :=
    Memory.mirrored_attachDisplay rfl
  obtain ⟨display, hwatchers, hpixels⟩ :=
    hnew.of_reaches ((Session.new config).reaches_after calls)
  have hdisplay : ((Session.new config).after calls).display = display := by
    simp only [Session.display, Memory.display?, hwatchers]
    rfl
  have hx := x.isLt
  have hy := y.isLt
  have hcell : y.val % 32 * 32 + x.val % 32 < 1024 := by
    omega
  have haddress : cellAddress ⟨y.val % 32 * 32 + x.val % 32, hcell⟩ =
      UInt16.ofNat (0x0200 + 32 * y.val + x.val) := by
    apply UInt16.toNat_inj.mp
    rw [toNat_cellAddress, UInt16.toNat_ofNat']
    show 0x0200 + (y.val % 32 * 32 + x.val % 32) = _
    omega
  rw [hdisplay, ← haddress, ← Shade.ofNat_ofByte, ← hpixels]
  rfl

end Mos6502
