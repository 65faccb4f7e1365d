/-
What a display shows that was held now and then.

While a reader holds a display, writes to memory are lost to it: nobody makes up for them when the
reader gives it back.  So the display does not show what is in memory.  It shows what would be in
memory if only those writes had been made that came while nobody was holding it.  This is said of
the history of writes, in which every write is marked with whether the display was held, and not
of the memory as it is, in which nothing is missing.

The step is one call on the memory, which may write many cells, and which finds the display held
or not held throughout.  A call that writes is a row of writes, and a picture goes through a row of
writes like the memory that it is a picture of (`Memory.picture_apply`).
-/
import Mathlib.Data.List.Basic
import Mathlib.Data.List.Induction
import Mos6502.Proofs.ChangeLog
import Mos6502.Proofs.Mirror

namespace Mos6502

/-! ### The last write to a cell -/

namespace Memory

/-- What the last of some writes to a cell left there, if any of them went there. -/
def lastTo? (changes : List Change) (address : UInt16) : Option UInt8 :=
  (changes.filter fun change => change.address == address).getLast?.map Change.value

theorem get_apply_eq_lastTo? (memory : Memory) (changes : List Change) (address : UInt16) :
    (memory.apply changes).get address = (lastTo? changes address).getD (memory.get address) := by
  induction changes using List.reverseRecOn with
  | nil => rfl
  | append_singleton front change ih =>
    rw [apply_append, apply_cons, apply_nil, get_set, ih, lastTo?, lastTo?, List.filter_append]
    by_cases h : address = change.address
    · simp [h]
    · have hother : (change.address == address) = false := beq_false_of_ne (Ne.symm h)
      simp [h, hother]

end Memory

/-! ### Rows of writes and those who watch -/

/-- A watcher that was told about some changes, one after another. -/
def Watcher.notifyAll (changes : List Change) (watcher : Watcher) : Watcher :=
  changes.foldl (fun watcher change => watcher.notify change) watcher

namespace Memory

theorem watchers_apply (memory : Memory) (changes : List Change) :
    (memory.apply changes).watchers = memory.watchers.map (Watcher.notifyAll changes) := by
  induction changes generalizing memory with
  | nil => exact (List.map_id _).symm
  | cons change rest ih =>
    rw [apply_cons, ih, watchers_set, List.map_map]
    rfl

/-- A screen that shows a picture of the memory goes on to do so as far as it is told of writes. -/
theorem notifyAll_picture (memory : Memory) (held : Bool) (changes : List Change) :
    Watcher.notifyAll changes (.screen memory.picture held) =
      .screen (memory.apply (if held then [] else changes)).picture held := by
  cases held with
  | true =>
    induction changes with
    | nil => rfl
    | cons change rest ih => exact ih
  | false =>
    induction changes generalizing memory with
    | nil => rfl
    | cons change rest ih =>
      have hset : Watcher.notify change (.screen memory.picture false) =
          .screen (memory.set change.address change.value).picture false := by
        rw [picture_set]
        rfl
      rw [Watcher.notifyAll, List.foldl_cons, hset]
      exact ih (memory.set change.address change.value)

end Memory

/-! ### A reader among the calls on a memory -/

namespace Board

/-- What happens to a memory with a display: a call on it, or a reader who takes the display or
gives it back. -/
inductive Turn where
  | call (call : Call)
  | hold
  | release
deriving DecidableEq, Repr

/-- A write, and whether the display was held when it was made. -/
structure Occurrence where
  change : Change
  held : Bool
deriving DecidableEq, Repr

/-- The write, if the display was told of it. -/
def Occurrence.shown? (o : Occurrence) : Option Change :=
  if o.held then none else some o.change

/-- Whether the display is held after a turn. -/
def Turn.holds (held : Bool) : Turn → Bool
  | .call _ => held
  | .hold => true
  | .release => false

variable (b : Board) (held : Bool) (turn : Turn) (turns : List Turn)

/-- The board after a turn. -/
def take : Turn → Board
  | .call call => b.perform call
  | .hold => b.mapMemory fun memory => memory.hold true
  | .release => b.mapMemory fun memory => memory.hold false

/-- What is written in a turn. -/
def turnWrites : Turn → List Change
  | .call call => b.writes call
  | .hold | .release => []

/-- The board after some turns. -/
def afterTurns : Board :=
  turns.foldl take b

/-- All writes of some turns, in order. -/
def history (b : Board) (held : Bool) : List Turn → List Occurrence
  | [] => []
  | turn :: rest =>
    (b.turnWrites turn).map (fun change => ⟨change, turn.holds held⟩) ++
      (b.take turn).history (turn.holds held) rest

/-- A display that shows the memory as it is, and goes on to watch it. -/
def attachDisplay : Board :=
  b.mapMemory Memory.attachDisplay

/-! ### One turn -/

theorem cells_take : (b.take turn).memory.cells = (b.memory.apply (b.turnWrites turn)).cells := by
  cases turn with
  | call call => exact b.cells_perform call
  | hold | release => rfl

variable {b held} in
/-- A screen with a picture of some memory, which need not be the one that it watches, shows
afterwards what the writes of the turn make of that memory if it was told of them. -/
theorem screen_take {n : Nat} {shown : Memory}
    (h : b.memory.watchers[n]? = some (.screen shown.picture held)) :
    (b.take turn).memory.watchers[n]? =
      some (.screen (shown.apply (if turn.holds held then [] else b.turnWrites turn)).picture
        (turn.holds held)) := by
  cases turn with
  | call call =>
    by_cases hlisten : call = .listen
    · subst hlisten
      obtain ⟨hn, -⟩ := List.getElem?_eq_some_iff.mp h
      show (b.perform .listen).memory.watchers[n]? = some (.screen
        (shown.apply (if held then [] else [])).picture held)
      rw [memory_listen, ite_self]
      exact (List.getElem?_append_left hn).trans h
    · show (b.perform call).memory.watchers[n]? = _
      rw [b.memory_perform hlisten, Memory.watchers_apply, List.getElem?_map, h, Option.map_some,
        Memory.notifyAll_picture]
      rfl
  | hold =>
    show (b.memory.hold true).watchers[n]? = _
    simp only [Memory.hold, List.getElem?_map, h]
    rfl
  | release =>
    show (b.memory.hold false).watchers[n]? = _
    simp only [Memory.hold, List.getElem?_map, h]
    rfl

/-! ### Many turns -/

/-- All writes reach the memory, whether the display is held or not. -/
theorem cells_afterTurns :
    (b.afterTurns turns).memory.cells =
      (b.memory.apply ((b.history held turns).map Occurrence.change)).cells := by
  induction turns generalizing b held with
  | nil => rfl
  | cons turn rest ih =>
    show ((b.take turn).afterTurns rest).memory.cells = _
    rw [ih (b.take turn) (turn.holds held), history, List.map_append, List.map_map,
      Memory.apply_append, Memory.cells_apply_congr (b.cells_take turn)]
    simp [Function.comp_def]

variable {b held} in
theorem screen_afterTurns {n : Nat} {shown : Memory}
    (h : b.memory.watchers[n]? = some (.screen shown.picture held)) :
    (b.afterTurns turns).memory.watchers[n]? =
      some (.screen (shown.apply ((b.history held turns).filterMap Occurrence.shown?)).picture
        (turns.foldl Turn.holds held)) := by
  induction turns generalizing b held shown with
  | nil => exact h
  | cons turn rest ih =>
    have hshown : ((b.turnWrites turn).map fun change =>
          (⟨change, turn.holds held⟩ : Occurrence)).filterMap Occurrence.shown? =
        if turn.holds held then [] else b.turnWrites turn := by
      rw [List.filterMap_map]
      cases hheld : turn.holds held <;> simp [Function.comp_def, Occurrence.shown?]
    rw [history, List.filterMap_append, hshown, Memory.apply_append]
    exact ih (screen_take turn h)

end Board

/-! ### Row by row -/

theorem range_mul (m n : Nat) :
    List.range (m * n) = (List.range m).flatMap fun y => (List.range n).map fun x => n * y + x := by
  induction m with
  | zero => rw [Nat.zero_mul]; rfl
  | succ m ih =>
    rw [Nat.succ_mul, List.range_add, ih, List.range_succ, List.flatMap_append,
      List.flatMap_singleton, Nat.mul_comm m n]

theorem Display.toList_pixels (display : Display) :
    display.pixels.toList =
      (List.range 32).flatMap fun y => (List.range 32).map fun x => display.pixel x y := by
  have hplaces : display.pixels.toList =
      (List.range (32 * 32)).map fun i => display.pixel (i % 32) (i / 32) := by
    refine List.ext_getElem (by simp) fun i hi _ => ?_
    rw [Vector.length_toList] at hi
    have hplace : i / 32 % 32 * 32 + i % 32 % 32 = i := by omega
    simp only [Vector.getElem_toList, List.getElem_map, List.getElem_range, Display.pixel, hplace]
  rw [hplaces, range_mul, List.map_flatMap]
  refine List.flatMap_congr fun y _ => ?_
  rw [List.map_map]
  refine List.map_congr_left fun x hx => ?_
  rw [List.mem_range] at hx
  have hcolumn : (32 * y + x) % 32 = x := by omega
  have hrow : (32 * y + x) / 32 = y := by omega
  rw [Function.comp_apply, hcolumn, hrow]

/-- The colours are listed row by row, and from left to right in each row. -/
theorem Display.rgba_eq (display : Display) :
    display.rgba = (List.range 32).flatMap fun y => (List.range 32).flatMap fun x =>
      [palette[display.pixel x y].red, palette[display.pixel x y].green,
        palette[display.pixel x y].blue, 0xff] := by
  rw [rgba, toList_pixels, List.flatMap_assoc]
  refine List.flatMap_congr fun y _ => ?_
  rw [List.flatMap_map]
  rfl

/-- The pixel in a column and a row of a picture is the low half of its cell. -/
theorem Memory.pixel_picture (memory : Memory) (x y : Fin 32) :
    UInt8.ofNat (memory.picture.pixel x.val y.val).val =
      memory.get (UInt16.ofNat (0x0200 + 32 * y.val + x.val)) &&& 0x0f := by
  have hx := x.isLt
  have hy := y.isLt
  have hplace : y.val % 32 * 32 + x.val % 32 = 32 * y.val + x.val := by omega
  have hcell : 32 * y.val + x.val < 1024 := by omega
  have haddress : UInt16.ofNat (0x0200 + 32 * y.val + x.val) =
      cellAddress ⟨32 * y.val + x.val, hcell⟩ := by
    rw [cellAddress, Nat.add_assoc, UInt16.ofNat_add]
    rfl
  have hpixel : memory.picture.pixel x.val y.val =
      memory.picture.pixels.get ⟨32 * y.val + x.val, hcell⟩ := by
    simp only [Display.pixel, hplace]
    rfl
  rw [hpixel, eq_picture_iff.mp rfl, haddress, Shade.ofNat_ofByte]

/--
**A display shows the writes that came while nobody was holding it.**  Attach a display to any
memory, whatever is in it and whoever else is watching.  Let there be any calls on the memory, be
it writes, keys, clearings with any bounds, instructions or assemblies, and in between let a reader
take the display and give it back at any time.

Then the pixel in every column and row is the low half of the last value that was written to its
cell while the display was not held, or of the value that was there when it was attached.  So what
was written while it was held makes no difference to any pixel, then or later.  To the memory it
does: every cell holds the last value written to it.  And what is read off the display is the
colour of each pixel, row by row, with full opacity.
-/
theorem display_shows_unheld_writes (b : Board) (turns : List Board.Turn) :
    ∃ display,
      (b.attachDisplay.afterTurns turns).memory.watchers[b.memory.watchers.length]? =
        some (.screen display (turns.foldl Board.Turn.holds false)) ∧
      (∀ x y : Fin 32, UInt8.ofNat (display.pixel x.val y.val).val =
        (Memory.lastTo?
            ((b.attachDisplay.history false turns).filterMap Board.Occurrence.shown?)
            (UInt16.ofNat (0x0200 + 32 * y.val + x.val))).getD
          (b.memory.get (UInt16.ofNat (0x0200 + 32 * y.val + x.val))) &&& 0x0f) ∧
      (∀ address, (b.attachDisplay.afterTurns turns).memory.get address =
        (Memory.lastTo?
            ((b.attachDisplay.history false turns).map Board.Occurrence.change) address).getD
          (b.memory.get address)) ∧
      display.rgba = (List.range 32).flatMap fun y => (List.range 32).flatMap fun x =>
        [palette[display.pixel x y].red, palette[display.pixel x y].green,
          palette[display.pixel x y].blue, 0xff] := by
  have hattached : b.attachDisplay.memory.watchers[b.memory.watchers.length]? =
      some (.screen b.memory.picture false) :=
    List.getElem?_concat_length
  refine ⟨_, Board.screen_afterTurns turns hattached, fun x y => ?_, fun address => ?_,
    Display.rgba_eq _⟩
  · rw [Memory.pixel_picture, Memory.get_apply_eq_lastTo?]
  · have hcells := b.attachDisplay.cells_afterTurns false turns
    have hattach : b.attachDisplay.memory.cells = b.memory.cells := rfl
    rw [← Memory.get_apply_eq_lastTo?, Memory.get, Memory.get, hcells,
      Memory.cells_apply_congr hattach]

end Mos6502
