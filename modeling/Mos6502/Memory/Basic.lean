/-
The memory: 65536 cells, and those who watch them.

Every change of a cell goes through `set`, which tells all watchers, in the order in
which they came, the address and the new value.  Watchers only listen; they cannot
write.  There are two kinds: a recorder keeps a list of what it was told, and a screen
keeps a display up to date unless somebody is just looking at it.

The view of a memory is `get`.  What a write does to it is `get_set`: the written cell
holds the value, and every other cell is as before.
-/
import Mos6502.Display.Basic
import Mos6502.Isa.Word
import Mos6502.Memory.Layout

namespace Mos6502

/-- A cell with the value written to it. -/
structure Change where
  address : UInt16
  value : UInt8
deriving DecidableEq, Repr

/-- Somebody who is told about every write. -/
inductive Watcher where
  /-- Keeps all changes, the earliest first. -/
  | recorder (seen : Array Change)
  /-- Keeps a display up to date.  While it is held by a reader, changes are lost to it. -/
  | screen (display : Display) (held : Bool)

/-- A watcher that was told about a change. -/
def Watcher.notify (change : Change) : Watcher → Watcher
  | recorder seen => recorder (seen.push change)
  | screen display true => screen display true
  | screen display false => screen (display.update change.address change.value) false

/-- The cells of a memory, and its watchers in the order in which they came. -/
structure Memory where
  cells : Vector UInt8 0x10000
  watchers : List Watcher

namespace Memory

/-- A memory of zeros that nobody watches. -/
def empty : Memory :=
  ⟨Vector.replicate 0x10000 0, []⟩

/-- The byte in a cell. -/
def get (memory : Memory) (address : UInt16) : UInt8 :=
  memory.cells[address.toFin]

/-- Writes a byte into a cell and tells the watchers. -/
def set (memory : Memory) (address : UInt16) (value : UInt8) : Memory :=
  ⟨memory.cells.set address.toNat value address.toNat_lt,
    memory.watchers.map (Watcher.notify ⟨address, value⟩)⟩

/-- The word whose low byte is in a cell and whose high byte is in the next; the cell
after the last one is the first. -/
def word (memory : Memory) (address : UInt16) : UInt16 :=
  wordOf (memory.get address) (memory.get (address + 1))

/-- Makes changes one after another. -/
def apply (memory : Memory) (changes : List Change) : Memory :=
  changes.foldl (fun memory change => memory.set change.address change.value) memory

/-- The changes that put bytes into consecutive cells, going on at `$0000` after `$FFFF`. -/
def changesFrom (address : UInt16) (bytes : List UInt8) : List Change :=
  bytes.zipIdx.map fun p => ⟨address + UInt16.ofNat p.2, p.1⟩

/-- Some bytes from consecutive cells. -/
def read (memory : Memory) (address : UInt16) (count : Nat) : List UInt8 :=
  (List.range count).map fun i => memory.get (address + UInt16.ofNat i)

/-- Latches the code of a key. -/
def press (memory : Memory) (key : UInt8) : Memory :=
  memory.set keyAddress key

/-- Writes zero to every cell from the first address up to, but not including, the last. -/
def clear (memory : Memory) (first last : UInt16) : Memory :=
  (List.range (last.toNat - first.toNat)).foldl
    (fun memory i => memory.set (first + UInt16.ofNat i) 0) memory

/-- Whether a cell at or above an address is not zero. -/
def hasDataFrom (memory : Memory) (first : UInt16) : Bool :=
  memory.cells.toArray.any (· != 0) first.toNat

/-! ### Watchers -/

/-- A memory with one more watcher. -/
def watch (memory : Memory) (watcher : Watcher) : Memory :=
  { memory with watchers := memory.watchers ++ [watcher] }

/-- Attaches a recorder that has seen nothing yet. -/
def record (memory : Memory) : Memory :=
  memory.watch (.recorder #[])

/-- What the display shows of the cells as they are. -/
def picture (memory : Memory) : Display :=
  ⟨Vector.ofFn fun cell => Shade.ofByte (memory.get (0x0200 + UInt16.ofNat cell.val))⟩

/-- Attaches a display that shows the cells as they are. -/
def attachDisplay (memory : Memory) : Memory :=
  memory.watch (.screen memory.picture false)

/-- What each recorder has seen, in the order in which the recorders came. -/
def recorded (memory : Memory) : List (Array Change) :=
  memory.watchers.filterMap fun
    | .recorder seen => some seen
    | .screen .. => none

/-- The same memory with recorders that have seen nothing. -/
def forget (memory : Memory) : Memory :=
  { memory with watchers := memory.watchers.map fun
      | .recorder _ => .recorder #[]
      | .screen display held => .screen display held }

/-- What the first screen shows. -/
def display? (memory : Memory) : Option Display :=
  memory.watchers.findSome? fun
    | .screen display _ => some display
    | .recorder _ => none

/-- Changes what the screens show. -/
def mapDisplay (memory : Memory) (f : Display → Display) : Memory :=
  { memory with watchers := memory.watchers.map fun
      | .screen display held => .screen (f display) held
      | .recorder seen => .recorder seen }

/-- Says whether a reader is holding the screens. -/
def hold (memory : Memory) (held : Bool) : Memory :=
  { memory with watchers := memory.watchers.map fun
      | .screen display _ => .screen display held
      | .recorder seen => .recorder seen }

/-- A memory in short: how many watch it. -/
def summary (memory : Memory) : String :=
  "Memory \x7b listeners: " ++ toString memory.watchers.length ++ ", .. \x7d"

/-! ### What a write changes -/

@[simp] theorem get_empty (address : UInt16) : empty.get address = 0 := by
  simp [empty, get]

/-- The written cell holds the value, and every other cell is as before. -/
theorem get_set (memory : Memory) (address : UInt16) (value : UInt8) (other : UInt16) :
    (memory.set address value).get other = if other = address then value else memory.get other := by
  have hval : other.toFin.val = other.toNat := rfl
  simp only [get, set, Fin.getElem_fin, Vector.getElem_set, hval, UInt16.toNat_inj]
  by_cases h : other = address
  · simp [h]
  · rw [if_neg h, if_neg (Ne.symm h)]

@[simp] theorem get_set_self (memory : Memory) (address : UInt16) (value : UInt8) :
    (memory.set address value).get address = value := by
  rw [get_set, if_pos rfl]

theorem get_set_of_ne {address other : UInt16} (h : other ≠ address) (memory : Memory)
    (value : UInt8) : (memory.set address value).get other = memory.get other := by
  rw [get_set, if_neg h]

/-- Every watcher is told of a write once. -/
theorem watchers_set (memory : Memory) (address : UInt16) (value : UInt8) :
    (memory.set address value).watchers =
      memory.watchers.map (Watcher.notify ⟨address, value⟩) := rfl

@[simp] theorem apply_nil (memory : Memory) : memory.apply [] = memory := rfl

@[simp] theorem apply_cons (memory : Memory) (change : Change) (changes : List Change) :
    memory.apply (change :: changes) =
      (memory.set change.address change.value).apply changes := rfl

theorem apply_append (memory : Memory) (first second : List Change) :
    memory.apply (first ++ second) = (memory.apply first).apply second :=
  List.foldl_append ..

@[simp] theorem changesFrom_nil (address : UInt16) : changesFrom address [] = [] := rfl

/-- The first byte goes to the address, the rest to the cells after it. -/
theorem changesFrom_cons (address : UInt16) (value : UInt8) (rest : List UInt8) :
    changesFrom address (value :: rest) = ⟨address, value⟩ :: changesFrom (address + 1) rest := by
  have shift : ∀ i, address + 1 + UInt16.ofNat i = address + UInt16.ofNat (i + 1) := by
    intro i
    rw [UInt16.ofNat_add, UInt16.add_assoc, UInt16.add_comm 1]
    rfl
  simp only [changesFrom, List.zipIdx_cons', List.map_cons, List.map_map]
  congr 1
  · simp
  · refine List.map_congr_left fun p _ => ?_
    simp [shift]

/-- Clearing is a row of writes of zero. -/
theorem clear_eq_apply (memory : Memory) (first last : UInt16) :
    memory.clear first last = memory.apply ((List.range (last.toNat - first.toNat)).map fun i =>
      ⟨first + UInt16.ofNat i, 0⟩) := by
  simp only [clear, apply, List.foldl_map]

end Memory

end Mos6502
