/-
What a row of writes leaves in memory.

A cell that a row of writes names once holds afterwards what was written to it: the writes
before it are overwritten and those behind it go elsewhere.  So bytes that were put into
consecutive cells are read back from there as long as no cell was written twice, which
holds of one run of bytes up to the size of the memory, wherever it starts.
-/
import Mathlib.Data.List.Nodup
import Mos6502.Memory.Basic

namespace Mos6502

namespace Memory

variable {changes : List Change} {change : Change} {address : UInt16} {bytes : List UInt8}

/-! ### Cells that are written, and cells that are not -/

theorem get_apply_of_notMem (h : address ∉ changes.map Change.address) (memory : Memory) :
    (memory.apply changes).get address = memory.get address := by
  induction changes generalizing memory with
  | nil => rfl
  | cons first rest ih =>
    rw [List.map_cons, List.mem_cons, not_or] at h
    rw [apply_cons, ih h.2, get_set_of_ne h.1]

/-- Where no cell is written twice, every write stands. -/
theorem get_apply_of_mem (hnodup : (changes.map Change.address).Nodup) (h : change ∈ changes)
    (memory : Memory) : (memory.apply changes).get change.address = change.value := by
  induction changes generalizing memory with
  | nil => exact absurd h (List.not_mem_nil)
  | cons first rest ih =>
    rw [List.map_cons, List.nodup_cons] at hnodup
    rw [apply_cons]
    rcases List.mem_cons.mp h with rfl | hrest
    · rw [get_apply_of_notMem hnodup.1, get_set_self]
    · exact ih hnodup.2 hrest _

/-- Where all writes are of one value, every cell that is written holds it. -/
theorem get_apply_of_forall {value : UInt8} (hvalue : ∀ change ∈ changes, change.value = value)
    (h : address ∈ changes.map Change.address) (memory : Memory) :
    (memory.apply changes).get address = value := by
  induction changes generalizing memory with
  | nil => exact absurd h (List.not_mem_nil)
  | cons first rest ih =>
    rw [List.forall_mem_cons] at hvalue
    rw [apply_cons]
    by_cases hrest : address ∈ rest.map Change.address
    · exact ih hvalue.2 hrest _
    · rw [List.map_cons, List.mem_cons, or_iff_left hrest] at h
      rw [get_apply_of_notMem hrest, h, get_set_self, hvalue.1]

theorem get_clear {first last : UInt16} {i : Nat} (h : i < last.toNat - first.toNat)
    (memory : Memory) : (memory.clear first last).get (first + UInt16.ofNat i) = 0 := by
  rw [clear_eq_apply]
  refine get_apply_of_forall (by simp) ?_ memory
  rw [List.map_map]
  exact List.mem_map.mpr ⟨i, List.mem_range.mpr h, rfl⟩

/-- The cells that a clearing goes through, in order, each with the zero that is written there. -/
def clearing (first last : UInt16) : List Change :=
  (List.range' first.toNat (last.toNat - first.toNat)).map fun cell => ⟨UInt16.ofNat cell, 0⟩

theorem clear_eq_clearing (memory : Memory) (first last : UInt16) :
    memory.clear first last = memory.apply (clearing first last) := by
  rw [clear_eq_apply, clearing, List.range'_eq_map_range, List.map_map]
  congr 2
  funext i
  rw [Function.comp_apply, UInt16.ofNat_add, UInt16.ofNat_toNat]

theorem mem_clearing_iff {first last : UInt16} :
    address ∈ (clearing first last).map Change.address ↔ first ≤ address ∧ address < last := by
  rw [clearing, List.map_map, List.mem_map, UInt16.le_iff_toNat_le, UInt16.lt_iff_toNat_lt]
  constructor
  · rintro ⟨cell, hcell, rfl⟩
    rw [List.mem_range'_1] at hcell
    have hlast := last.toNat_lt
    rw [Function.comp_apply, UInt16.toNat_ofNat', Nat.mod_eq_of_lt (by omega)]
    omega
  · rintro ⟨hfirst, hlast⟩
    exact ⟨address.toNat, List.mem_range'_1.mpr (by omega), UInt16.ofNat_toNat⟩

theorem value_of_mem_clearing {first last : UInt16} (h : change ∈ clearing first last) :
    change.value = 0 := by
  obtain ⟨cell, -, rfl⟩ := List.mem_map.mp h
  rfl

/-- A clearing leaves zeros within its bounds, and nothing else changes. -/
theorem get_clear_eq (memory : Memory) (first last address : UInt16) :
    (memory.clear first last).get address =
      if first ≤ address ∧ address < last then 0 else memory.get address := by
  rw [clear_eq_clearing]
  split
  · rename_i hwithin
    exact get_apply_of_forall (fun _ => value_of_mem_clearing) (mem_clearing_iff.mpr hwithin) memory
  · rename_i hbeyond
    exact get_apply_of_notMem (mt mem_clearing_iff.mp hbeyond) memory

/-- What some writes leave in a cell depends on what was in this cell only. -/
theorem get_apply_congr {memory memory' : Memory} (h : memory.get address = memory'.get address)
    (changes : List Change) :
    (memory.apply changes).get address = (memory'.apply changes).get address := by
  induction changes generalizing memory memory' with
  | nil => exact h
  | cons change rest ih =>
    refine ih ?_
    rw [get_set, get_set, h]

/-- The cells after some writes depend on the cells before only, and not on who watches. -/
theorem cells_apply_congr {memory memory' : Memory} (h : memory.cells = memory'.cells)
    (changes : List Change) : (memory.apply changes).cells = (memory'.apply changes).cells := by
  induction changes generalizing memory memory' with
  | nil => exact h
  | cons change rest ih =>
    refine ih ?_
    exact congrArg (·.set change.address.toNat change.value change.address.toNat_lt) h

/-! ### What a row of writes tells -/

/-- A new recorder has heard of nothing yet. -/
theorem recorded_record (memory : Memory) : memory.record.recorded = memory.recorded ++ [#[]] :=
  List.filterMap_append

theorem recorded_set (memory : Memory) (address : UInt16) (value : UInt8) :
    (memory.set address value).recorded = memory.recorded.map (·.push ⟨address, value⟩) := by
  rw [recorded, watchers_set, List.filterMap_map, recorded, List.map_filterMap]
  refine List.filterMap_congr fun watcher _ => ?_
  cases watcher with
  | recorder seen => rfl
  | screen display held => cases held <;> rfl

/-- Behind what it had seen before, every recorder has seen all of the writes, in order. -/
theorem recorded_apply (memory : Memory) (changes : List Change) :
    (memory.apply changes).recorded = memory.recorded.map (· ++ changes.toArray) := by
  induction changes generalizing memory with
  | nil => simp
  | cons change rest ih =>
    rw [apply_cons, ih, recorded_set, List.map_map]
    refine List.map_congr_left fun seen _ => ?_
    simp

/-! ### Memories that differ in the random cell -/

section

variable {memory memory' memory'' : Memory}

/-- The memories differ in the random cell only. -/
def Alike (memory memory' : Memory) : Prop :=
  ∀ address ≠ randomAddress, memory.get address = memory'.get address

theorem Alike.symm (h : memory.Alike memory') : memory'.Alike memory :=
  fun address hother => (h address hother).symm

theorem Alike.trans (h : memory.Alike memory') (h' : memory'.Alike memory'') :
    memory.Alike memory'' :=
  fun address hother => (h address hother).trans (h' address hother)

theorem alike_set_random (memory : Memory) (value : UInt8) :
    (memory.set randomAddress value).Alike memory :=
  fun _ hother => get_set_of_ne hother memory value

theorem Alike.apply (h : memory.Alike memory') (changes : List Change) :
    (memory.apply changes).Alike (memory'.apply changes) := by
  induction changes generalizing memory memory' with
  | nil => exact h
  | cons change rest ih =>
    refine ih fun address hother => ?_
    rw [get_set, get_set, h address hother]

end

/-! ### Runs of bytes -/

theorem changesFrom_append (address : UInt16) (first second : List UInt8) :
    changesFrom address (first ++ second) =
      changesFrom address first ++ changesFrom (address + UInt16.ofNat first.length) second := by
  induction first generalizing address with
  | nil => simp
  | cons value rest ih =>
    rw [List.cons_append, changesFrom_cons, ih, changesFrom_cons, List.cons_append,
      List.length_cons, UInt16.add_assoc, UInt16.add_comm 1, UInt16.ofNat_add]
    rfl

theorem map_address_changesFrom (address : UInt16) (bytes : List UInt8) :
    (changesFrom address bytes).map Change.address =
      (List.range bytes.length).map fun i => address + UInt16.ofNat i := by
  rw [changesFrom, List.map_map, List.range_eq_range', ← List.zipIdx_map_snd 0 bytes,
    List.map_map]
  rfl

theorem mem_changesFrom (address : UInt16) {i : Nat} (h : i < bytes.length) :
    ⟨address + UInt16.ofNat i, bytes[i]⟩ ∈ changesFrom address bytes := by
  refine List.mem_map.mpr ⟨(bytes[i], i), ?_, rfl⟩
  exact List.mk_mem_zipIdx_iff_getElem?.mpr (List.getElem?_eq_getElem h)

/-- A run of bytes that fits the memory writes no cell twice. -/
theorem nodup_changesFrom (address : UInt16) (h : bytes.length ≤ 0x10000) :
    ((changesFrom address bytes).map Change.address).Nodup := by
  rw [map_address_changesFrom]
  refine List.Nodup.map_on ?_ List.nodup_range
  intro i hi j hj hij
  rw [List.mem_range] at hi hj
  have hsame : UInt16.ofNat i = UInt16.ofNat j := UInt16.add_right_inj address |>.mp hij
  have hmod := congrArg UInt16.toNat hsame
  rw [UInt16.toNat_ofNat', UInt16.toNat_ofNat'] at hmod
  rwa [Nat.mod_eq_of_lt (by omega), Nat.mod_eq_of_lt (by omega)] at hmod

/-! ### Reading -/

theorem length_read (memory : Memory) (address : UInt16) (count : Nat) :
    (memory.read address count).length = count := by
  rw [read, List.length_map, List.length_range]

@[simp] theorem read_zero (memory : Memory) (address : UInt16) : memory.read address 0 = [] :=
  rfl

theorem read_add (memory : Memory) (address : UInt16) (m n : Nat) :
    memory.read address (m + n) =
      memory.read address m ++ memory.read (address + UInt16.ofNat m) n := by
  simp only [read, List.range_add, List.map_append, List.map_map]
  congr 1
  refine List.map_congr_left fun i _ => ?_
  rw [Function.comp_apply, UInt16.ofNat_add, UInt16.add_assoc]

theorem read_two (memory : Memory) (address : UInt16) :
    memory.read address 2 = [memory.get address, memory.get (address + 1)] := by
  simp [read, List.range_succ]

theorem take_read (memory : Memory) (address : UInt16) (count n : Nat) :
    (memory.read address count).take n = memory.read address (min n count) := by
  rw [read, ← List.map_take, List.take_range, read]

theorem read_eq_of_holds {memory : Memory}
    (h : ∀ change ∈ changesFrom address bytes, memory.get change.address = change.value) :
    memory.read address bytes.length = bytes := by
  induction bytes generalizing address with
  | nil => rfl
  | cons value rest ih =>
    rw [changesFrom_cons, List.forall_mem_cons] at h
    have hfirst : memory.read address 1 = [value] := by
      simpa [read] using h.1
    rw [List.length_cons, Nat.add_comm, read_add, hfirst]
    exact congrArg (value :: ·) (ih h.2)

/-- Bytes that were put somewhere are read back if no cell was written twice. -/
theorem read_apply (hnodup : (changes.map Change.address).Nodup)
    (h : changesFrom address bytes ⊆ changes) (memory : Memory) :
    (memory.apply changes).read address bytes.length = bytes :=
  read_eq_of_holds fun _ hchange => get_apply_of_mem hnodup (h hchange) memory

end Memory

end Mos6502
