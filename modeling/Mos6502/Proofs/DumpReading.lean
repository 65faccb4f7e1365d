/-
Dumps that are read back, and what they show of a program.

A dump is read row by row: behind the address, every group of two digits is a byte.  Read like
this, the dump of a window gives the cells of the window in order, and the dump of a program
gives those of all its segments, block by block.

The disassembly of a program goes over the same segments, and loses no byte of them.  But it
follows a segment that goes on at `$0000` after `$FFFF`, and a window ends there.  So dump and
disassembly show the same bytes exactly if no segment goes past the end of memory.  Where one
does, its dump lacks what lies behind the end, though these bytes were counted.
-/
import Mathlib.Algebra.Order.BigOperators.Group.List
import Mathlib.Algebra.Order.Group.Nat
import Mos6502.Proofs.Decoding
import Mos6502.Proofs.Printed
import Mos6502.Proofs.Terminator

namespace Mos6502

/-! ### Reading a dump -/

/-- The byte that two hexadecimal digits denote. -/
def hexByte? (digits : Text) : Option UInt8 :=
  if digits.length = 2 then (word? 16 digits).map UInt16.toUInt8 else none

namespace Dump

/-- The bytes of a row.  Blanks end its groups of characters, the first of which is the
address. -/
def rowBytes? (row : Text) : Option (List UInt8) :=
  ((pieces ' ' row).tail.filter (· ≠ [])).mapM hexByte?

/-- The bytes of a dump, row by row. -/
def bytes? (text : Text) : Option (List UInt8) :=
  ((pieces '\n' text).mapM rowBytes?).map List.flatten

end Dump

variable {c : Char} {texts : List Text} {parts : List (List UInt8)} {source : Text}
  {report : Report}

theorem hexByte?_hexByte (b : UInt8) : hexByte? (hexByte b) = some b := by
  rw [hexByte?, if_pos (length_hexByte b), word?_hexByte, Option.map_some, UInt8.toUInt8_toUInt16]

/-- What is no digit is in no byte. -/
theorem notMem_hexByte (hc : ∀ n < 16, hexDigit n ≠ c) (b : UInt8) : c ∉ hexByte b := by
  have hb := b.toNat_lt
  have hhigh := hc (b.toNat / 16) (by omega)
  have hlow := hc (b.toNat % 16) (by omega)
  simp [hexByte, hhigh.symm, hlow.symm]

theorem notMem_hexWord (hc : ∀ n < 16, hexDigit n ≠ c) (w : UInt16) : c ∉ hexWord w := by
  have hw := w.toNat_lt
  have h3 := hc (w.toNat / 4096) (by omega)
  have h2 := hc (w.toNat / 256 % 16) (by omega)
  have h1 := hc (w.toNat / 16 % 16) (by omega)
  have h0 := hc (w.toNat % 16) (by omega)
  simp [hexWord, h3.symm, h2.symm, h1.symm, h0.symm]

namespace Dump

/-! ### One row -/

/-- Bytes in groups, a blank behind each. -/
def groups (bytes : List UInt8) : Text :=
  bytes.flatMap fun b => hexByte b ++ [' ']

theorem pieces_groups (bytes : List UInt8) :
    pieces ' ' (groups bytes) = bytes.map hexByte ++ [[]] := by
  induction bytes with
  | nil => rfl
  | cons b rest ih =>
    have hblank : ' ' ∉ hexByte b := notMem_hexByte (by decide) b
    have hsplit : groups (b :: rest) = hexByte b ++ ' ' :: groups rest := by
      simp [groups]
    rw [hsplit, pieces_append_separator hblank, ih, List.map_cons, List.cons_append]

theorem mapM_hexByte? (bytes : List UInt8) : (bytes.map hexByte).mapM hexByte? = some bytes := by
  induction bytes with
  | nil => rfl
  | cons b rest ih =>
    rw [List.map_cons, List.mapM_cons, hexByte?_hexByte, ih]
    rfl

/-- Behind an address, groups of digits are read as the bytes that they are made of. -/
theorem rowBytes?_groups {address : Text} (haddress : ' ' ∉ address) (bytes : List UInt8) :
    rowBytes? (address ++ ' ' :: groups bytes) = some bytes := by
  have hgroups : (bytes.map hexByte).filter (· ≠ []) = bytes.map hexByte := by
    refine List.filter_eq_self.mpr fun digits hdigits => ?_
    obtain ⟨b, -, rfl⟩ := List.mem_map.mp hdigits
    rfl
  rw [rowBytes?, pieces_append_separator haddress, List.tail_cons, pieces_groups,
    List.filter_append, hgroups]
  show (bytes.map hexByte ++ []).mapM hexByte? = some bytes
  rw [List.append_nil, mapM_hexByte?]

/-! ### Rows one below the other -/

theorem bytes?_of_row {row : Text} (hrow : '\n' ∉ row) : bytes? row = rowBytes? row := by
  rw [bytes?, pieces_of_not_mem hrow, List.mapM_cons, List.mapM_nil]
  cases rowBytes? row <;> simp

/-- Dumps one below the other are read one after another. -/
theorem bytes?_append {first second : Text} {a b : List UInt8} (hfirst : bytes? first = some a)
    (hsecond : bytes? second = some b) : bytes? (first ++ '\n' :: second) = some (a ++ b) := by
  obtain ⟨rows, hrows, rfl⟩ := Option.map_eq_some_iff.mp hfirst
  obtain ⟨rows', hrows', rfl⟩ := Option.map_eq_some_iff.mp hsecond
  rw [bytes?, pieces_append, List.mapM_append, hrows, hrows', ← List.flatten_append]
  rfl

theorem bytes?_joinWith (h : List.Forall₂ (fun text part => bytes? text = some part) texts parts) :
    bytes? (joinWith ['\n'] texts) = some parts.flatten := by
  induction h with
  | nil => rfl
  | @cons text part texts parts hfirst hrest ih =>
    cases hrest with
    | nil =>
      rw [joinWith, List.intercalate_singleton, List.flatten_singleton]
      exact hfirst
    | cons hnext hlater =>
      rw [joinWith, List.intercalate_cons_cons, List.append_assoc, List.singleton_append,
        List.flatten_cons]
      exact bytes?_append hfirst ih

end Dump

/-! ### The dump of a window -/

namespace Memory

open Dump

theorem dumpRow_eq (memory : Memory) (first count : Nat) :
    memory.dumpRow {} first count =
      (hexWord (UInt16.ofNat first) ++ [':']) ++
        ' ' :: groups (memory.read (UInt16.ofNat first) count) := by
  simp only [dumpRow, dumpByte, groups, read, if_true, List.append_assoc, List.flatMap_map,
    UInt16.ofNat_add]
  rfl

theorem bytes?_dumpRow (memory : Memory) (first count : Nat) :
    bytes? (memory.dumpRow {} first count) = some (memory.read (UInt16.ofNat first) count) := by
  have hdigits : ∀ n < 16, hexDigit n ≠ ' ' ∧ hexDigit n ≠ '\n' := by decide
  have hblank : ' ' ∉ hexWord (UInt16.ofNat first) ++ [':'] := by
    have haddress := notMem_hexWord (fun n hn => (hdigits n hn).1) (UInt16.ofNat first)
    simpa using haddress
  have hrow : '\n' ∉ memory.dumpRow {} first count := by
    have haddress := notMem_hexWord (fun n hn => (hdigits n hn).2) (UInt16.ofNat first)
    have hbyte := notMem_hexByte (fun n hn => (hdigits n hn).2)
    rw [dumpRow_eq]
    simp [groups, haddress, hbyte]
  rw [bytes?_of_row hrow, dumpRow_eq, rowBytes?_groups hblank]

/-- Sixteen cells at a time, all cells are read. -/
theorem flatten_rows (memory : Memory) (first count rows : Nat) :
    ((List.range rows).map fun r =>
        memory.read (UInt16.ofNat (first + 16 * r)) (min 16 (count - 16 * r))).flatten =
      memory.read (UInt16.ofNat first) (min count (16 * rows)) := by
  have hrow : ∀ r n : Nat, memory.read (UInt16.ofNat (first + 16 * r)) n =
      (List.range' (16 * r) n).map fun i => memory.get (UInt16.ofNat first + UInt16.ofNat i) := by
    intro r n
    rw [read, List.range'_eq_map_range, List.map_map]
    simp only [Function.comp_def, UInt16.ofNat_add, UInt16.add_assoc]
  simp only [hrow]
  rw [← List.flatMap_def, ← List.map_flatMap, flatMap_range_rows]
  rfl

/-- The dump of a window shows the cells of the window. -/
theorem bytes?_dump (memory : Memory) (start length : Nat) :
    bytes? (memory.dump start length {}) =
      some (memory.read (UInt16.ofNat (windowStart start)) (windowLength start length)) := by
  have hread : List.Forall₂ (fun text part => bytes? text = some part)
      (memory.dumpRows {} start length)
      ((List.range ((windowLength start length + 15) / 16)).map fun r =>
        memory.read (UInt16.ofNat (windowStart start + 16 * r))
          (min 16 (windowLength start length - 16 * r))) := by
    refine List.forall₂_map_left_iff.mpr (List.forall₂_map_right_iff.mpr ?_)
    exact List.forall₂_same.mpr fun r _ => memory.bytes?_dumpRow _ _
  have hrows := bytes?_joinWith hread
  rw [flatten_rows] at hrows
  have hall : min (windowLength start length) (16 * ((windowLength start length + 15) / 16)) =
      windowLength start length := by
    omega
  rw [hall] at hrows
  exact hrows

end Memory

/-! ### The dump of a program -/

namespace Segment

/-- The bytes of a segment, as far as the memory goes. -/
def shown (segment : Segment) (memory : Memory) : List UInt8 :=
  memory.read segment.start (min segment.length (0x10000 - segment.start.toNat))

/-- Whether a segment ends within the memory. -/
def Fits (segment : Segment) : Prop :=
  segment.start.toNat + segment.length ≤ 0x10000

theorem bytes?_dump (segment : Segment) (memory : Memory) :
    Dump.bytes? (memory.dump segment.start.toNat segment.length {}) =
      some (segment.shown memory) := by
  have hstart : Memory.windowStart segment.start.toNat = segment.start.toNat := by
    have hlt := segment.start.toNat_lt
    rw [Memory.windowStart]
    omega
  rw [Memory.bytes?_dump, Memory.windowLength, hstart, UInt16.ofNat_toNat]
  rfl

/-- A segment is shown as a whole exactly if it ends within the memory. -/
theorem length_shown_eq_iff (segment : Segment) (memory : Memory) :
    (segment.shown memory).length = segment.length ↔ segment.Fits := by
  have hlt := segment.start.toNat_lt
  rw [shown, Memory.length_read, Fits]
  omega

theorem shown_of_fits {segment : Segment} (h : segment.Fits) (memory : Memory) :
    segment.shown memory = memory.read segment.start segment.length := by
  have hlength : min segment.length (0x10000 - segment.start.toNat) = segment.length := by
    rw [Fits] at h
    omega
  rw [shown, hlength]

theorem length_shown_le (segment : Segment) (memory : Memory) :
    (segment.shown memory).length ≤ segment.length := by
  rw [shown, Memory.length_read]
  exact Nat.min_le_left ..

/-- If nothing is missing in all, then nothing is missing anywhere. -/
theorem fits_of_length_shown {segments : List Segment} {memory : Memory}
    (h : (segments.flatMap fun segment => segment.shown memory).length =
      (segments.map Segment.length).sum) : ∀ segment ∈ segments, segment.Fits := by
  have hle : ∀ segments : List Segment,
      (segments.flatMap fun segment => segment.shown memory).length ≤
        (segments.map Segment.length).sum := by
    intro segments
    rw [List.length_flatMap]
    exact List.sum_le_sum fun segment _ => segment.length_shown_le memory
  induction segments with
  | nil => exact List.forall_mem_nil _
  | cons first rest ih =>
    have hfirst := first.length_shown_le memory
    have hrest := hle rest
    rw [List.flatMap_cons, List.length_append, List.map_cons, List.sum_cons] at h
    refine List.forall_mem_cons.mpr ⟨?_, ih (by omega)⟩
    exact (first.length_shown_eq_iff memory).mp (by omega)

end Segment

namespace Assembly

/-- The dump of a program is the dump of its segments, block by block. -/
theorem bytes?_dump (assembly : Assembly) (memory : Memory) :
    Dump.bytes? (assembly.dump memory) =
      some (assembly.segments.flatMap fun segment => segment.shown memory) := by
  rw [List.flatMap_def]
  refine Dump.bytes?_joinWith ?_
  refine List.forall₂_map_left_iff.mpr (List.forall₂_map_right_iff.mpr ?_)
  exact List.forall₂_same.mpr fun segment _ => segment.bytes?_dump memory

theorem flatMap_bytes_disassemble (assembly : Assembly) (memory : Memory) :
    (assembly.disassemble memory).flatMap Instruction.bytes =
      assembly.segments.flatMap fun segment => memory.read segment.start segment.length := by
  rw [disassemble, List.flatMap_assoc]
  exact List.flatMap_congr fun segment _ => Instruction.flatMap_bytes_disassemble ..

/-- Every byte is in a segment. -/
theorem sum_length_segments (hok : (ofText source).result = .ok report) :
    ((ofText source).segments.map Segment.length).sum = (ofText source).count := by
  obtain ⟨e, -, hlength, -, -, heq⟩ := exists_emitted hok
  have hcount : (ofText source).count = (written source).length := by
    rw [heq, count_complete, hlength]
  have hcells := congrArg List.length (addresses_segments hok)
  rw [List.length_map, ← hcount] at hcells
  simpa [List.length_flatMap, Segment.addresses] using hcells

end Assembly

/--
**What dump and disassembly show of a program.**  Over any memory, the instructions of a program
that was assembled have as many bytes as were counted.  The dump shows of each segment what ends
within the memory.  So read back, block by block, it gives the bytes of the instructions exactly
if no segment goes past the end of memory.
-/
theorem dump_shows_disassembly_iff (hok : (Assembly.ofText source).result = .ok report)
    (memory : Memory) :
    (((Assembly.ofText source).disassemble memory).flatMap Instruction.bytes).length =
        (Assembly.ofText source).count ∧
      Dump.bytes? ((Assembly.ofText source).dump memory) =
        some ((Assembly.ofText source).segments.flatMap fun segment => segment.shown memory) ∧
      (Dump.bytes? ((Assembly.ofText source).dump memory) =
          some (((Assembly.ofText source).disassemble memory).flatMap Instruction.bytes) ↔
        ∀ segment ∈ (Assembly.ofText source).segments, segment.Fits) := by
  have hdump := (Assembly.ofText source).bytes?_dump memory
  have hbytes := (Assembly.ofText source).flatMap_bytes_disassemble memory
  have hlength : (((Assembly.ofText source).disassemble memory).flatMap Instruction.bytes).length =
      ((Assembly.ofText source).segments.map Segment.length).sum := by
    simp [hbytes, List.length_flatMap, Memory.length_read]
  refine ⟨hlength.trans (Assembly.sum_length_segments hok), hdump, ?_⟩
  rw [hdump, Option.some_inj]
  constructor
  · intro hsame
    exact Segment.fits_of_length_shown ((congrArg List.length hsame).trans hlength)
  · intro hfits
    rw [hbytes]
    exact List.flatMap_congr fun segment hsegment =>
      Segment.shown_of_fits (hfits segment hsegment) memory

/-- A segment that ends with the last cell of memory, and one of two rows below it. -/
theorem dump_shows_disassembly_iff_up_to_end :
    ∃ assembly, assembly = Assembly.ofText
        "*=$fffd\nJMP $1234\n*=$0300\nDCB 1,2,3,4,5,6,7,8,9,10,11,12,13,14,15,16,17".toList ∧
      Dump.bytes? (assembly.dump (assembly.load Memory.empty)) =
        some ((assembly.disassemble (assembly.load Memory.empty)).flatMap Instruction.bytes) ∧
      ((assembly.disassemble (assembly.load Memory.empty)).flatMap Instruction.bytes).length =
        20 := by
  obtain ⟨hlength, -, hshown⟩ := @dump_shows_disassembly_iff
    "*=$fffd\nJMP $1234\n*=$0300\nDCB 1,2,3,4,5,6,7,8,9,10,11,12,13,14,15,16,17".toList
    ⟨20, 0⟩ (by rfl) ((Assembly.ofText
      "*=$fffd\nJMP $1234\n*=$0300\nDCB 1,2,3,4,5,6,7,8,9,10,11,12,13,14,15,16,17".toList).load
        Memory.empty)
  refine ⟨_, rfl, hshown.mpr ?_, hlength.trans (by decide +kernel)⟩
  unfold Segment.Fits
  decide +kernel

/-- What lies behind the end of memory is not in the dump. -/
theorem dump_lacks_bytes_behind_end :
    ∃ assembly, assembly = Assembly.ofText "*=$ffff\nNOP\nINX".toList ∧
      assembly.result = .ok ⟨2, 0⟩ ∧
      Dump.bytes? (assembly.dump (assembly.load Memory.empty)) = some [0xea] ∧
      (assembly.disassemble (assembly.load Memory.empty)).flatMap Instruction.bytes =
        [0xea, 0xe8] := by
  have hsegments : (Assembly.ofText "*=$ffff\nNOP\nINX".toList).segments = [⟨0xffff, 2⟩] := by
    decide +kernel
  have hchanges : (Assembly.ofText "*=$ffff\nNOP\nINX".toList).changes =
      [⟨0xffff, 0xea⟩, ⟨0x0000, 0xe8⟩, ⟨0x0001, 0⟩] := by
    decide +kernel
  have hread : ((Assembly.ofText "*=$ffff\nNOP\nINX".toList).load Memory.empty).read 0xffff 2 =
      [0xea, 0xe8] := by
    rw [Assembly.load, hchanges]
    exact @Memory.read_apply _ 0xffff [0xea, 0xe8] (by decide) (by decide) Memory.empty
  refine ⟨_, rfl, by rfl, ?_, ?_⟩
  · have hfirst := congrArg (List.take 1) hread
    rw [Assembly.bytes?_dump, hsegments]
    exact congrArg some hfirst
  · rw [Assembly.flatMap_bytes_disassemble, hsegments]
    simpa using hread

end Mos6502
