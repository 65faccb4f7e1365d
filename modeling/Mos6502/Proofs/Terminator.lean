/-
The zero behind the program.

The last write of an assembly puts a zero where the next byte would go.  Two things about it
are less simple than they look.

  * Where it goes.  The address is the one behind the last byte only if no origin comes after
    that byte: an origin moves the address whether anything is emitted there or not.
  * What it hits.  Nothing keeps the cell free.  A program that lays its segments out downwards
    may have a byte there, and loses it.

Everything else that was written stays, as long as no cell was written twice.  So the segments
read back as they were emitted if the zero is not among them.
-/
import Mathlib.Data.List.Induction
import Mathlib.Data.List.TakeWhile
import Mos6502.Proofs.Segments

namespace Mos6502

variable {labels : Labels} {pc : UInt16} {line : Nat} {lines : List Text} {e e' : Emitted}
  {x : Emission} {xs before after : List Emission} {source : Text} {report : Report}

/-! ### Where the lines lead to -/

namespace Emission

/-- The address that a line sets, if it sets one. -/
def origin? (x : Emission) : Option UInt16 :=
  match x.effect with
  | .origin address => some address
  | _ => none

/-- The address after some lines, from an address on. -/
def reached (pc : UInt16) (xs : List Emission) : UInt16 :=
  xs.foldl (fun pc x => x.effect.next pc) pc

theorem reached_cons (pc : UInt16) (x : Emission) (xs : List Emission) :
    reached pc (x :: xs) = reached (x.effect.next pc) xs := rfl

theorem reached_append (pc : UInt16) (xs ys : List Emission) :
    reached pc (xs ++ ys) = reached (reached pc xs) ys :=
  List.foldl_append ..

theorem next_of_bytes (h : x.bytes ≠ []) (pc : UInt16) :
    x.effect.next pc = pc + UInt16.ofNat x.bytes.length := by
  obtain ⟨text, place, effect⟩ := x
  cases effect with
  | nothing | origin => exact absurd rfl h
  | bytes bytes => rfl

/-- A line without bytes moves the address only if it sets it. -/
theorem next_of_empty (h : x.bytes = []) (pc : UInt16) :
    x.effect.next pc = x.origin?.getD pc := by
  obtain ⟨text, place, effect⟩ := x
  cases effect with
  | nothing | origin => rfl
  | bytes bytes =>
    replace h : bytes = [] := h
    subst h
    exact UInt16.add_zero pc

/-- Lines without bytes lead to the last address that they set. -/
theorem reached_of_empty (h : ∀ x ∈ xs, x.bytes = []) (pc : UInt16) :
    reached pc xs = (xs.reverse.findSome? origin?).getD pc := by
  induction xs using List.reverseRecOn with
  | nil => rfl
  | append_singleton xs x ih =>
    rw [List.forall_mem_append, List.forall_mem_singleton] at h
    rw [reached_append, ih h.1, reached_cons, next_of_empty h.2, List.reverse_concat,
      List.findSome?_cons]
    cases x.origin? <;> rfl

end Emission

theorem pc_eq_reached (h : emitFrom labels e line lines = (e', none)) :
    e'.pc = Emission.reached e.pc (emissions labels e.pc lines) := by
  induction lines generalizing e line with
  | nil =>
    cases h
    rfl
  | cons text rest ih =>
    obtain ⟨effect, hline, hrest⟩ := emitFrom_cons h
    rw [emissions_cons hline, ih hrest, Emitted.pc_take]
    rfl

/-- Every line is listed at the address that the lines before it lead to. -/
theorem pc_of_emissions (h : emissions labels pc lines = before ++ x :: after) :
    x.pc = Emission.reached pc before := by
  induction lines generalizing pc before with
  | nil => simp [emissions] at h
  | cons text rest ih =>
    cases hline : emitLine labels pc text with
    | error reason => simp [emissions, hline] at h
    | ok effect =>
      rw [emissions_cons hline] at h
      cases before with
      | nil =>
        obtain ⟨rfl, -⟩ := List.cons.inj h
        rfl
      | cons first before =>
        obtain ⟨rfl, hrest⟩ := List.cons.inj h
        have hx : x.pc = Emission.reached (effect.next pc) before := ih hrest
        exact hx

/-! ### The last byte -/

/-- The bytes of a line end right before the address that it leads to. -/
theorem Emission.getLast?_changes (h : x.bytes ≠ []) :
    ∃ last, x.changes.getLast? = some last ∧ x.effect.next x.pc = last.address + 1 := by
  obtain ⟨front, value, hbytes⟩ : ∃ front value, x.bytes = front ++ [value] :=
    ⟨_, _, (List.dropLast_append_getLast h).symm⟩
  refine ⟨⟨x.pc + UInt16.ofNat front.length, value⟩, ?_, ?_⟩
  · rw [changes, hbytes, Memory.changesFrom_append]
    simp [Memory.changesFrom_cons]
  · rw [next_of_bytes h, hbytes, List.length_append, UInt16.ofNat_add, ← UInt16.add_assoc]
    rfl

namespace Assembly

/-- The last address that is set behind the last byte, if any is. -/
def lateOrigin? (source : Text) : Option UInt16 :=
  ((emitted source).reverse.takeWhile fun x => x.bytes.isEmpty).findSome? Emission.origin?

theorem exists_last_line (h : written source ≠ []) :
    ∃ before x after, emitted source = before ++ x :: after ∧ x.bytes ≠ [] ∧
      (∀ y ∈ after, y.bytes = []) ∧ lateOrigin? source = after.reverse.findSome? Emission.origin? := by
  have hsplit : (emitted source).reverse.takeWhile (fun x => x.bytes.isEmpty) ++
      (emitted source).reverse.dropWhile (fun x => x.bytes.isEmpty) = (emitted source).reverse :=
    List.takeWhile_append_dropWhile
  cases hdrop : (emitted source).reverse.dropWhile fun x => x.bytes.isEmpty with
  | nil =>
    -- No line has bytes, so nothing is written.
    refine absurd (List.flatMap_eq_nil_iff.mpr fun x hx => ?_) h
    have hempty : x.bytes.isEmpty = true :=
      List.dropWhile_eq_nil_iff.mp hdrop x (List.mem_reverse.mpr hx)
    rw [Emission.changes, List.isEmpty_iff.mp hempty, Memory.changesFrom_nil]
  | cons x before =>
    rw [hdrop] at hsplit
    refine ⟨before.reverse, x,
      ((emitted source).reverse.takeWhile fun x => x.bytes.isEmpty).reverse, ?_, ?_, ?_, ?_⟩
    · have hreverse := congrArg List.reverse hsplit
      simpa using hreverse.symm
    · have hx := List.head_dropWhile_not (fun x : Emission => x.bytes.isEmpty)
        (l := (emitted source).reverse) (by simp [hdrop])
      simpa [hdrop] using hx
    · intro y hy
      have hempty := List.all_eq_true.mp List.all_takeWhile y (List.mem_reverse.mp hy)
      exact List.isEmpty_iff.mp hempty
    · rw [List.reverse_reverse]
      rfl

theorem written_ne_nil (hok : (ofText source).result = .ok report) : written source ≠ [] := by
  obtain ⟨e, -, hcount, -, hne, -⟩ := exists_emitted hok
  intro hnil
  rw [hnil] at hcount
  exact hne hcount

theorem pc_eq (hok : (ofText source).result = .ok report) :
    ∃ last, (written source).getLast? = some last ∧
      (ofText source).pc = (lateOrigin? source).getD (last.address + 1) := by
  obtain ⟨e, hemit, -, -, -, heq⟩ := exists_emitted hok
  obtain ⟨before, x, after, hsplit, hx, hafter, hlate⟩ := exists_last_line (written_ne_nil hok)
  obtain ⟨last, hlast, hnext⟩ := Emission.getLast?_changes hx
  refine ⟨last, ?_, ?_⟩
  · have hnone : after.flatMap Emission.changes = [] := by
      refine List.flatMap_eq_nil_iff.mpr fun y hy => ?_
      rw [Emission.changes, hafter y hy, Memory.changesFrom_nil]
    rw [written, hsplit, List.flatMap_append, List.flatMap_cons, hnone, List.append_nil,
      List.getLast?_append, hlast]
    rfl
  · have hpc : (ofText source).pc = Emission.reached startAddress (emitted source) := by
      rw [heq, pc_complete]
      exact pc_eq_reached hemit
    have hxpc : x.pc = Emission.reached startAddress before := pc_of_emissions hsplit
    rw [hpc, hsplit, Emission.reached_append, ← hxpc, Emission.reached_cons, hnext, hlate,
      Emission.reached_of_empty hafter]

/-- The zero is written last, at the address that was reached. -/
theorem load_eq (hok : (ofText source).result = .ok report) (memory : Memory) :
    (ofText source).load memory = (memory.apply (written source)).set (ofText source).pc 0 := by
  obtain ⟨e, -, -, hwritten, hcount, heq⟩ := exists_emitted hok
  rw [heq, load, changes_complete hcount, Memory.apply_append, hwritten, pc_complete]
  rfl

end Assembly

/--
**Where the zero behind a program is.**  An assembly that succeeded has written a last byte,
and a zero to the address that it ended at.  This is the address behind the last byte, unless
the address was set once more after that byte; then it is the last one that was set.  So
without such an origin, the cell behind the last byte holds zero, and the assembly ends there.
-/
theorem zero_behind_last_byte (hok : (Assembly.ofText source).result = .ok report)
    (memory : Memory) :
    ∃ last, (Assembly.written source).getLast? = some last ∧
      (Assembly.ofText source).pc =
        (Assembly.lateOrigin? source).getD (last.address + 1) ∧
      ((Assembly.ofText source).load memory).get (Assembly.ofText source).pc = 0 ∧
      (Assembly.lateOrigin? source = none →
        ((Assembly.ofText source).load memory).get (last.address + 1) = 0 ∧
          (Assembly.ofText source).pc = last.address + 1) := by
  obtain ⟨last, hlast, hpc⟩ := Assembly.pc_eq hok
  have hzero : ((Assembly.ofText source).load memory).get (Assembly.ofText source).pc = 0 := by
    rw [Assembly.load_eq hok, Memory.get_set_self]
  refine ⟨last, hlast, hpc, hzero, fun hnone => ?_⟩
  have hbehind : (Assembly.ofText source).pc = last.address + 1 := by
    rw [hpc, hnone]
    rfl
  rw [← hbehind]
  exact ⟨hzero, rfl⟩

/-- An origin between two bytes, and a label behind the last, which is at the end of memory. -/
theorem zero_behind_last_byte_at_start :
    (Assembly.ofText "NOP\n*=$ffff\nDCB 7\nend:".toList).pc = 0x0000 ∧
      ((Assembly.ofText "NOP\n*=$ffff\nDCB 7\nend:".toList).load Memory.empty).get 0x0000 = 0 := by
  obtain ⟨last, hlast, -, -, hbehind⟩ := @zero_behind_last_byte
    "NOP\n*=$ffff\nDCB 7\nend:".toList ⟨2, 1⟩ (by rfl) Memory.empty
  have hwritten : (Assembly.written "NOP\n*=$ffff\nDCB 7\nend:".toList).getLast? =
      some ⟨0xffff, 7⟩ := by
    decide +kernel
  obtain rfl : ⟨0xffff, 7⟩ = last := Option.some.inj (hwritten.symm.trans hlast)
  obtain ⟨hzero, hpc⟩ := hbehind (by decide +kernel)
  exact ⟨hpc, hzero⟩

/-- With an origin behind the last byte, the cell after it keeps what it held. -/
theorem no_zero_behind_last_byte :
    (Assembly.ofText "NOP\n*=$0700".toList).result = .ok ⟨1, 0⟩ ∧
      (Assembly.written "NOP\n*=$0700".toList).getLast? = some ⟨0x0600, 0xea⟩ ∧
      ((Assembly.ofText "NOP\n*=$0700".toList).load (Memory.empty.set 0x0601 0x60)).get
        (0x0600 + 1) ≠ 0 ∧
      (Assembly.ofText "NOP\n*=$0700".toList).pc ≠ 0x0600 + 1 := by
  have hchanges : (Assembly.ofText "NOP\n*=$0700".toList).changes =
      [⟨0x0600, 0xea⟩, ⟨0x0700, 0⟩] := by
    decide +kernel
  refine ⟨by rfl, by decide +kernel, ?_, by decide +kernel⟩
  rw [Assembly.load, hchanges, Memory.get_apply_of_notMem (by decide),
    show (0x0600 + 1 : UInt16) = 0x0601 from rfl, Memory.get_set_self]
  decide

/-! ### What the zero hits -/

namespace Memory

theorem map_value_changesFrom (address : UInt16) (bytes : List UInt8) :
    (changesFrom address bytes).map Change.value = bytes := by
  rw [changesFrom, List.map_map]
  exact List.zipIdx_map_fst 0 bytes

/-- A segment is read cell by cell. -/
theorem read_segment (memory : Memory) (segment : Segment) :
    memory.read segment.start segment.length = segment.addresses.map memory.get := by
  rw [read, Segment.addresses, List.map_map]
  rfl

end Memory

namespace Assembly

theorem map_value_written (source : Text) :
    (written source).map Change.value = (emitted source).flatMap Emission.bytes := by
  rw [written, List.map_flatMap]
  exact List.flatMap_congr fun x _ => Memory.map_value_changesFrom x.pc x.bytes

/-- The segments go over the written addresses in order. -/
theorem addresses_segments (hok : (ofText source).result = .ok report) :
    (ofText source).segments.flatMap Segment.addresses =
      (written source).map Change.address := by
  obtain ⟨e, hemit, -, -, hcount, heq⟩ := exists_emitted hok
  have hstart : Emitted.initial.Filled [] := ⟨rfl, rfl⟩
  obtain ⟨later, hlater, hfilled⟩ := filledBy_emitFrom hstart hemit
  replace hlater : e.segments = later := hlater
  subst hlater
  have hrows : (stretches (emissions (ofText source).labels startAddress
      (Prepared.ofText source).lines)).modifyHead ([] ++ ·) = stretches (emitted source) := by
    rw [emitted]
    cases stretches _ <;> rfl
  have hcells := Segment.flatMap_addresses_of_filledBy (hrows ▸ hfilled)
  rw [flatten_stretches] at hcells
  rw [heq, segments_complete hcount]
  exact hcells

/-- Every byte stays where it was put, but for the one that the zero hits. -/
theorem get_load (hok : (ofText source).result = .ok report)
    (hdistinct : ((written source).map Change.address).Nodup) {change : Change}
    (hchange : change ∈ written source) (hfree : change.address ≠ (ofText source).pc)
    (memory : Memory) : ((ofText source).load memory).get change.address = change.value := by
  rw [load_eq hok, Memory.get_set_of_ne hfree]
  exact Memory.get_apply_of_mem hdistinct hchange memory

end Assembly

/--
**What is left of the bytes of a program.**  If no cell was written twice, every byte of every
line is held where the line put it, in whatever order the origins come, but for one that is at
the address where the assembly ended, as the zero goes there.  If none is, then the segments,
read one after another, give the bytes of all lines in order.
-/
theorem emitted_bytes_stay (hok : (Assembly.ofText source).result = .ok report)
    (hdistinct : ((Assembly.written source).map Change.address).Nodup) (memory : Memory) :
    (∀ x ∈ Assembly.emitted source, ∀ change ∈ x.changes,
      change.address ≠ (Assembly.ofText source).pc →
        ((Assembly.ofText source).load memory).get change.address = change.value) ∧
      ((Assembly.ofText source).pc ∉ (Assembly.written source).map Change.address →
        ((Assembly.ofText source).segments.flatMap fun segment =>
            ((Assembly.ofText source).load memory).read segment.start segment.length) =
          (Assembly.emitted source).flatMap Emission.bytes) := by
  refine ⟨fun x hx change hchange hfree => ?_, fun hfree => ?_⟩
  · exact Assembly.get_load hok hdistinct (List.mem_flatMap.mpr ⟨x, hx, hchange⟩) hfree memory
  · have hget : ∀ change ∈ Assembly.written source,
        ((Assembly.ofText source).load memory).get change.address = change.value := by
      intro change hchange
      refine Assembly.get_load hok hdistinct hchange ?_ memory
      rintro heq
      exact hfree (heq ▸ List.mem_map_of_mem hchange)
    rw [← Assembly.map_value_written, ← List.map_congr_left hget]
    simp only [Memory.read_segment, ← List.map_flatMap, Assembly.addresses_segments hok,
      List.map_map]
    rfl

/-- Two segments downwards, with a gap for the zero. -/
theorem emitted_bytes_stay_downwards :
    ((Assembly.ofText "*=$0602\nINX\n*=$0600\nNOP".toList).segments.flatMap fun segment =>
        ((Assembly.ofText "*=$0602\nINX\n*=$0600\nNOP".toList).load Memory.empty).read
          segment.start segment.length) = [0xe8, 0xea] := by
  obtain ⟨-, hread⟩ := @emitted_bytes_stay "*=$0602\nINX\n*=$0600\nNOP".toList ⟨2, 0⟩ (by rfl)
    (by decide +kernel) Memory.empty
  rw [hread (by decide +kernel)]
  decide +kernel

/-- Without the gap, the zero takes the place of the byte that was emitted there. -/
theorem emitted_byte_lost :
    (Assembly.ofText "*=$0601\nINX\n*=$0600\nNOP".toList).result = .ok ⟨2, 0⟩ ∧
      ((Assembly.written "*=$0601\nINX\n*=$0600\nNOP".toList).map Change.address).Nodup ∧
      (Assembly.written "*=$0601\nINX\n*=$0600\nNOP".toList).length ≤ 65535 ∧
      ⟨0x0601, 0xe8⟩ ∈ Assembly.written "*=$0601\nINX\n*=$0600\nNOP".toList ∧
      ((Assembly.ofText "*=$0601\nINX\n*=$0600\nNOP".toList).load Memory.empty).get 0x0601 ≠
        0xe8 := by
  have hpc : (Assembly.ofText "*=$0601\nINX\n*=$0600\nNOP".toList).pc = 0x0601 := by
    decide +kernel
  have hok : (Assembly.ofText "*=$0601\nINX\n*=$0600\nNOP".toList).result = .ok ⟨2, 0⟩ := by
    rfl
  refine ⟨hok, by decide +kernel, by decide +kernel, by decide +kernel, ?_⟩
  rw [Assembly.load_eq hok, hpc, Memory.get_set_self]
  decide

end Mos6502
