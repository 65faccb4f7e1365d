/-
What a successful assembly leaves behind.

An assembly keeps five things while it goes over the lines: the address, the number of
bytes, the segments, the writes to memory and the map of lines.  Nothing ties them together
but the way each line changes them, so what they have to do with each other is an invariant
of the loop.  `Filled` is the one for the segment that is being filled: the writes since the
last origin went to its cells, one after another, and the next byte goes behind them.  An
origin closes the segment, so closed segments and the writes between origins go side by side.

The end is the same for all of it: segments without bytes are dropped, and one more write
puts a zero at the address that was reached.
-/
import Mathlib.Algebra.GroupWithZero.Nat
import Mos6502.Proofs.Emission
import Mos6502.Proofs.Writes

namespace Mos6502

variable {labels : Labels} {pc : UInt16} {line : Nat} {text : Text} {lines : List Text}
  {effect : Effect} {e e' : Emitted} {changes done : List Change} {source : Text}
  {report : Report}

/-! ### The cells of a segment -/

namespace Segment

/-- The addresses of the bytes.  They go on at `$0000` after `$FFFF`. -/
def addresses (segment : Segment) : List UInt16 :=
  (List.range segment.length).map fun i => segment.start + UInt16.ofNat i

/-- The segment that a row of writes fills, if there is any write. -/
def ofChanges? : List Change → Option Segment
  | [] => none
  | first :: rest => some ⟨first.address, rest.length + 1⟩

/-- Whether writes go to the cells of a segment, in their order. -/
def FilledBy (segment : Segment) (changes : List Change) : Prop :=
  changes.map Change.address = segment.addresses

theorem addresses_add (start : UInt16) (m n : Nat) :
    addresses ⟨start, m + n⟩ = addresses ⟨start, m⟩ ++ addresses ⟨start + UInt16.ofNat m, n⟩ := by
  simp only [addresses, List.range_add, List.map_append, List.map_map]
  congr 1
  refine List.map_congr_left fun i _ => ?_
  rw [Function.comp_apply, UInt16.ofNat_add, UInt16.add_assoc]

theorem FilledBy.length_eq {segment : Segment} (h : segment.FilledBy changes) :
    changes.length = segment.length := by
  have hlength := congrArg List.length h
  simpa [addresses] using hlength

/-- A segment is found again from the writes that fill it, unless it is empty. -/
theorem FilledBy.ofChanges?_eq {segment : Segment} (h : segment.FilledBy changes) :
    ofChanges? changes = if segment.length = 0 then none else some segment := by
  obtain ⟨start, length⟩ := segment
  have hlength : changes.length = length := h.length_eq
  subst hlength
  cases changes with
  | nil => rfl
  | cons first rest =>
    have hstart : first.address = start := by
      have hhead := congrArg List.head? h
      simpa [addresses, List.range_succ_eq_map] using hhead
    rw [ofChanges?, hstart, List.length_cons, if_neg (Nat.succ_ne_zero _)]

/-- Without the empty ones, segments are those of the writes that fill them. -/
theorem filter_of_filledBy {segments : List Segment} {rows : List (List Change)}
    (h : List.Forall₂ FilledBy segments rows) :
    (segments.filter fun segment => segment.length != 0) = rows.filterMap ofChanges? := by
  induction h with
  | nil => rfl
  | @cons segment row segments rows hfirst _ ih =>
    have hrow := hfirst.ofChanges?_eq
    by_cases hlength : segment.length = 0
    · rw [if_pos hlength] at hrow
      rw [List.filter_cons_of_neg (by simp [hlength]), List.filterMap_cons_none hrow, ih]
    · rw [if_neg hlength] at hrow
      rw [List.filter_cons_of_pos (by simp [hlength]), List.filterMap_cons_some hrow, ih]

/-- The addresses of the segments of some rows of writes are those that are written. -/
theorem flatMap_addresses_of_filledBy {segments : List Segment} {rows : List (List Change)}
    (h : List.Forall₂ FilledBy segments rows) :
    (segments.filter fun segment => segment.length != 0).flatMap addresses =
      rows.flatten.map Change.address := by
  induction h with
  | nil => rfl
  | @cons segment row segments rows hfirst _ ih =>
    rw [List.flatten_cons, List.map_append, ← ih, hfirst]
    by_cases hlength : segment.length = 0
    · rw [List.filter_cons_of_neg (by simp [hlength]), addresses, hlength]
      rfl
    · rw [List.filter_cons_of_pos (by simp [hlength]), List.flatMap_cons]

end Segment

/-! ### The lines between origins -/

/-- Whether a line sets the address. -/
def Emission.isOrigin (x : Emission) : Bool :=
  match x.effect with
  | .origin _ => true
  | _ => false

/-- What is written before the first origin, between one origin and the next, and behind
the last. -/
def stretches (xs : List Emission) : List (List Change) :=
  (xs.splitOnP Emission.isOrigin).map fun lines => lines.flatMap Emission.changes

theorem stretches_cons_of_origin {x : Emission} (h : x.isOrigin = true) (xs : List Emission) :
    stretches (x :: xs) = [] :: stretches xs := by
  rw [stretches, List.splitOnP_cons_eq_if_modifyHead, if_pos h]
  rfl

theorem stretches_cons_of_not_origin {x : Emission} (h : x.isOrigin = false)
    (xs : List Emission) :
    stretches (x :: xs) = (stretches xs).modifyHead (x.changes ++ ·) := by
  rw [stretches, List.splitOnP_cons_eq_if_modifyHead, if_neg (by simp [h]), stretches]
  cases xs.splitOnP Emission.isOrigin <;> rfl

/-- An origin itself writes nothing, so the stretches hold all that is written. -/
theorem flatten_stretches (xs : List Emission) :
    (stretches xs).flatten = xs.flatMap Emission.changes := by
  induction xs with
  | nil => rfl
  | cons x xs ih =>
    cases h : x.isOrigin with
    | true =>
      have hnone : x.changes = [] := by
        obtain ⟨text, pc, effect⟩ := x
        cases effect with
        | origin address => rfl
        | nothing | bytes => cases h
      rw [stretches_cons_of_origin h, List.flatten_cons, ih, List.flatMap_cons, hnone]
    | false =>
      rw [stretches_cons_of_not_origin h, List.flatMap_cons, ← ih]
      have hne : stretches xs ≠ [] := by
        simp [stretches]
      cases hxs : stretches xs with
      | nil => exact absurd hxs hne
      | cons first rest => simp

/-! ### The segment that is being filled -/

/-- The writes since the last origin fill the current segment, up to the current address. -/
structure Emitted.Filled (e : Emitted) (done : List Change) : Prop where
  pc : e.pc = e.current.start + UInt16.ofNat e.current.length
  cells : e.current.FilledBy done

namespace Emitted

theorem filled_goTo (e : Emitted) (address : UInt16) : (e.goTo address).Filled [] :=
  ⟨(UInt16.add_zero _).symm, rfl⟩

theorem Filled.store (h : e.Filled done) (line : Nat) (bytes : List UInt8) :
    (e.store line bytes).Filled (done ++ Memory.changesFrom e.pc bytes) := by
  refine ⟨?_, ?_⟩
  · show e.pc + _ = e.current.start + UInt16.ofNat (e.current.length + bytes.length)
    rw [h.pc, UInt16.ofNat_add, UInt16.add_assoc]
  · show List.map _ _ = Segment.addresses ⟨e.current.start, e.current.length + bytes.length⟩
    rw [List.map_append, h.cells, Memory.map_address_changesFrom, Segment.addresses_add, ← h.pc]
    rfl

theorem Filled.take (h : e.Filled done) (line : Nat) (text : Text) {effect : Effect}
    (horigin : Emission.isOrigin ⟨text, e.pc, effect⟩ = false) :
    (e.take line effect).Filled (done ++ Emission.changes ⟨text, e.pc, effect⟩) := by
  cases effect with
  | nothing =>
    show e.Filled (done ++ [])
    rwa [List.append_nil]
  | origin address => cases horigin
  | bytes bytes => exact h.store line bytes

theorem closed_take {effect : Effect} (line : Nat) (text : Text)
    (horigin : Emission.isOrigin ⟨text, e.pc, effect⟩ = false) :
    (e.take line effect).closed = e.closed := by
  cases effect with
  | origin address => cases horigin
  | nothing | bytes => rfl

end Emitted

/-! ### All lines -/

private theorem modifyHead_nil_append (rows : List (List Change)) :
    rows.modifyHead ([] ++ ·) = rows := by
  cases rows <;> rfl

/-- Lines go on filling the current segment, and open one more with every origin. -/
theorem filledBy_emitFrom (hfilled : e.Filled done)
    (h : emitFrom labels e line lines = (e', none)) :
    ∃ later, e'.segments = e.closed.toList ++ later ∧
      List.Forall₂ Segment.FilledBy later
        ((stretches (emissions labels e.pc lines)).modifyHead (done ++ ·)) := by
  induction lines generalizing e line done with
  | nil =>
    cases h
    refine ⟨[e'.current], Array.toList_push, .cons ?_ .nil⟩
    show e'.current.FilledBy (done ++ [])
    rw [List.append_nil]
    exact hfilled.cells
  | cons text rest ih =>
    obtain ⟨effect, hline, hrest⟩ := emitFrom_cons h
    rw [emissions_cons hline, ← Emitted.pc_take e line effect]
    cases horigin : Emission.isOrigin ⟨text, e.pc, effect⟩ with
    | true =>
      obtain ⟨address, rfl⟩ : ∃ address, effect = .origin address := by
        cases effect with
        | origin address => exact ⟨address, rfl⟩
        | nothing | bytes => cases horigin
      obtain ⟨later, hlater, hall⟩ := ih (Emitted.filled_goTo e address) hrest
      refine ⟨e.current :: later, ?_, ?_⟩
      · rw [hlater]
        simp [Emitted.goTo]
      · rw [stretches_cons_of_origin horigin, List.modifyHead_cons, List.append_nil]
        rw [modifyHead_nil_append] at hall
        exact .cons hfilled.cells hall
    | false =>
      obtain ⟨later, hlater, hall⟩ := ih (hfilled.take line text horigin) hrest
      refine ⟨later, by rw [hlater, Emitted.closed_take line text horigin], ?_⟩
      rw [stretches_cons_of_not_origin horigin, List.modifyHead_modifyHead]
      simpa only [Function.comp_def, List.append_assoc] using hall

/-- A line is listed at the address that the lines before it reach, with the effect that it
has there. -/
theorem exists_of_emissions {before after : List Emission} {x : Emission}
    (h : emissions labels e.pc lines = before ++ x :: after) (line : Nat) :
    ∃ reached, emitFrom labels e line (before.map Emission.text) = (reached, none) ∧
      reached.pc = x.pc ∧ emitLine labels x.pc x.text = .ok x.effect := by
  induction lines generalizing e line before with
  | nil => simp [emissions] at h
  | cons text rest ih =>
    cases hline : emitLine labels e.pc text with
    | error reason => simp [emissions, hline] at h
    | ok effect =>
      rw [emissions_cons hline, ← Emitted.pc_take e line effect] at h
      cases before with
      | nil =>
        obtain ⟨rfl, -⟩ := List.cons.inj h
        exact ⟨e, rfl, rfl, hline⟩
      | cons first before =>
        obtain ⟨rfl, hrest⟩ := List.cons.inj h
        obtain ⟨reached, hreached, hx⟩ := ih hrest (line + 1)
        refine ⟨reached, ?_, hx⟩
        rw [List.map_cons, emitFrom, hline]
        exact hreached

/-! ### The whole assembly -/

/-- An assembly that succeeded is made from its listed lines. -/
theorem Assembly.exists_emitted (hok : (ofText source).result = .ok report) :
    ∃ e, emitFrom (ofText source).labels Emitted.initial 1 (Prepared.ofText source).lines =
        (e, none) ∧
      e.count = (written source).length ∧ e.changes.toList = written source ∧
      e.count ≠ 0 ∧ ofText source = complete (ofText source).labels e := by
  obtain ⟨labels, e, -, hemit, hcount, heq⟩ := eq_complete_of_ok hok
  have hlabels : (ofText source).labels = labels := by
    rw [heq, labels_complete]
  subst hlabels
  have hwritten : e.changes.toList = written source := changes_emitFrom hemit
  refine ⟨e, hemit, ?_, hwritten, hcount, heq⟩
  rw [← hwritten, Array.length_toList]
  exact count_emitFrom rfl hemit

/--
**What a successful assembly leaves behind.**  Every line is listed, at the address that the
lines before it reach and with the effect it has there.  Memory is changed by the writes of
the lines in order and by a zero at the address that was reached, and nowhere else.  The
report, the count and the segments all count the bytes of the lines.  The segments, none of
which is empty, go over the written addresses in order, and they are those of the stretches
between origins in which anything was written.
-/
theorem assembly_writes_exactly (hok : (Assembly.ofText source).result = .ok report)
    (memory : Memory) :
    (Assembly.emitted source).map Emission.text = (Prepared.ofText source).lines ∧
      (∀ before x after, Assembly.emitted source = before ++ x :: after →
        ∃ e, emitFrom (Assembly.ofText source).labels Emitted.initial 1
            (before.map Emission.text) = (e, none) ∧
          e.pc = x.pc ∧
          emitLine (Assembly.ofText source).labels x.pc x.text = .ok x.effect) ∧
      (Assembly.ofText source).load memory =
        (memory.apply (Assembly.written source)).set (Assembly.ofText source).pc 0 ∧
      (∀ address ∉ (Assembly.written source).map Change.address,
        address ≠ (Assembly.ofText source).pc →
        ((Assembly.ofText source).load memory).get address = memory.get address) ∧
      report.bytes = (Assembly.written source).length ∧
      (Assembly.ofText source).count = (Assembly.written source).length ∧
      ((Assembly.ofText source).segments.map Segment.length).sum =
        (Assembly.written source).length ∧
      (∀ segment ∈ (Assembly.ofText source).segments, segment.length ≠ 0) ∧
      (Assembly.ofText source).segments.flatMap Segment.addresses =
        (Assembly.written source).map Change.address ∧
      (Assembly.ofText source).segments =
        (stretches (Assembly.emitted source)).filterMap Segment.ofChanges? := by
  obtain ⟨e, hemit, hsize, hwritten, hcount, heq⟩ := Assembly.exists_emitted hok
  have hload : (Assembly.ofText source).load memory =
      (memory.apply (Assembly.written source)).set (Assembly.ofText source).pc 0 := by
    rw [heq, Assembly.load, Assembly.changes_complete hcount, Memory.apply_append, hwritten,
      Assembly.pc_complete]
    rfl
  have hreport : report.bytes = e.count := by
    rw [heq, Assembly.result_complete hcount] at hok
    cases hok
    rfl
  have hsegments : (Assembly.ofText source).segments =
      e.segments.filter fun segment => segment.length != 0 := by
    rw [heq, Assembly.segments_complete hcount]
  -- Segments and stretches side by side: nothing was filled before the first line.
  have hstart : Emitted.initial.Filled [] := ⟨rfl, rfl⟩
  obtain ⟨later, hlater, hfilled⟩ := filledBy_emitFrom hstart hemit
  replace hlater : e.segments = later := hlater
  subst hlater
  rw [modifyHead_nil_append] at hfilled
  replace hfilled :
      List.Forall₂ Segment.FilledBy e.segments (stretches (Assembly.emitted source)) := hfilled
  have haddresses : (Assembly.ofText source).segments.flatMap Segment.addresses =
      (Assembly.written source).map Change.address := by
    rw [hsegments, Segment.flatMap_addresses_of_filledBy hfilled, flatten_stretches]
    rfl
  refine ⟨map_text_emissions hemit, fun before x after hx => ?_, hload, ?_, ?_, ?_, ?_, ?_,
    haddresses, ?_⟩
  · exact exists_of_emissions (e := Emitted.initial) hx 1
  · intro address hwritten hterminator
    rw [hload, Memory.get_set_of_ne hterminator, Memory.get_apply_of_notMem hwritten]
  · rw [hreport, hsize]
  · rw [heq, Assembly.count_complete, hsize]
  · have hlength := congrArg List.length haddresses
    simpa [List.length_flatMap, Segment.addresses] using hlength
  · rw [hsegments]
    intro segment hsegment
    simpa using List.of_mem_filter hsegment
  · rw [hsegments, Segment.filter_of_filledBy hfilled]

/-- Data across the end of memory, an origin without bytes, and data over the first. -/
theorem assembly_writes_exactly_across_end :
    ∃ assembly, assembly = Assembly.ofText "*=$ffff\nDCB 1,2\n*=$0700\n*=$0000\nNOP".toList ∧
      assembly.load Memory.empty =
        (Memory.empty.apply [⟨0xffff, 1⟩, ⟨0x0000, 2⟩, ⟨0x0000, 0xea⟩]).set 0x0001 0 ∧
      assembly.segments = [⟨0xffff, 2⟩, ⟨0x0000, 1⟩] := by
  obtain ⟨-, -, hload, -, -, -, -, -, -, hsegments⟩ := @assembly_writes_exactly
    "*=$ffff\nDCB 1,2\n*=$0700\n*=$0000\nNOP".toList ⟨3, 0⟩ (by rfl) Memory.empty
  have hwritten : Assembly.written "*=$ffff\nDCB 1,2\n*=$0700\n*=$0000\nNOP".toList =
      [⟨0xffff, 1⟩, ⟨0x0000, 2⟩, ⟨0x0000, 0xea⟩] := by
    decide +kernel
  have hpc : (Assembly.ofText "*=$ffff\nDCB 1,2\n*=$0700\n*=$0000\nNOP".toList).pc = 0x0001 := by
    decide +kernel
  rw [hwritten, hpc] at hload
  refine ⟨_, rfl, hload, hsegments.trans ?_⟩
  decide +kernel

end Mos6502
