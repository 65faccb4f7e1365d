/-
From addresses back to lines.

Each line that has bytes adds one entry to both rows of the map, with its address and the number of
its bytes, so the entries are those of the lines in the order of the source (`mappings`).  As long
as no cell is filled twice and no line is too long, or runs over the end of memory, the entries
are apart, and what a lookup finds depends on their order alone.

After a success the rows are sorted, one by address and one by line, and every cell and every line
is found, whatever the order of the origins.  A line that is rejected ends the assembly before that.
What is found then is still right, but all of it is found only if the lines before the rejected one
went upwards in memory.
-/
import Mos6502.Proofs.Lookup
import Mos6502.Proofs.Outcome
import Mos6502.Proofs.Segments

namespace Mos6502

/-! ### A line with data has a byte -/

theorem dataBytes?_ne_nil {operand : Text} {bytes : List UInt8}
    (h : dataBytes? operand = some bytes) : bytes ≠ [] := by
  rintro rfl
  unfold dataBytes? at h
  simp only at h
  split at h
  · cases h
  · rename_i hentries
    obtain ⟨entry, rest, hcons⟩ := List.exists_cons_of_ne_nil hentries
    rw [hcons, List.mapM_cons] at h
    obtain ⟨byte, -, hrest⟩ := Option.bind_eq_some_iff.mp h
    obtain ⟨more, -, hmore⟩ := Option.bind_eq_some_iff.mp hrest
    cases hmore

theorem Statement.data_ne_nil {text : Text} {bytes : List UInt8}
    (h : Statement.parse? text = some (.data bytes)) : bytes ≠ [] := by
  unfold Statement.parse? at h
  split at h
  · cases h
  · split at h
    · simp at h
    · simp only at h
      split at h
      · obtain ⟨found, hfound, heq⟩ := Option.map_eq_some_iff.mp h
        cases heq
        exact dataBytes?_ne_nil hfound
      · simp at h

theorem Line.data_ne_nil {text : Text} {label : Option Text} {bytes : List UInt8}
    (h : Line.parse? text = some ⟨label, .data bytes⟩) : bytes ≠ [] := by
  unfold Line.parse? at h
  simp only at h
  split at h
  all_goals
    obtain ⟨statement, hstatement, heq⟩ := Option.map_eq_some_iff.mp h
    cases heq
    exact Statement.data_ne_nil hstatement

variable {labels : Labels} {pc address : UInt16} {line n : Nat} {text : Text} {lines : List Text}
  {effect : Effect} {e e' : Emitted} {x : Emission} {xs : List Emission} {entry : Mapping}
  {source : Text} {report : Report} {reason : LineError}

/-- No line adds an empty row of bytes. -/
theorem ne_bytes_nil_of_emitLine (h : emitLine labels pc text = .ok effect) :
    effect ≠ .bytes [] := by
  rintro rfl
  obtain ⟨⟨label, statement⟩, hparse, heffect⟩ := emitLine_eq_ok_iff.mp h
  cases statement with
  | empty | origin => cases heffect
  | data =>
    cases heffect
    exact Line.data_ne_nil hparse rfl
  | instruction m operand =>
    obtain ⟨bytes, hencode, heq⟩ := encode_of_emitLine hparse h
    cases heq
    obtain ⟨c, -, hbytes⟩ := Mnemonic.encode_eq_ok_iff.mp hencode
    obtain ⟨opcode, rest, -, -, hcons⟩ := Mnemonic.encodeAs?_eq_ok_iff.mp hbytes
    cases hcons

/-! ### The entry of a line -/

namespace Emission

/-- What the line adds to the map under its number, if it has bytes. -/
def mapping? (line : Nat) (x : Emission) : Option Mapping :=
  if x.bytes = [] then none else some ⟨⟨x.pc, UInt16.ofNat x.bytes.length⟩, line⟩

/-- The line put a byte at an address. -/
def Fills (x : Emission) (address : UInt16) : Prop :=
  address ∈ x.changes.map Change.address

/-- The line has at most 65535 bytes, and none behind the end of memory. -/
structure Fits (x : Emission) : Prop where
  length : x.bytes.length ≤ 0xffff
  within : x.pc.toNat + x.bytes.length ≤ 0x10000

instance : Decidable x.Fits :=
  decidable_of_iff (x.bytes.length ≤ 0xffff ∧ x.pc.toNat + x.bytes.length ≤ 0x10000)
    ⟨fun h => ⟨h.1, h.2⟩, fun h => ⟨h.length, h.within⟩⟩

instance : Decidable (x.Fills address) :=
  inferInstanceAs (Decidable (address ∈ _))

theorem mapping?_eq_some_iff :
    x.mapping? line = some entry ↔
      x.bytes ≠ [] ∧ ⟨⟨x.pc, UInt16.ofNat x.bytes.length⟩, line⟩ = entry := by
  unfold mapping?
  split <;> simp_all

theorem mapping?_of_ne_nil (h : x.bytes ≠ []) (line : Nat) :
    x.mapping? line = some ⟨⟨x.pc, UInt16.ofNat x.bytes.length⟩, line⟩ :=
  mapping?_eq_some_iff.mpr ⟨h, rfl⟩

theorem line_of_mapping? (h : x.mapping? line = some entry) : entry.line = line := by
  obtain ⟨-, rfl⟩ := mapping?_eq_some_iff.mp h
  rfl

theorem fills_iff : x.Fills address ↔ ∃ i < x.bytes.length, x.pc + UInt16.ofNat i = address := by
  rw [Fills, changes, Memory.map_address_changesFrom]
  simp

theorem Fills.bytes_ne_nil (h : x.Fills address) : x.bytes ≠ [] := by
  obtain ⟨i, hi, -⟩ := fills_iff.mp h
  exact List.ne_nil_of_length_pos (Nat.zero_lt_of_lt hi)

namespace Fits

variable (h : x.Fits) (hentry : x.mapping? line = some entry)

include h

/-- The length in the map is the number of bytes. -/
theorem toNat_length : (UInt16.ofNat x.bytes.length).toNat = x.bytes.length := by
  have hlength := h.length
  rw [UInt16.toNat_ofNat']
  omega

include hentry

theorem within_mapping : entry.range.Within := by
  obtain ⟨hne, rfl⟩ := mapping?_eq_some_iff.mp hentry
  refine ⟨?_, ?_⟩
  · show 0 < (UInt16.ofNat _).toNat
    rw [h.toNat_length]
    exact List.length_pos_iff.mpr hne
  · show x.pc.toNat + (UInt16.ofNat _).toNat ≤ _
    rw [h.toNat_length]
    exact h.within

/-- The entry of a line holds the cells that the line filled. -/
theorem contains_iff_fills : entry.range.contains address = true ↔ x.Fills address := by
  rw [(h.within_mapping hentry).contains_iff, fills_iff]
  obtain ⟨hne, rfl⟩ := mapping?_eq_some_iff.mp hentry
  show x.pc.toNat ≤ _ ∧ _ < x.pc.toNat + (UInt16.ofNat _).toNat ↔ _
  have hwithin := h.within
  rw [h.toNat_length]
  constructor
  · rintro ⟨hlow, hhigh⟩
    have haddress := address.toNat_lt
    refine ⟨address.toNat - x.pc.toNat, by omega, UInt16.toNat_inj.mp ?_⟩
    rw [UInt16.toNat_add, UInt16.toNat_ofNat']
    omega
  · rintro ⟨i, hi, rfl⟩
    rw [UInt16.toNat_add, UInt16.toNat_ofNat']
    omega

end Fits

end Emission

/-! ### The entries of all lines -/

/-- What lines add to the map, the first of which has a number. -/
def mappings (line : Nat) : List Emission → List Mapping
  | [] => []
  | x :: xs => (x.mapping? line).toList ++ mappings (line + 1) xs

theorem mem_mappings :
    entry ∈ mappings line xs ↔
      ∃ i, ∃ x : Emission, xs[i]? = some x ∧ x.mapping? (line + i) = some entry := by
  induction xs generalizing line with
  | nil => simp [mappings]
  | cons x xs ih =>
    rw [mappings, List.mem_append, ih, Option.mem_toList]
    constructor
    · rintro (h | ⟨i, y, hy, hentry⟩)
      · exact ⟨0, x, rfl, h⟩
      · exact ⟨i + 1, y, hy, by rwa [← Nat.add_assoc, Nat.add_right_comm]⟩
    · rintro ⟨i, y, hy, hentry⟩
      cases i with
      | zero =>
        cases hy
        exact .inl hentry
      | succ i => exact .inr ⟨i, y, hy, by rwa [Nat.add_right_comm, Nat.add_assoc]⟩

/-- Where no cell is filled twice, the entries are apart. -/
theorem apart_mappings (hfits : ∀ x ∈ xs, x.Fits)
    (hdistinct : ((xs.flatMap Emission.changes).map Change.address).Nodup) (line : Nat) :
    SourceMap.Apart (mappings line xs) := by
  refine ⟨fun entry hentry => ?_, ?_⟩
  · obtain ⟨i, x, hx, hmapping⟩ := mem_mappings.mp hentry
    exact (hfits x (List.mem_of_getElem? hx)).within_mapping hmapping
  · induction xs generalizing line with
    | nil => exact .nil
    | cons x xs ih =>
      rw [List.forall_mem_cons] at hfits
      rw [List.flatMap_cons, List.map_append, List.nodup_append'] at hdistinct
      obtain ⟨-, hrest, hdisjoint⟩ := hdistinct
      refine List.pairwise_append.mpr ⟨?_, ih hfits.2 hrest (line + 1), ?_⟩
      · cases x.mapping? line with
        | none => exact .nil
        | some entry => exact List.pairwise_singleton _ _
      · rintro entry hentry other hother address ⟨hcontains, hcontains'⟩
        obtain ⟨i, y, hy, hmapping⟩ := mem_mappings.mp hother
        have hmem := List.mem_of_getElem? hy
        rw [hfits.1.contains_iff_fills (Option.mem_toList.mp hentry)] at hcontains
        rw [(hfits.2 y hmem).contains_iff_fills hmapping] at hcontains'
        refine hdisjoint hcontains ?_
        rw [List.map_flatMap]
        exact List.mem_flatMap.mpr ⟨y, hmem, hcontains'⟩

/-- Every line that has bytes is emitted further up in memory than those before it. -/
def Upwards (xs : List Emission) : Prop :=
  (xs.filter fun x => x.bytes ≠ []).Pairwise fun x y => x.pc < y.pc

instance : Decidable (Upwards xs) :=
  inferInstanceAs (Decidable (List.Pairwise _ _))

theorem map_start_mappings (line : Nat) (xs : List Emission) :
    (mappings line xs).map (fun entry => entry.range.start) =
      (xs.filter fun x => x.bytes ≠ []).map Emission.pc := by
  induction xs generalizing line with
  | nil => rfl
  | cons x xs ih =>
    rw [mappings, List.map_append, ih]
    by_cases hbytes : x.bytes = []
    · rw [List.filter_cons_of_neg (by simp [hbytes]), Emission.mapping?, if_pos hbytes]
      rfl
    · rw [List.filter_cons_of_pos (by simp [hbytes]), Emission.mapping?, if_neg hbytes]
      rfl

theorem ascending_mappings_iff (line : Nat) :
    SourceMap.Ascending Mapping.start (mappings line xs) ↔ Upwards xs := by
  have hstarts : ∀ e f : Mapping, e.start < f.start ↔ e.range.start < f.range.start :=
    fun _ _ => UInt16.lt_iff_toNat_lt.symm
  simp only [SourceMap.Ascending, hstarts]
  rw [Upwards, ← List.pairwise_map (f := Emission.pc) (R := (· < ·)), ← map_start_mappings line,
    List.pairwise_map]

/-- No two entries are of one line. -/
theorem pairwise_line_mappings (line : Nat) (xs : List Emission) :
    (mappings line xs).Pairwise fun e f => e.line ≠ f.line := by
  induction xs generalizing line with
  | nil => exact .nil
  | cons x xs ih =>
    refine List.pairwise_append.mpr ⟨?_, ih (line + 1), ?_⟩
    · cases x.mapping? line with
      | none => exact .nil
      | some entry => exact List.pairwise_singleton _ _
    · intro entry hentry other hother
      obtain ⟨i, y, -, hmapping⟩ := mem_mappings.mp hother
      rw [Emission.line_of_mapping? (Option.mem_toList.mp hentry),
        Emission.line_of_mapping? hmapping]
      omega

/-! ### Filling the map -/

/-- Some entries were added to a map, and it was not sorted yet. -/
structure SourceMap.Added (map : SourceMap) (entries : List Mapping) : Prop where
  byAddress : map.byAddress.toList = entries
  byLine : map.byLine.toList = entries

namespace SourceMap.Added

variable {map : SourceMap} {entries : List Mapping}

/-- Sorting by address loses no entry. -/
theorem mem_byAddress_sort (h : map.Added entries) :
    entry ∈ map.sort.byAddress.toList ↔ entry ∈ entries := by
  rw [← h.byAddress]
  exact (perm_sortBy Mapping.start map.byAddress).mem_iff

/-- Sorting by line loses no entry. -/
theorem mem_byLine_sort (h : map.Added entries) :
    entry ∈ map.sort.byLine.toList ↔ entry ∈ entries := by
  rw [← h.byLine]
  exact (perm_sortBy Mapping.line map.byLine).mem_iff

end SourceMap.Added

theorem added_initial : Emitted.initial.sourceMap.Added [] :=
  ⟨rfl, rfl⟩

theorem added_take {entries : List Mapping} (hmap : e.sourceMap.Added entries) (line : Nat)
    (text : Text) (h : effect ≠ .bytes []) :
    (e.take line effect).sourceMap.Added
      (entries ++ (Emission.mapping? line ⟨text, e.pc, effect⟩).toList) := by
  cases effect with
  | nothing | origin =>
    show e.sourceMap.Added (entries ++ [])
    rwa [List.append_nil]
  | bytes bytes =>
    have hne : bytes ≠ [] := fun hnil => h (hnil ▸ rfl)
    rw [@Emission.mapping?_of_ne_nil ⟨text, e.pc, .bytes bytes⟩ hne line, ← hmap.byAddress]
    refine ⟨Array.toList_push, Array.toList_push.trans ?_⟩
    rw [hmap.byLine, hmap.byAddress]
    rfl

/-- The map is filled line by line. -/
theorem added_emitFrom {entries : List Mapping} (hmap : e.sourceMap.Added entries)
    (h : emitFrom labels e line lines = (e', none)) :
    e'.sourceMap.Added (entries ++ mappings line (emissions labels e.pc lines)) := by
  induction lines generalizing e line entries with
  | nil =>
    cases h
    exact (List.append_nil entries).symm ▸ hmap
  | cons text rest ih =>
    obtain ⟨effect, hline, hrest⟩ := emitFrom_cons h
    have htaken := added_take hmap line text (ne_bytes_nil_of_emitLine hline)
    have hadded := ih htaken hrest
    rw [Emitted.pc_take, List.append_assoc] at hadded
    rw [emissions_cons hline]
    exact hadded

/-! ### Lines by their numbers -/

namespace Assembly

/-- The line of a number, counted from one, as it was emitted. -/
def line? (source : Text) : Nat → Option Emission
  | 0 => none
  | i + 1 => (emitted source)[i]?

/-- The line of a number put a byte at an address. -/
def Fills (source : Text) (n : Nat) (address : UInt16) : Prop :=
  ∃ x, line? source n = some x ∧ x.Fills address

theorem mem_of_line? (h : line? source n = some x) : x ∈ emitted source := by
  cases n with
  | zero => cases h
  | succ i => exact List.mem_of_getElem? h

theorem exists_line?_iff : (∃ x, line? source n = some x) ↔
    0 < n ∧ n ≤ (emitted source).length := by
  cases n with
  | zero => simp [line?]
  | succ i =>
    show (∃ x, (emitted source)[i]? = some x) ↔ _
    constructor
    · rintro ⟨x, hx⟩
      exact ⟨i.succ_pos, (List.getElem?_eq_some_iff.mp hx).1⟩
    · rintro ⟨-, hi⟩
      exact ⟨_, List.getElem?_eq_getElem hi⟩

theorem mem_mappings_iff :
    entry ∈ mappings 1 (emitted source) ↔
      ∃ x, line? source entry.line = some x ∧ x.mapping? entry.line = some entry := by
  rw [mem_mappings]
  constructor
  · rintro ⟨i, x, hx, hentry⟩
    rw [Emission.line_of_mapping? hentry]
    refine ⟨x, ?_, hentry⟩
    rwa [Nat.add_comm]
  · rintro ⟨x, hx, hentry⟩
    cases hn : entry.line with
    | zero =>
      rw [hn] at hx
      cases hx
    | succ i =>
      rw [hn] at hx hentry
      exact ⟨i, x, hx, by rwa [Nat.add_comm]⟩

/-- A line put a byte at an address if its entry holds the address. -/
theorem fills_iff (hfits : ∀ x ∈ emitted source, x.Fits) :
    Fills source n address ↔ ∃ entry ∈ mappings 1 (emitted source),
      entry.range.contains address = true ∧ entry.line = n := by
  constructor
  · rintro ⟨x, hx, hfills⟩
    have hmapping := Emission.mapping?_of_ne_nil hfills.bytes_ne_nil n
    refine ⟨⟨⟨x.pc, UInt16.ofNat x.bytes.length⟩, n⟩, mem_mappings_iff.mpr ⟨x, hx, hmapping⟩, ?_,
      rfl⟩
    exact ((hfits x (mem_of_line? hx)).contains_iff_fills hmapping).mpr hfills
  · rintro ⟨entry, hentry, hcontains, rfl⟩
    obtain ⟨x, hx, hmapping⟩ := mem_mappings_iff.mp hentry
    exact ⟨x, hx, ((hfits x (mem_of_line? hx)).contains_iff_fills hmapping).mp hcontains⟩

theorem exists_sourceMap_of_ok (hok : (ofText source).result = .ok report) :
    ∃ map : SourceMap, map.Added (mappings 1 (emitted source)) ∧
      (ofText source).sourceMap = map.sort := by
  obtain ⟨e, hemit, -, -, hcount, heq⟩ := exists_emitted hok
  refine ⟨e.sourceMap, added_emitFrom added_initial hemit, ?_⟩
  rw [heq, complete, if_neg hcount]

end Assembly

/--
**After a success every cell leads to its line.**  If no cell was filled twice, no line has
more than 65535 bytes and none runs over the end of memory, then looking up an address gives
the line that filled it, and nothing if none did, in whatever order the origins come.  And
looking up a line gives where its bytes start and how many they are, and nothing for a line
without bytes.
-/
theorem lines_found_after_success (hok : (Assembly.ofText source).result = .ok report)
    (hdistinct : ((Assembly.written source).map Change.address).Nodup)
    (hfits : ∀ x ∈ Assembly.emitted source, x.Fits) :
    (Assembly.emitted source).map Emission.text = (Prepared.ofText source).lines ∧
      (∀ address n, (Assembly.ofText source).sourceMap.lineAt? address = some n ↔
        Assembly.Fills source n address) ∧
      (∀ n x, Assembly.line? source n = some x → x.bytes ≠ [] →
        ∃ range, (Assembly.ofText source).sourceMap.rangeOf? n = some range ∧
          range.start = x.pc ∧ range.length.toNat = x.bytes.length) ∧
      (∀ n, (∀ x, Assembly.line? source n = some x → x.bytes = []) →
        (Assembly.ofText source).sourceMap.rangeOf? n = none) := by
  obtain ⟨e, hemit, -⟩ := Assembly.exists_emitted hok
  obtain ⟨map, hadded, hmap⟩ := Assembly.exists_sourceMap_of_ok hok
  have hapart : SourceMap.Apart map.byAddress.toList := by
    rw [hadded.byAddress]
    exact apart_mappings hfits hdistinct 1
  have hlines : map.byLine.toList.Pairwise fun e f => e.line ≠ f.line := by
    rw [hadded.byLine]
    exact pairwise_line_mappings 1 _
  rw [hmap]
  refine ⟨map_text_emissions hemit, fun address n => ?_, fun n x hx hne => ?_, fun n hnone => ?_⟩
  · rw [Assembly.fills_iff hfits]
    constructor
    · intro hline
      obtain ⟨entry, hentry, hfound⟩ := SourceMap.exists_of_lineAt? hline
      exact ⟨entry, hadded.mem_byAddress_sort.mp hentry, hfound⟩
    · rintro ⟨entry, hentry, hcontains, rfl⟩
      exact SourceMap.lineAt?_of_ascending (hapart.of_perm (SourceMap.perm_sortBy _ _))
        hapart.ascending_sortBy (hadded.mem_byAddress_sort.mpr hentry) hcontains
  · have hentry : ⟨⟨x.pc, UInt16.ofNat x.bytes.length⟩, n⟩ ∈
        mappings 1 (Assembly.emitted source) :=
      Assembly.mem_mappings_iff.mpr ⟨x, hx, Emission.mapping?_of_ne_nil hne n⟩
    exact ⟨_, SourceMap.rangeOf?_of_ascending (SourceMap.ascending_sortBy hlines)
      (hadded.mem_byLine_sort.mpr hentry), rfl, (hfits x (Assembly.mem_of_line? hx)).toNat_length⟩
  · refine SourceMap.rangeOf?_eq_none fun entry hentry hline => ?_
    obtain ⟨x, hx, hmapping⟩ := Assembly.mem_mappings_iff.mp (hadded.mem_byLine_sort.mp hentry)
    obtain ⟨hne, -⟩ := Emission.mapping?_eq_some_iff.mp hmapping
    exact hne (hnone x (hline ▸ hx))

/-- Data below the code that comes first, and a label that has no bytes. -/
theorem lines_found_after_success_downwards :
    (Assembly.ofText "*=$0700\nNOP\n*=$0600\nhere:\nDCB 1,2".toList).sourceMap.lineAt? 0x0601 =
        some 5 ∧
      (Assembly.ofText "*=$0700\nNOP\n*=$0600\nhere:\nDCB 1,2".toList).sourceMap.rangeOf? 4 =
        none := by
  obtain ⟨-, hline, -, hnone⟩ := @lines_found_after_success
    "*=$0700\nNOP\n*=$0600\nhere:\nDCB 1,2".toList ⟨3, 1⟩ (by rfl) (by decide +kernel)
    (by decide +kernel)
  refine ⟨(hline _ _).mpr ⟨⟨"DCB 1,2".toList, 0x0600, .bytes [1, 2]⟩, by rfl, by decide⟩,
    hnone 4 fun x hx => ?_⟩
  have hempty : Assembly.line? "*=$0700\nNOP\n*=$0600\nhere:\nDCB 1,2".toList 4 =
      some ⟨"here:".toList, 0x0600, .nothing⟩ := by
    rfl
  rw [hempty] at hx
  cases hx
  rfl

/-! ### After a rejected line -/

namespace Assembly

theorem exists_rejected (h : (ofText source).result = .error (.line reason n text)) :
    ∃ labels e, Labels.index (Prepared.ofText source) = (labels, none) ∧
      emitFrom labels Emitted.initial 1 (Prepared.ofText source).lines =
        (e, some ⟨reason, n, text⟩) := by
  cases hindex : Labels.index (Prepared.ofText source) with
  | mk labels error =>
    cases error with
    | some error =>
      rw [ofText_eq_unlabelled hindex] at h
      cases h
    | none =>
      obtain ⟨e, hemit⟩ := (result_eq_line_iff hindex).mp h
      exact ⟨labels, e, rfl, hemit⟩

/-- A map that was not sorted holds the entries in the order of the lines. -/
theorem added_of_rejected (h : (ofText source).result = .error (.line reason n text)) :
    (ofText source).sourceMap.Added (mappings 1 (emitted source)) ∧
      (emitted source).length + 1 = n := by
  obtain ⟨labels, e, hindex, hemit⟩ := exists_rejected h
  obtain ⟨before, rest, hlines, hline, hbefore, herror⟩ := exists_of_rejected hemit
  have hemitted : emitted source = emissions labels Emitted.initial.pc before := by
    rw [emitted, ofText_eq_rejected hindex hemit, hlines]
    exact emissions_of_rejected hbefore herror rest
  refine ⟨?_, ?_⟩
  · rw [ofText_eq_rejected hindex hemit, hemitted]
    exact added_emitFrom added_initial hbefore
  · have hlength := congrArg List.length (map_text_emissions hbefore)
    replace hlength : (emitted source).length = before.length := by
      rwa [List.length_map, ← hemitted] at hlength
    replace hline : n = 1 + before.length := hline
    omega

end Assembly

/--
**What a rejected line leaves of the map.**  If the lines before it fill no cell twice, have
at most 65535 bytes each and do not run over the end of memory, then looking up an address
gives only a line that filled it.  Every cell that was filled is found if and only if these
lines went upwards in memory.
-/
theorem lines_found_after_rejection
    (hrejected : (Assembly.ofText source).result = .error (.line reason n text))
    (hdistinct : ((Assembly.written source).map Change.address).Nodup)
    (hfits : ∀ x ∈ Assembly.emitted source, x.Fits) :
    (∀ m, (∃ x, Assembly.line? source m = some x) ↔ 0 < m ∧ m < n) ∧
      (∀ address m, (Assembly.ofText source).sourceMap.lineAt? address = some m →
        Assembly.Fills source m address) ∧
      ((∀ address m, Assembly.Fills source m address →
        (Assembly.ofText source).sourceMap.lineAt? address = some m) ↔
          Upwards (Assembly.emitted source)) := by
  obtain ⟨hadded, hlength⟩ := Assembly.added_of_rejected hrejected
  have hapart : SourceMap.Apart (Assembly.ofText source).sourceMap.byAddress.toList := by
    rw [hadded.byAddress]
    exact apart_mappings hfits hdistinct 1
  have hfills : ∀ address m, Assembly.Fills source m address ↔
      ∃ entry ∈ (Assembly.ofText source).sourceMap.byAddress.toList,
        entry.range.contains address = true ∧ entry.line = m := by
    intro address m
    rw [hadded.byAddress, Assembly.fills_iff hfits]
  refine ⟨fun m => ?_, fun address m hline => ?_, ?_⟩
  · rw [Assembly.exists_line?_iff, ← hlength, Nat.lt_succ_iff]
  · exact (hfills address m).mpr (SourceMap.exists_of_lineAt? hline)
  · rw [← ascending_mappings_iff 1, ← hadded.byAddress]
    constructor
    · intro hall
      refine SourceMap.ascending_of_lineAt? hapart fun entry hentry => ?_
      have hself := (hapart.within entry hentry).contains_start
      rw [hall _ entry.line ((hfills _ _).mpr ⟨entry, hentry, hself, rfl⟩)]
      rfl
    · intro hascending address m hm
      obtain ⟨entry, hentry, hcontains, rfl⟩ := (hfills address m).mp hm
      exact SourceMap.lineAt?_of_ascending hapart hascending hentry hcontains

/-- Code below and above a gap, and a name that nothing has. -/
theorem lines_found_after_rejection_upwards :
    (Assembly.ofText "NOP\n*=$0700\nNOP\nJMP gone".toList).sourceMap.lineAt? 0x0600 = some 1 ∧
      ∀ m, (Assembly.ofText "NOP\n*=$0700\nNOP\nJMP gone".toList).sourceMap.lineAt? 0x0700 =
        some m → Assembly.Fills "NOP\n*=$0700\nNOP\nJMP gone".toList m 0x0700 := by
  obtain ⟨-, hsound, hall⟩ := @lines_found_after_rejection 4
    "JMP gone".toList "NOP\n*=$0700\nNOP\nJMP gone".toList .malformed (by rfl)
    (by decide +kernel) (by decide +kernel)
  exact ⟨hall.mpr (by decide +kernel) 0x0600 1
    ⟨⟨"NOP".toList, 0x0600, .bytes [0xea]⟩, by rfl, by decide⟩, hsound 0x0700⟩

/-- Code that goes down in memory, and a name that nothing has: the first line cannot be found. -/
theorem line_lost_downwards :
    (Assembly.ofText "*=$0700\nNOP\n*=$0600\nNOP\nJMP gone".toList).result =
        .error (.line .malformed 5 "JMP gone".toList) ∧
      ((Assembly.written "*=$0700\nNOP\n*=$0600\nNOP\nJMP gone".toList).map
        Change.address).Nodup ∧
      (∀ x ∈ Assembly.emitted "*=$0700\nNOP\n*=$0600\nNOP\nJMP gone".toList, x.Fits) ∧
      Assembly.Fills "*=$0700\nNOP\n*=$0600\nNOP\nJMP gone".toList 2 0x0700 ∧
      (Assembly.ofText "*=$0700\nNOP\n*=$0600\nNOP\nJMP gone".toList).sourceMap.lineAt? 0x0700 =
        none :=
  ⟨by rfl, by decide +kernel, by decide +kernel,
    ⟨⟨"NOP".toList, 0x0700, .bytes [0xea]⟩, by rfl, by decide⟩, by decide +kernel⟩

end Mos6502
