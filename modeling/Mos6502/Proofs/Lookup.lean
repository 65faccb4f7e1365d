/-
Looking up addresses and lines in a map.

Both searches bisect entries by a key, and the entry at which they arrive is the only one that they
look at.  So an answer is always right: the entry holds the address, or is about the line.  Whether
there is an answer for everything that some entry is about is another matter, and it is one of the
order of the entries alone.

  * In ascending order every key is found, as the entries that do not come after it come first and
    the last of them is the one to arrive at.  With entries that are `Apart` this holds of every
    address, not only of those at which an entry starts.
  * In any other order some address is not found.  If all starts were found, the searches for two of
    them would part at an entry that starts after the one and not after the other, so entries
    further back would start further up.

Sorting puts entries whose keys are different into ascending order and loses none.
-/
import Mathlib.Data.List.Nodup
import Mos6502.Assembly.SourceMap

namespace Mos6502

/-! ### The cells of a range -/

namespace AddressRange

variable {range : AddressRange} {address : UInt16}

/-- The range has cells, and none behind the end of memory. -/
structure Within (range : AddressRange) : Prop where
  pos : 0 < range.length.toNat
  fits : range.start.toNat + range.length.toNat ≤ 0x10000

theorem Within.contains_iff (h : range.Within) :
    range.contains address = true ↔ range.start.toNat ≤ address.toNat ∧
      address.toNat < range.start.toNat + range.length.toNat := by
  have hfits := h.fits
  have hstart := range.start.toNat_lt
  have haddress := address.toNat_lt
  rw [contains, decide_eq_true_iff, UInt16.lt_iff_toNat_lt, UInt16.toNat_sub]
  omega

theorem Within.contains_start (h : range.Within) : range.contains range.start = true := by
  have hpos := h.pos
  exact h.contains_iff.mpr ⟨Nat.le_refl _, by omega⟩

end AddressRange

namespace SourceMap

variable {map : SourceMap} {key : Mapping → Nat} {row : Array Mapping}
  {entries entries' : List Mapping} {entry e f : Mapping} {address : UInt16}
  {line sought i j : Nat}

/-! ### Entries that are apart -/

/-- Every entry is about cells, and no two of them about the same cell. -/
structure Apart (entries : List Mapping) : Prop where
  within : ∀ entry ∈ entries, entry.range.Within
  disjoint : entries.Pairwise fun e f =>
    ∀ address, ¬ (e.range.contains address = true ∧ f.range.contains address = true)

theorem Apart.eq_of_contains (h : Apart entries) (hi : entries[i]? = some e)
    (hj : entries[j]? = some f) (he : e.range.contains address = true)
    (hf : f.range.contains address = true) : i = j := by
  obtain ⟨hilt, rfl⟩ := List.getElem?_eq_some_iff.mp hi
  obtain ⟨hjlt, rfl⟩ := List.getElem?_eq_some_iff.mp hj
  have hpair := List.pairwise_iff_getElem.mp h.disjoint
  rcases Nat.lt_trichotomy i j with hlt | heq | hgt
  · exact absurd ⟨he, hf⟩ (hpair i j hilt hjlt hlt address)
  · exact heq
  · exact absurd ⟨hf, he⟩ (hpair j i hjlt hilt hgt address)

theorem Apart.eq_of_mem (h : Apart entries) (he : e ∈ entries) (hf : f ∈ entries)
    (hcontains : e.range.contains address = true) (hcontains' : f.range.contains address = true) :
    e = f := by
  obtain ⟨i, hi⟩ := List.mem_iff_getElem?.mp he
  obtain ⟨j, hj⟩ := List.mem_iff_getElem?.mp hf
  obtain rfl := h.eq_of_contains hi hj hcontains hcontains'
  exact Option.some.inj (hi.symm.trans hj)

theorem Apart.of_perm (h : Apart entries) (hperm : entries'.Perm entries) : Apart entries' := by
  refine ⟨fun entry hentry => h.within entry (hperm.mem_iff.mp hentry), ?_⟩
  refine (hperm.pairwise_iff ?_).mpr h.disjoint
  intro e f hef address hfe
  exact hef address hfe.symm

/-! ### Searching by a key -/

/-- Every entry comes before the next. -/
def Ascending (key : Mapping → Nat) (entries : List Mapping) : Prop :=
  entries.Pairwise fun e f => key e < key f

theorem search?_eq_some_iff :
    search? key row sought = some entry ↔
      ∃ i, bisect (comesBy key row sought) row.size = i + 1 ∧ row.toList[i]? = some entry := by
  unfold search?
  cases bisect (comesBy key row sought) row.size with
  | zero => simp
  | succ i => simp

theorem mem_of_search? (h : search? key row sought = some entry) : entry ∈ row.toList := by
  obtain ⟨i, -, hget⟩ := search?_eq_some_iff.mp h
  exact List.mem_of_getElem? hget

theorem comesBy_iff (h : row.toList[i]? = some entry) :
    comesBy key row sought i = true ↔ key entry ≤ sought := by
  rw [comesBy, ← Array.getElem?_toList, h]
  simp

/-- In ascending order the search arrives at the last entry that does not come after the key. -/
theorem search?_of_ascending (hascending : Ascending key row.toList) (hentry : entry ∈ row.toList)
    (hle : key entry ≤ sought) (hafter : ∀ f ∈ row.toList, key entry < key f → sought < key f) :
    search? key row sought = some entry := by
  obtain ⟨i, hi, rfl⟩ := List.getElem_of_mem hentry
  have horder := List.pairwise_iff_getElem.mp hascending
  have hsize : i + 1 ≤ row.size := by
    rwa [← Array.length_toList]
  refine search?_eq_some_iff.mpr ⟨i, bisect_spec ?_ hsize, List.getElem?_eq_getElem hi⟩
  intro k hk
  rw [← Array.length_toList] at hk
  rw [comesBy_iff (List.getElem?_eq_getElem hk)]
  rcases Nat.lt_trichotomy k i with hbefore | rfl | hbehind
  · have hless := horder k i hk hi hbefore
    exact iff_of_true (by omega) (by omega)
  · exact iff_of_true hle (Nat.lt_succ_self k)
  · have hmore := hafter _ (List.getElem_mem hk) (horder i k hi hk hbehind)
    exact iff_of_false (by omega) (by omega)

/-! ### What is found -/

theorem lineAt?_eq_some_iff :
    map.lineAt? address = some line ↔
      ∃ entry, search? Mapping.start map.byAddress address.toNat = some entry ∧
        entry.range.contains address = true ∧ entry.line = line := by
  simp [lineAt?, Option.bind_eq_some_iff]

/-- An answer is the line of an entry that holds the address. -/
theorem exists_of_lineAt? (h : map.lineAt? address = some line) :
    ∃ entry ∈ map.byAddress.toList, entry.range.contains address = true ∧ entry.line = line := by
  obtain ⟨entry, hsearch, hfound⟩ := lineAt?_eq_some_iff.mp h
  exact ⟨entry, mem_of_search? hsearch, hfound⟩

theorem rangeOf?_eq_none (h : ∀ entry ∈ map.byLine.toList, entry.line ≠ line) :
    map.rangeOf? line = none := by
  unfold rangeOf?
  cases hsearch : search? Mapping.line map.byLine line with
  | none => rfl
  | some entry => exact if_neg (h entry (mem_of_search? hsearch))

/-! ### What is found in ascending order -/

/-- In ascending order every address is found. -/
theorem lineAt?_of_ascending (hapart : Apart map.byAddress.toList)
    (hascending : Ascending Mapping.start map.byAddress.toList)
    (hentry : entry ∈ map.byAddress.toList) (hcontains : entry.range.contains address = true) :
    map.lineAt? address = some entry.line := by
  have hrange := (hapart.within entry hentry).contains_iff.mp hcontains
  refine lineAt?_eq_some_iff.mpr ⟨entry, ?_, hcontains, rfl⟩
  refine search?_of_ascending hascending hentry hrange.1 fun f hf hafter => ?_
  -- An entry further back that starts by the address would start inside this one.
  by_contra hstart
  have hstarts : entry.range.start.toNat < f.range.start.toNat ∧
      f.range.start.toNat ≤ address.toNat := ⟨hafter, Nat.le_of_not_lt hstart⟩
  have hinside : entry.range.contains f.range.start = true :=
    (hapart.within entry hentry).contains_iff.mpr (by omega)
  obtain rfl := hapart.eq_of_mem hentry hf hinside (hapart.within f hf).contains_start
  exact Nat.lt_irrefl _ hafter

/-- Only in ascending order is every start found. -/
theorem ascending_of_lineAt? (hapart : Apart map.byAddress.toList)
    (hfound : ∀ entry ∈ map.byAddress.toList, (map.lineAt? entry.range.start).isSome = true) :
    Ascending Mapping.start map.byAddress.toList := by
  have harrives : ∀ i (hi : i < map.byAddress.toList.length),
      bisect (comesBy Mapping.start map.byAddress map.byAddress.toList[i].start)
        map.byAddress.size = i + 1 := by
    intro i hi
    obtain ⟨line, hline⟩ := Option.isSome_iff_exists.mp (hfound _ (List.getElem_mem hi))
    obtain ⟨other, hsearch, hcontains, -⟩ := lineAt?_eq_some_iff.mp hline
    obtain ⟨k, hbisect, hother⟩ := search?_eq_some_iff.mp hsearch
    have hself := (hapart.within _ (List.getElem_mem hi)).contains_start
    have hplace := hapart.eq_of_contains hother (List.getElem?_eq_getElem hi) hcontains hself
    exact hbisect.trans (congrArg Nat.succ hplace)
  refine List.pairwise_iff_getElem.mpr fun i j hi hj hij => ?_
  obtain ⟨k, -, hkj, hbelow, habove⟩ := bisect_separates (harrives i hi) (harrives j hj) hij
  have hother := List.getElem?_eq_getElem (Nat.lt_of_le_of_lt hkj hj)
  rw [comesBy_iff hother] at habove
  have hafter := mt (comesBy_iff hother).mpr (Bool.eq_false_iff.mp hbelow)
  omega

/-- In ascending order every line is found. -/
theorem rangeOf?_of_ascending (hascending : Ascending Mapping.line map.byLine.toList)
    (hentry : entry ∈ map.byLine.toList) : map.rangeOf? entry.line = some entry.range := by
  rw [rangeOf?, search?_of_ascending hascending hentry (Nat.le_refl _) fun f _ hafter => hafter]
  exact if_pos rfl

/-! ### Sorting -/

theorem perm_sortBy (key : Mapping → Nat) (row : Array Mapping) :
    (sortBy key row).toList.Perm row.toList :=
  List.mergeSort_perm _ _

theorem pairwise_sortBy (key : Mapping → Nat) (row : Array Mapping) :
    (sortBy key row).toList.Pairwise fun e f => key e ≤ key f := by
  have htrans : ∀ e f g : Mapping, decide (key e ≤ key f) = true →
      decide (key f ≤ key g) = true → decide (key e ≤ key g) = true := by
    intro e f g hef hfg
    rw [decide_eq_true_iff] at hef hfg ⊢
    exact Nat.le_trans hef hfg
  have htotal : ∀ e f : Mapping, (decide (key e ≤ key f) || decide (key f ≤ key e)) = true := by
    intro e f
    rw [Bool.or_eq_true, decide_eq_true_iff, decide_eq_true_iff]
    exact Nat.le_total _ _
  exact (List.pairwise_mergeSort htrans htotal row.toList).imp of_decide_eq_true

/-- Sorting puts entries with different keys into ascending order. -/
theorem ascending_sortBy (h : row.toList.Pairwise fun e f => key e ≠ key f) :
    Ascending key (sortBy key row).toList := by
  have hne : (sortBy key row).toList.Pairwise fun e f => key e ≠ key f :=
    ((perm_sortBy key row).pairwise_iff fun h => h.symm).mpr h
  exact ((pairwise_sortBy key row).and hne).imp fun h => Nat.lt_of_le_of_ne h.1 h.2

/-- Entries that are apart start at different addresses. -/
theorem Apart.ascending_sortBy (h : Apart row.toList) :
    Ascending Mapping.start (sortBy Mapping.start row).toList := by
  refine SourceMap.ascending_sortBy (h.disjoint.imp_of_mem ?_)
  intro e f he hf hdisjoint hstart
  refine hdisjoint e.range.start ⟨(h.within e he).contains_start, ?_⟩
  rw [UInt16.toNat_inj.mp hstart]
  exact (h.within f hf).contains_start

end SourceMap

end Mos6502
