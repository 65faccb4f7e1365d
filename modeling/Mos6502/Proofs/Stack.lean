/-
The stack.

Page one is a stack of up to 256 bytes, wherever the stack pointer starts: it may wrap at either
end, as long as no more is pulled than was pushed and no more is pushed than there are cells
(`Disciplined`).  `StackOp.run?` is the stack as a list, and `Cpu.perform` does the same pushes and
pulls on the processor.

What ties the two together is `Holds`: some bytes lie in their cells, with a number of further
bytes above them.  The further bytes may be anything, so the same invariant serves for a stack
whose every byte is known, and for a return address under whatever a subroutine pushes.

A run of instructions is on the stack what its pushes and pulls are (`stackTrace`), unless it sets
the stack pointer or writes over the bytes that are held.
-/
import Mos6502.Proofs.Frame
import Mos6502.Proofs.Imprint

namespace Mos6502

/-- What can be done to a stack. -/
inductive StackOp where
  | push (value : UInt8)
  | pull
deriving DecidableEq, Repr

namespace StackOp

/-- How many more bytes were pushed than pulled. -/
def outstanding : List StackOp → Int
  | [] => 0
  | push _ :: ops => outstanding ops + 1
  | pull :: ops => outstanding ops - 1

/-- On top of some bytes that are there already, no more is pulled than was pushed, and never is
there more than the stack has room for. -/
def Disciplined (capacity held : Nat) (ops : List StackOp) : Prop :=
  ∀ before, before <+: ops →
    0 ≤ held + outstanding before ∧ held + outstanding before ≤ capacity

instance (capacity held : Nat) (ops : List StackOp) : Decidable (Disciplined capacity held ops) :=
  decidable_of_iff (∀ before ∈ ops.inits, 0 ≤ held + outstanding before ∧
    held + outstanding before ≤ capacity) (by simp only [List.mem_inits, Disciplined])

/-- What is on a bounded stack after some pushes and pulls, the top first, and what was pulled, in
order.  There is none of it when a full stack is pushed on or an empty one pulled from. -/
def run? (capacity : Nat) : List UInt8 → List StackOp → Option (List UInt8 × List UInt8)
  | held, [] => some (held, [])
  | held, push value :: ops =>
    if held.length < capacity then run? capacity (value :: held) ops else none
  | [], pull :: _ => none
  | value :: below, pull :: ops => (run? capacity below ops).map fun r => (r.1, value :: r.2)

/-- What is signalled where the stack pointer wraps. -/
def signals (pointer : UInt8) : StackOp → List Signal
  | push _ => if pointer = 0x00 then [.filled] else []
  | pull => if pointer = 0xff then [.emptied] else []

variable {capacity held : Nat} {ops more : List StackOp} {value : UInt8}

theorem outstanding_append (ops more : List StackOp) :
    outstanding (ops ++ more) = outstanding ops + outstanding more := by
  induction ops with
  | nil => simp [outstanding]
  | cons op ops ih =>
    cases op <;> rw [List.cons_append, outstanding, outstanding, ih] <;> omega

/-! ### Discipline -/

theorem Disciplined.of_cons_push (h : Disciplined capacity held (push value :: ops)) :
    held < capacity ∧ Disciplined capacity (held + 1) ops := by
  have hfrom : Disciplined capacity (held + 1) ops := by
    intro before hbefore
    have := h (push value :: before) ((List.cons_prefix_cons).mpr ⟨rfl, hbefore⟩)
    rw [outstanding] at this
    omega
  have hempty := hfrom [] List.nil_prefix
  rw [outstanding] at hempty
  exact ⟨by omega, hfrom⟩

theorem Disciplined.of_cons_pull (h : Disciplined capacity held (pull :: ops)) :
    ∃ below, held = below + 1 ∧ Disciplined capacity below ops := by
  have hone := h [pull] ((List.cons_prefix_cons).mpr ⟨rfl, List.nil_prefix⟩)
  rw [outstanding, outstanding] at hone
  refine ⟨held - 1, by omega, fun before hbefore => ?_⟩
  have := h (pull :: before) ((List.cons_prefix_cons).mpr ⟨rfl, hbefore⟩)
  rw [outstanding] at this
  omega

theorem Disciplined.of_append (h : Disciplined capacity held (ops ++ more)) :
    Disciplined capacity held ops ∧
      ∀ between : Nat, (between : Int) = held + outstanding ops →
        Disciplined capacity between more := by
  refine ⟨fun before hbefore => h before (hbefore.trans (List.prefix_append ops more)), ?_⟩
  intro between hbetween before hbefore
  have := h (ops ++ before) ((List.prefix_append_right_inj ops).mpr hbefore)
  rw [outstanding_append] at this
  omega

end StackOp

variable {s t : Cpu} {op : Operation} {opcode base value : UInt8} {held kept : List UInt8}
  {above place capacity : Nat} {memory other : Memory} {ops : List StackOp}

/-! ### The cells of a stack -/

/-- The cell of the byte that is pushed when some were pushed before, the first of them where the
base points. -/
def stackCell (base : UInt8) (place : Nat) : UInt16 :=
  Cpu.stackAddress (base - UInt8.ofNat place)

theorem sub_ofNat_succ (base : UInt8) (place : Nat) :
    base - UInt8.ofNat (place + 1) = base - UInt8.ofNat place - 1 := by
  simp only [UInt8.ofNat_add, UInt8.sub_eq_add_neg, UInt8.neg_add, UInt8.add_assoc]
  rfl

/-- The cells of a page are different ones. -/
theorem stackCell_inj {i j : Nat} (hi : i < 256) (hj : j < 256) :
    stackCell base i = stackCell base j ↔ i = j := by
  refine ⟨fun h => ?_, fun h => h ▸ rfl⟩
  have hsame := congrArg UInt8.toNat (Cpu.stackAddress_inj.mp h)
  have hbase := base.toNat_lt
  simp only [UInt8.toNat_sub, UInt8.toNat_ofNat'] at hsame
  omega

/-- Some bytes, the top first, lie in their cells. -/
def Memory.Stacked (memory : Memory) (base : UInt8) : List UInt8 → Prop
  | [] => True
  | value :: below => memory.get (stackCell base below.length) = value ∧ memory.Stacked base below

theorem Memory.Stacked.congr (h : memory.Stacked base kept)
    (hcells : ∀ place < kept.length, other.get (stackCell base place) =
      memory.get (stackCell base place)) : other.Stacked base kept := by
  induction kept with
  | nil => exact h
  | cons value below ih =>
    refine ⟨(hcells below.length (by simp)).trans h.1, ih h.2 fun place hplace => ?_⟩
    exact hcells place (Nat.lt_succ_of_lt hplace)

/-- Nothing is lost where a byte goes on top of others. -/
theorem Memory.Stacked.set (h : memory.Stacked base kept) (hplace : kept.length ≤ place)
    (hroom : place < 256) (value : UInt8) :
    (memory.set (stackCell base place) value).Stacked base kept := by
  refine h.congr fun below hbelow => Memory.get_set_of_ne (fun hcell => ?_) memory value
  have := (stackCell_inj (by omega) hroom).mp hcell
  omega

namespace Cpu

/-- The bytes in `kept` lie in their cells, and the stack pointer leaves room for some others
above them. -/
structure Holds (s : Cpu) (base : UInt8) (kept : List UInt8) (above : Nat) : Prop where
  sp : s.sp = base - UInt8.ofNat (kept.length + above)
  cells : s.memory.Stacked base kept

/-- An empty stack holds everywhere. -/
theorem holds_nil (s : Cpu) : s.Holds s.sp [] 0 :=
  ⟨(UInt8.sub_zero s.sp).symm, trivial⟩

theorem Holds.congr (h : s.Holds base kept above) (hsp : t.sp = s.sp)
    (hmemory : t.memory = s.memory) : t.Holds base kept above :=
  ⟨hsp.trans h.sp, hmemory ▸ h.cells⟩

theorem Holds.stackAddress_sp (h : s.Holds base kept above) :
    stackAddress s.sp = stackCell base (kept.length + above) :=
  congrArg stackAddress h.sp

/-! ### Pushing and pulling -/

theorem Holds.sp_push (h : s.Holds base kept above) (value : UInt8) :
    (s.push value).sp = base - UInt8.ofNat (kept.length + above + 1) := by
  rw [push_eq, sub_ofNat_succ, ← h.sp]

/-- A push leaves alone what lies below. -/
theorem Holds.push (h : s.Holds base kept above) (hroom : kept.length + above < 256)
    (value : UInt8) : (s.push value).Holds base kept (above + 1) := by
  refine ⟨h.sp_push value, ?_⟩
  rw [push_eq, h.stackAddress_sp]
  exact h.cells.set (Nat.le_add_right _ _) hroom value

/-- What is pushed on a stack that is all known is known too. -/
theorem Holds.push_kept (h : s.Holds base kept 0) (hroom : kept.length < 256) (value : UInt8) :
    (s.push value).Holds base (value :: kept) 0 := by
  refine ⟨h.sp_push value, ?_, (h.push hroom value).cells⟩
  rw [push_eq, h.stackAddress_sp]
  exact Memory.get_set_self _ _ _

theorem Holds.sp_succ (h : s.Holds base kept (above + 1)) :
    s.sp + 1 = base - UInt8.ofNat (kept.length + above) := by
  rw [h.sp, ← Nat.add_assoc, sub_ofNat_succ, UInt8.sub_add_cancel]

theorem Holds.drop (h : s.Holds base kept (above + 1)) : s.drop.Holds base kept above := by
  rw [drop_eq]
  exact ⟨h.sp_succ, h.cells⟩

/-- The top byte of a stack that is all known is another that may be anything. -/
theorem Holds.forget (h : s.Holds base (value :: kept) 0) : s.Holds base kept 1 :=
  ⟨h.sp, h.cells.2⟩

theorem Holds.top (h : s.Holds base (value :: kept) 0) : s.top = value := by
  rw [Cpu.top, h.forget.sp_succ]
  exact h.cells.1

/-- Does some pushes and pulls, and collects what is pulled, in order. -/
def perform (s : Cpu) : List StackOp → Cpu × List UInt8
  | [] => (s, [])
  | .push value :: ops => (s.push value).perform ops
  | .pull :: ops => ((s.drop.perform ops).1, s.top :: (s.drop.perform ops).2)

theorem perform_append (s : Cpu) (ops more : List StackOp) :
    (s.perform (ops ++ more)).1 = ((s.perform ops).1.perform more).1 := by
  induction ops generalizing s with
  | nil => rfl
  | cons op ops ih =>
    cases op with
    | push value => exact ih (s.push value)
    | pull => exact ih s.drop

/-- Behind a disciplined row of pushes and pulls, what was there before lies where it was. -/
theorem Holds.perform (h : s.Holds base kept above)
    (hops : StackOp.Disciplined capacity above ops) (hroom : kept.length + capacity ≤ 256) :
    ∃ behind : Nat, (behind : Int) = above + StackOp.outstanding ops ∧
      (s.perform ops).1.Holds base kept behind := by
  induction ops generalizing s above with
  | nil => exact ⟨above, by rw [StackOp.outstanding, Int.add_zero], h⟩
  | cons op ops ih =>
    cases op with
    | push value =>
      obtain ⟨hlt, hrest⟩ := hops.of_cons_push
      obtain ⟨behind, hbehind, hholds⟩ := ih (h.push (by omega) value) hrest
      exact ⟨behind, by rw [StackOp.outstanding]; omega, hholds⟩
    | pull =>
      obtain ⟨below, rfl, hrest⟩ := hops.of_cons_pull
      obtain ⟨behind, hbehind, hholds⟩ := ih h.drop hrest
      exact ⟨behind, by rw [StackOp.outstanding]; omega, hholds⟩

/-- A stack that is all known stays so, and does what the list does. -/
theorem Holds.perform_kept (h : s.Holds base held 0)
    (hops : StackOp.Disciplined 256 held.length ops) :
    ∃ left, StackOp.run? 256 held ops = some (left, (s.perform ops).2) ∧
      (left.length : Int) = held.length + StackOp.outstanding ops ∧
        (s.perform ops).1.Holds base left 0 := by
  induction ops generalizing s held with
  | nil => exact ⟨held, rfl, by rw [StackOp.outstanding, Int.add_zero], h⟩
  | cons op ops ih =>
    cases op with
    | push value =>
      obtain ⟨hlt, hrest⟩ := hops.of_cons_push
      obtain ⟨left, hrun, hlength, hholds⟩ := ih (h.push_kept hlt value) hrest
      refine ⟨left, ?_, ?_, hholds⟩
      · rw [StackOp.run?, if_pos hlt]
        exact hrun
      · rw [StackOp.outstanding, hlength, List.length_cons]
        omega
    | pull =>
      obtain ⟨below, hbelow, hrest⟩ := hops.of_cons_pull
      cases held with
      | nil => cases hbelow
      | cons value held =>
        obtain rfl := Nat.succ.inj hbelow
        obtain ⟨left, hrun, hlength, hholds⟩ := ih h.forget.drop hrest
        refine ⟨left, ?_, ?_, hholds⟩
        · rw [StackOp.run?, hrun, Cpu.perform, h.top]
          rfl
        · rw [StackOp.outstanding, hlength, List.length_cons]
          omega

/-- Only the cells of page one are pushed on. -/
theorem get_perform_of_outside {address : UInt16} (h : address < 0x0100 ∨ 0x01ff < address)
    (ops : List StackOp) : (s.perform ops).1.memory.get address = s.memory.get address := by
  induction ops generalizing s with
  | nil => rfl
  | cons op ops ih =>
    cases op with
    | push value =>
      have hne : address ≠ stackAddress s.sp := by
        rintro rfl
        have hlt := s.sp.toNat_lt
        rw [UInt16.lt_iff_toNat_lt, UInt16.lt_iff_toNat_lt, toNat_stackAddress] at h
        have hpage : (0x0100 : UInt16).toNat = 0x0100 := rfl
        have hlast : (0x01ff : UInt16).toNat = 0x01ff := rfl
        omega
      rw [perform, ih, push_eq, Memory.get_set_of_ne hne]
    | pull => rw [perform, ih, drop_eq]

/-- A push and a pull signal what happens to the stack pointer that they find. -/
theorem signals_perform_concat (s : Cpu) (ops : List StackOp) (op : StackOp) :
    (s.perform (ops ++ [op])).1.signals =
      (s.perform ops).1.signals ++ op.signals (s.perform ops).1.sp := by
  rw [perform_append]
  cases op <;> simp only [perform, push_eq, drop_eq, StackOp.signals]

/-! ### The stack under instructions -/

/-- What a known instruction does to the stack. -/
def operationStackOps (s : Cpu) (op : Operation) : List StackOp :=
  match op.mnemonic with
  | .pha => [.push s.a]
  | .php => [.push (s.status ||| 0x30)]
  | .jsr => [.push (highByte (s.pc + 2)), .push (lowByte (s.pc + 2))]
  | .pla | .plp => [.pull]
  | .rts => [.pull, .pull]
  | .rti => [.pull, .pull, .pull]
  | _ => []

/-- What the next instruction does to the stack. -/
def stackOps (s : Cpu) : List StackOp :=
  ((decode (s.memory.get s.pc)).map s.operationStackOps).getD []

/-- What a run of some steps does to the stack. -/
def stackTrace : Nat → Cpu → List StackOp
  | 0, _ => []
  | n + 1, s => s.stackOps ++ stackTrace n s.step.1

/-- The next instruction does not set the stack pointer. -/
def SetsNoPointer (s : Cpu) : Prop :=
  ∀ op, decode (s.memory.get s.pc) = some op → op.mnemonic ≠ .txs

/-- Unless it works on the stack, the next instruction writes none of the first cells of a stack. -/
def Spares (s : Cpu) (base : UInt8) (count : Nat) : Prop :=
  s.stackOps = [] → ∀ place < count, stackCell base place ∉ s.writes.map Change.address

theorem stackOps_of_decode (hdecode : decode (s.memory.get s.pc) = some op) :
    s.stackOps = s.operationStackOps op := by
  rw [stackOps, hdecode]
  rfl

theorem setsNoPointer_of_decode (hdecode : decode (s.memory.get s.pc) = some op)
    (htxs : op.mnemonic ≠ .txs) : s.SetsNoPointer := by
  intro op' hdecode'
  obtain rfl := Option.some.inj (hdecode.symm.trans hdecode')
  exact htxs

theorem spares_of_stackOps (hops : s.stackOps ≠ []) (base : UInt8) (count : Nat) :
    s.Spares base count :=
  fun hnil => absurd hnil hops

/-- An instruction that works on the stack does so by pushes and pulls. -/
theorem executed_of_operationStackOps (hdecode : decode opcode = some op)
    (hops : s.operationStackOps op ≠ []) :
    (s.executed op).sp = (s.perform (s.operationStackOps op)).1.sp ∧
      (s.executed op).memory = (s.perform (s.operationStackOps op)).1.memory ∧
      (s.executed op).signals = (s.perform (s.operationStackOps op)).1.signals := by
  obtain ⟨m, mode⟩ := op
  cases m with
  | pha | php | pla | plp | rts | rti =>
    simp only [executed, operationStackOps, perform, push_eq, drop_eq]
    exact ⟨rfl, rfl, rfl⟩
  | jsr =>
    obtain rfl := mode_of_call hdecode
    rw [executed_call]
    simp only [operationStackOps, perform, push_eq]
    exact ⟨rfl, rfl, rfl⟩
  | _ => exact absurd rfl hops

/-- An instruction that does not work on the stack leaves the stack pointer, unless it sets it. -/
theorem sp_executed_of_operationStackOps (hdecode : decode opcode = some op)
    (htxs : op.mnemonic ≠ .txs) (hops : s.operationStackOps op = []) : (s.executed op).sp = s.sp := by
  by_contra hsp
  obtain ⟨m, mode⟩ := op
  have hchange : Operation.mayChange ⟨m, mode⟩ .sp := mayChange_of_executed hdecode hsp
  rcases hchange with hm | ⟨hpart, -⟩
  · simp only [Part.changers, List.mem_cons, List.not_mem_nil, or_false] at hm
    rcases hm with rfl | rfl | rfl | rfl | rfl | rfl | rfl | rfl
    · exact htxs rfl
    all_goals cases hops
  · cases hpart

/-- A step that works on the stack does so by pushes and pulls. -/
theorem step_of_stackOps (hops : s.stackOps ≠ []) :
    s.step.1.sp = (s.perform s.stackOps).1.sp ∧
      s.step.1.memory = (s.perform s.stackOps).1.memory := by
  cases hdecode : decode (s.memory.get s.pc) with
  | none =>
    rw [stackOps, hdecode] at hops
    exact absurd rfl hops
  | some op =>
    rw [stackOps_of_decode hdecode] at hops ⊢
    have hcli : op.mnemonic ≠ .cli := fun h => hops (by rw [operationStackOps, h])
    have hsei : op.mnemonic ≠ .sei := fun h => hops (by rw [operationStackOps, h])
    obtain ⟨hsp, hmemory, -⟩ := executed_of_operationStackOps hdecode hops
    rw [step_of_decode hdecode hcli hsei]
    exact ⟨hsp, hmemory⟩

/-- A step that does not work on the stack leaves the stack pointer, unless it sets it. -/
theorem sp_step_of_stackOps (htxs : s.SetsNoPointer) (hops : s.stackOps = []) :
    s.step.1.sp = s.sp := by
  cases hstep : s.step with
  | mk next outcome =>
    cases stepped_iff.mpr hstep with
    | output => exact s.look_executedOutput .sp
    | unknown | unimplemented => rfl
    | executed hdecode =>
      rw [stackOps_of_decode hdecode] at hops
      exact sp_executed_of_operationStackOps hdecode (htxs _ hdecode) hops

/-- An instruction that works on the stack leaves alone what lies outside of page one. -/
theorem get_step_of_stackOps {address : UInt16} (hops : s.stackOps ≠ [])
    (h : address < 0x0100 ∨ 0x01ff < address) :
    s.step.1.memory.get address = s.memory.get address := by
  rw [(step_of_stackOps hops).2, get_perform_of_outside h]

/-- What lies on the stack lies there after a step that neither sets the stack pointer, nor pulls
it, nor writes over it. -/
theorem Holds.step (h : s.Holds base kept above) (htxs : s.SetsNoPointer)
    (hspares : s.Spares base kept.length) (hops : StackOp.Disciplined capacity above s.stackOps)
    (hroom : kept.length + capacity ≤ 256) :
    ∃ behind : Nat, (behind : Int) = above + StackOp.outstanding s.stackOps ∧
      s.step.1.Holds base kept behind := by
  obtain ⟨behind, hbehind, hholds⟩ := h.perform hops hroom
  refine ⟨behind, hbehind, ?_⟩
  by_cases hnil : s.stackOps = []
  · rw [hnil] at hholds
    refine ⟨(sp_step_of_stackOps htxs hnil).trans hholds.sp, h.cells.congr fun place hplace => ?_⟩
    rw [s.memory_step, Memory.get_apply_of_notMem (hspares hnil place hplace)]
  · obtain ⟨hsp, hmemory⟩ := step_of_stackOps hnil
    exact hholds.congr hsp hmemory

theorem Holds.reached (n : Nat) (h : s.Holds base kept above)
    (hrun : ∀ i < n, (s.reached i).SetsNoPointer ∧ (s.reached i).Spares base kept.length)
    (hops : StackOp.Disciplined capacity above (s.stackTrace n))
    (hroom : kept.length + capacity ≤ 256) :
    ∃ behind : Nat, (behind : Int) = above + StackOp.outstanding (s.stackTrace n) ∧
      (s.reached n).Holds base kept behind := by
  induction n generalizing s above with
  | zero => exact ⟨above, by rw [stackTrace, StackOp.outstanding, Int.add_zero], h⟩
  | succ n ih =>
    obtain ⟨hfirst, hrest⟩ := hops.of_append
    obtain ⟨htxs, hspares⟩ := hrun 0 (Nat.succ_pos n)
    obtain ⟨between, hbetween, hnext⟩ := h.step htxs hspares hfirst hroom
    obtain ⟨behind, hbehind, hholds⟩ :=
      ih hnext (fun i hi => hrun (i + 1) (Nat.succ_lt_succ hi)) (hrest between hbetween)
    refine ⟨behind, ?_, hholds⟩
    rw [stackTrace, StackOp.outstanding_append]
    omega

/-! ### Calls and returns -/

/-- A call leaves the address of its last byte on the stack. -/
theorem holds_call (hdecode : decode (s.memory.get s.pc) = some ⟨.jsr, .absolute⟩) :
    s.step.1.Holds s.sp [lowByte (s.pc + 2), highByte (s.pc + 2)] 0 := by
  have hpushed := (s.holds_nil.push_kept (by simp) (highByte (s.pc + 2))).push_kept (by simp)
    (lowByte (s.pc + 2))
  obtain ⟨hsp, hmemory, -⟩ := executed_of_operationStackOps hdecode (List.cons_ne_nil _ _)
  rw [step_of_decode hdecode (by decide) (by decide)]
  exact hpushed.congr hsp hmemory

/-- A return goes on behind the address that lies on the stack, and takes it away. -/
theorem Holds.return {low high : UInt8} (h : s.Holds base [low, high] 0)
    (hdecode : decode (s.memory.get s.pc) = some ⟨.rts, .implicit⟩) :
    ∃ next, s.step = (next, none) ∧ next.pc = wordOf low high + 1 ∧ next.sp = base := by
  refine ⟨_, step_of_decode hdecode (by decide) (by decide), ?_, ?_⟩
  · have hhigh : s.drop.top = high := h.forget.drop.top
    rw [← h.top, ← hhigh]
    simp only [executed, drop_eq]
    rfl
  · obtain ⟨hsp, -⟩ := executed_of_operationStackOps hdecode (List.cons_ne_nil _ _)
    have hempty : s.drop.drop.Holds base [] 0 := h.forget.drop.forget.drop
    exact hsp.trans (hempty.sp.trans (UInt8.sub_zero base))

end Cpu

/--
**The stack in page one is a bounded stack.**  A row of pushes and pulls that never pulls more than
was pushed, and never leaves more than 256 bytes, pulls what a list does, from wherever the stack
pointer starts, and the pointer is below its start by the number of bytes that are left.  No row of
pushes and pulls changes a cell outside of page one, and exactly a push that finds the stack
pointer at `$00`, and a pull that finds it at `$FF`, raise a signal.

Hence a subroutine returns.  After a call, whatever steps follow: if they leave no more and no less
on the stack than there was and never more than 254 bytes, do not set the stack pointer, and write
on the cells of the return address by no other means, then a return goes on behind the call with
the stack pointer from before.
-/
theorem stack_refines_list (s : Cpu) :
    (∀ ops, StackOp.Disciplined 256 0 ops →
        ∃ held pulled, StackOp.run? 256 [] ops = some (held, pulled) ∧
          (s.perform ops).2 = pulled ∧ (held.length : Int) = StackOp.outstanding ops ∧
          (s.perform ops).1.sp = s.sp - UInt8.ofNat held.length) ∧
      (∀ ops address, address < 0x0100 ∨ 0x01ff < address →
        (s.perform ops).1.memory.get address = s.memory.get address) ∧
      (∀ ops op, (s.perform (ops ++ [op])).1.signals =
        (s.perform ops).1.signals ++ op.signals (s.perform ops).1.sp) ∧
      ∀ n, decode (s.memory.get s.pc) = some ⟨.jsr, .absolute⟩ →
        (∀ i < n, (s.step.1.reached i).SetsNoPointer ∧ (s.step.1.reached i).Spares s.sp 2) →
        StackOp.Disciplined 254 0 (s.step.1.stackTrace n) →
        StackOp.outstanding (s.step.1.stackTrace n) = 0 →
        decode ((s.step.1.reached n).memory.get (s.step.1.reached n).pc) = some ⟨.rts, .implicit⟩ →
          ∃ next, (s.step.1.reached n).step = (next, none) ∧ next.pc = s.pc + 3 ∧
            next.sp = s.sp := by
  refine ⟨fun ops hops => ?_, fun ops address h => Cpu.get_perform_of_outside h ops,
    s.signals_perform_concat, fun n hcall hrun hops hbalanced hreturn => ?_⟩
  · obtain ⟨held, hlist, hlength, hholds⟩ := s.holds_nil.perform_kept hops
    exact ⟨held, _, hlist, rfl, by simpa using hlength, hholds.sp⟩
  · obtain ⟨behind, hbehind, hholds⟩ :=
      (Cpu.holds_call hcall).reached n hrun hops (Nat.le_refl 256)
    obtain rfl : behind = 0 := by omega
    obtain ⟨next, hstep, hpc, hsp⟩ := hholds.return hreturn
    refine ⟨next, hstep, ?_, hsp⟩
    rw [hpc, wordOf_lowByte_highByte, UInt16.add_assoc]
    rfl

/-- A call whose return address lies across the wrap: `JSR $0700` with the stack pointer at `$00`,
and there `PHA`, `PLA` and `RTS`. -/
theorem stack_refines_list_across_wrap :
    ∃ s : Cpu, s.sp = 0x00 ∧ s.memory.read s.pc 3 = [0x20, 0x00, 0x07] ∧
      s.memory.read 0x0700 3 = [0x48, 0x68, 0x60] ∧
      (s.perform [.push 0x01, .push 0x02, .pull, .pull]).2 = [0x02, 0x01] ∧
      s.step.1.stackTrace 2 = [.push 0x00, .pull] ∧
      ∃ next, (s.step.1.reached 2).step = (next, none) ∧ next.pc = s.pc + 3 ∧ next.sp = 0x00 := by
  let memory := (((((Memory.empty.set 0x0600 0x20).set 0x0601 0x00).set 0x0602 0x07).set
    0x0700 0x48).set 0x0701 0x68).set 0x0702 0x60
  let s : Cpu := { Cpu.ofMemory memory with sp := 0x00 }
  have hread : memory.read 0x0600 3 = [0x20, 0x00, 0x07] ∧
      memory.read 0x0700 3 = [0x48, 0x68, 0x60] := by
    simp [Memory.read, List.range_succ, memory, Memory.get_set]
  have hoperand : s.operandWord = 0x0700 := by
    show wordOf (memory.get (0x0600 + 1)) (memory.get (0x0600 + 1 + 1)) = _
    simp only [memory, Memory.get_set]
    decide
  have hcode : decode (memory.get 0x0600) = some ⟨.jsr, .absolute⟩ ∧
      decode (memory.get 0x0700) = some ⟨.pha, .implicit⟩ ∧
      decode (memory.get 0x0701) = some ⟨.pla, .implicit⟩ ∧
      decode (memory.get 0x0702) = some ⟨.rts, .implicit⟩ := by
    simp only [memory, Memory.get_set]
    decide +kernel
  -- The call.
  have hcall : decode (s.memory.get s.pc) = some ⟨.jsr, .absolute⟩ := hcode.1
  have hops : s.stackOps ≠ [] := by
    rw [Cpu.stackOps_of_decode hcall]
    exact List.cons_ne_nil _ _
  have hget₁ : ∀ address, 0x01ff < address → s.step.1.memory.get address = memory.get address :=
    fun _ h => Cpu.get_step_of_stackOps hops (.inr h)
  have hstate₁ : s.step.1.pc = 0x0700 ∧ s.step.1.a = 0x00 := by
    rw [Cpu.step_of_decode hcall (by decide) (by decide)]
    simp only [Cpu.count, Cpu.executed_call, Cpu.push_eq, Cpu.jump]
    exact ⟨hoperand, rfl⟩
  generalize hs₁ : s.step.1 = s₁ at hget₁ hstate₁
  -- The push.
  have hdecode₁ : decode (s₁.memory.get s₁.pc) = some ⟨.pha, .implicit⟩ := by
    rw [hstate₁.1, hget₁ _ (by decide), hcode.2.1]
  have hops₁ : s₁.stackOps = [.push 0x00] := by
    rw [Cpu.stackOps_of_decode hdecode₁, ← hstate₁.2]
    rfl
  have hsets₁ := Cpu.setsNoPointer_of_decode hdecode₁ (by decide)
  have hget₂ : ∀ address, 0x01ff < address → s₁.step.1.memory.get address = memory.get address :=
    fun address h => (Cpu.get_step_of_stackOps (by simp [hops₁]) (.inr h)).trans (hget₁ address h)
  have hpc₂ : s₁.step.1.pc = 0x0701 := by
    rw [Cpu.step_of_decode hdecode₁ (by decide) (by decide)]
    simp only [Cpu.executed, Cpu.push_eq]
    show s₁.pc + 1 = _
    rw [hstate₁.1]
    decide
  generalize hs₂ : s₁.step.1 = s₂ at hget₂ hpc₂
  -- The pull.
  have hdecode₂ : decode (s₂.memory.get s₂.pc) = some ⟨.pla, .implicit⟩ := by
    rw [hpc₂, hget₂ _ (by decide), hcode.2.2.1]
  have hops₂ : s₂.stackOps = [.pull] := Cpu.stackOps_of_decode hdecode₂
  have hsets₂ := Cpu.setsNoPointer_of_decode hdecode₂ (by decide)
  have hpc₃ : s₂.step.1.pc = 0x0702 := by
    rw [Cpu.step_of_decode hdecode₂ (by decide) (by decide)]
    simp only [Cpu.executed, Cpu.drop_eq]
    show s₂.pc + 1 = _
    rw [hpc₂]
    decide
  have hdecode₃ : decode (s₂.step.1.memory.get s₂.step.1.pc) = some ⟨.rts, .implicit⟩ := by
    rw [hpc₃, Cpu.get_step_of_stackOps (by simp [hops₂]) (.inr (by decide)), hget₂ _ (by decide),
      hcode.2.2.2]
  have htrace : s₁.stackTrace 2 = [.push 0x00, .pull] := by
    rw [Cpu.stackTrace, Cpu.stackTrace, Cpu.stackTrace, hs₂, hops₁, hops₂]
    rfl
  have hrun : ∀ i < 2, (s₁.reached i).SetsNoPointer ∧ (s₁.reached i).Spares s.sp 2 := by
    intro i hi
    obtain rfl | rfl : i = 0 ∨ i = 1 := by omega
    · show s₁.SetsNoPointer ∧ s₁.Spares s.sp 2
      exact ⟨hsets₁, Cpu.spares_of_stackOps (by simp [hops₁]) _ _⟩
    · show s₁.step.1.SetsNoPointer ∧ s₁.step.1.Spares s.sp 2
      rw [hs₂]
      exact ⟨hsets₂, Cpu.spares_of_stackOps (by simp [hops₂]) _ _⟩
  have hreached : s₁.reached 2 = s₂.step.1 := by
    rw [Cpu.reached, Cpu.reached, Cpu.reached, hs₂]
  obtain ⟨hlist, -, -, hcalls⟩ := stack_refines_list s
  obtain ⟨held, pulled, hlist, hpulled, -⟩ :=
    hlist [.push 0x01, .push 0x02, .pull, .pull] (by decide)
  obtain rfl : [0x02, 0x01] = pulled := (Prod.mk.inj (Option.some.inj hlist)).2
  rw [hs₁] at hcalls
  obtain ⟨next, hstep, hpc, hsp⟩ := hcalls 2 hcall hrun (by rw [htrace]; decide)
    (by rw [htrace]; decide) (by rw [hreached, hdecode₃])
  exact ⟨s, rfl, hread.1, hread.2, hpulled, hs₁ ▸ htrace, next, hs₁ ▸ hstep, hpc, hsp⟩

end Mos6502
