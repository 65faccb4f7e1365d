/-
What listeners write down is enough to rebuild a memory.

A memory is written to by whoever holds it: a host that sets, clears or latches cells, a processor
that executes instructions on it, an assembler that puts programs into it.  A `Board` has all of
these on one memory, and its calls may come in any order, with listeners joining in between.

What a call writes is said by itself (`Board.writes`), from the call and the state before it and
without regard to who listens.  The one thing to see for each call is then that it does to the
memory what these writes do and nothing else (`memory_perform`).  All the rest is about rows of
writes: every listener hears of each of them once, and a memory is determined by the cells at some
time and the writes since then.
-/
import Mos6502.Proofs.Imprint
import Mos6502.Proofs.Reuse

namespace Mos6502

/-- A memory with a processor that runs on it and an assembler that puts programs into it. -/
structure Board where
  cpu : Cpu
  assembler : Assembler
  /-- What the assembler has reported, the earliest first. -/
  events : List Event

namespace Board

/-- What can be done with a memory, or on it. -/
inductive Call where
  /-- Writes a byte from outside. -/
  | set (address : UInt16) (value : UInt8)
  /-- Writes a byte as an instruction does. -/
  | store (address : UInt16) (value : UInt8)
  /-- Writes a byte over the bus of the processor. -/
  | write (address : UInt16) (value : UInt8)
  /-- Latches the code of a key. -/
  | press (key : UInt8)
  /-- Writes zeros from the first address up to, but not including, the last. -/
  | clear (first last : UInt16)
  /-- Adds a listener. -/
  | listen
  /-- Executes an instruction, or fails to. -/
  | step
  /-- Assembles a source text into the memory, or fails to. -/
  | assemble (source : Text)
deriving DecidableEq, Repr

variable (b : Board) (call : Call) (calls before behind : List Call)

/-- The memory. -/
def memory : Memory :=
  b.cpu.memory

/-- The memory in the hands of the assembler. -/
def workbench : Workbench :=
  ⟨b.assembler, b.memory, b.events⟩

/-- The board after the assembler was at work. -/
def putBack (w : Workbench) : Board :=
  ⟨{ b.cpu with memory := w.memory }, w.assembler, w.events⟩

/-- Changes the memory. -/
def mapMemory (f : Memory → Memory) : Board :=
  { b with cpu := b.cpu.mapMemory f }

/-- The board after a call, whether it succeeded or failed. -/
def perform : Call → Board
  | .set address value => b.mapMemory fun memory => memory.set address value
  | .store address value | .write address value => { b with cpu := b.cpu.store address value }
  | .press key => b.mapMemory fun memory => memory.press key
  | .clear first last => b.mapMemory fun memory => memory.clear first last
  | .listen => b.mapMemory Memory.record
  | .step => { b with cpu := b.cpu.step.1 }
  | .assemble source => b.putBack (b.workbench.assemble source).1

/-- The board after some calls. -/
def after : Board :=
  calls.foldl perform b

/-- What a call writes, in order. -/
def writes : Call → List Change
  | .set address value | .store address value | .write address value => [⟨address, value⟩]
  | .press key => [⟨keyAddress, key⟩]
  | .clear first last => Memory.clearing first last
  | .listen => []
  | .step => b.cpu.writes
  | .assemble source => (Assembly.ofText source).changes

/-- What some calls write, in order. -/
def written (b : Board) : List Call → List Change
  | [] => []
  | call :: rest => b.writes call ++ (b.perform call).written rest

/-! ### One call -/

theorem memory_listen : (b.perform .listen).memory = b.memory.record := rfl

/-- A call does its writes to the memory, and nothing else unless it adds a listener. -/
theorem memory_perform {call : Call} (h : call ≠ .listen) :
    (b.perform call).memory = b.memory.apply (b.writes call) := by
  cases call with
  | set | store | write | press => rfl
  | clear first last => exact Memory.clear_eq_clearing b.memory first last
  | listen => exact absurd rfl h
  | step => exact b.cpu.memory_step
  | assemble source =>
    show (b.workbench.assemble source).1.memory = _
    rw [Workbench.assemble_eq]
    rfl

theorem cells_perform : (b.perform call).memory.cells = (b.memory.apply (b.writes call)).cells := by
  by_cases h : call = .listen
  · subst h
    rfl
  · rw [b.memory_perform h]

theorem recorded_perform :
    (b.perform call).memory.recorded =
      b.memory.recorded.map (· ++ (b.writes call).toArray) ++
        if call = .listen then [#[]] else [] := by
  by_cases h : call = .listen
  · subst h
    rw [memory_listen, Memory.recorded_record]
    simp [writes]
  · rw [b.memory_perform h, Memory.recorded_apply, if_neg h, List.append_nil]

/-! ### Many calls -/

theorem after_append : b.after (before ++ behind) = (b.after before).after behind :=
  List.foldl_append ..

theorem written_append :
    b.written (before ++ behind) = b.written before ++ (b.after before).written behind := by
  induction before generalizing b with
  | nil => rfl
  | cons call rest ih =>
    rw [List.cons_append, written, written, ih, List.append_assoc]
    rfl

/-- The writes of some calls tell the cells that they leave. -/
theorem cells_after : (b.after calls).memory.cells = (b.memory.apply (b.written calls)).cells := by
  induction calls generalizing b with
  | nil => rfl
  | cons call rest ih =>
    rw [written, Memory.apply_append, Memory.cells_apply_congr (b.cells_perform call).symm]
    exact ih (b.perform call)

/-- A listener hears of all that is written while it listens. -/
theorem getElem?_recorded_after {n : Nat} {seen : Array Change}
    (h : b.memory.recorded[n]? = some seen) :
    (b.after calls).memory.recorded[n]? = some (seen ++ (b.written calls).toArray) := by
  induction calls generalizing b seen with
  | nil => simpa [after, written] using h
  | cons call rest ih =>
    have hcall : (b.perform call).memory.recorded[n]? =
        some (seen ++ (b.writes call).toArray) := by
      obtain ⟨hn, -⟩ := List.getElem?_eq_some_iff.mp h
      rw [recorded_perform, List.getElem?_append_left (by rwa [List.length_map]),
        List.getElem?_map, h, Option.map_some]
    have hjoin : seen ++ (b.writes call).toArray ++ ((b.perform call).written rest).toArray =
        seen ++ (b.written (call :: rest)).toArray := by
      simp [written]
    rw [← hjoin]
    exact ih (b.perform call) hcall

/-- Nobody listens but those who did and those who were added. -/
theorem length_recorded_after :
    (b.after calls).memory.recorded.length = b.memory.recorded.length + calls.count .listen := by
  induction calls generalizing b with
  | nil => rfl
  | cons call rest ih =>
    show ((b.perform call).after rest).memory.recorded.length = _
    rw [ih, recorded_perform, List.length_append, List.length_map, List.count_cons]
    by_cases h : call = .listen
    · simp [h, Nat.add_assoc, Nat.add_comm]
    · simp [h]

/-- A new listener comes last, and has heard of nothing. -/
theorem getElem?_recorded_listen :
    (b.perform .listen).memory.recorded[b.memory.recorded.length]? = some #[] := by
  rw [memory_listen, Memory.recorded_record, List.getElem?_concat_length]

/-- Who was added hears of all that is written from then on. -/
theorem getElem?_recorded_joined :
    (b.after (before ++ .listen :: behind)).memory.recorded[
      (b.after before).memory.recorded.length]? =
        some ((b.after before).written (.listen :: behind)).toArray := by
  rw [after_append]
  have hheard := ((b.after before).perform .listen).getElem?_recorded_after behind
    (b.after before).getElem?_recorded_listen
  rwa [Array.empty_append] at hheard

end Board

/--
**Replaying the log of a listener rebuilds the memory.**  Take any memory, and any calls on it in
any order, be it writes, keys, clearings with any bounds, instructions or assemblies, which may
succeed or fail, and listeners that join at any time.

Who listened before has heard of all writes behind what was heard earlier.  Who joins on the way
hears of exactly the writes from then on, in order and each of them once, and these writes done to
the cells as they were then give the cells as they are now.  Two listeners between whom nothing was
written have the same log.  And there are no other listeners.
-/
theorem log_rebuilds_memory (b : Board) (calls : List Board.Call) :
    (∀ (n : Nat) (seen : Array Change), b.memory.recorded[n]? = some seen →
      (b.after calls).memory.recorded[n]? = some (seen ++ (b.written calls).toArray)) ∧
    (b.after calls).memory.cells = (b.memory.apply (b.written calls)).cells ∧
    (b.after calls).memory.recorded.length = b.memory.recorded.length + calls.count .listen ∧
    ∀ before behind, calls = before ++ .listen :: behind →
      ∃ log : Array Change,
        (b.after calls).memory.recorded[(b.after before).memory.recorded.length]? = some log ∧
        log.toList = (b.after before).written (.listen :: behind) ∧
        ((b.after before).memory.apply log.toList).cells = (b.after calls).memory.cells ∧
        ∀ between later, behind = between ++ .listen :: later →
          (b.after before).written (.listen :: between) = [] →
          (b.after calls).memory.recorded[
            (b.after (before ++ .listen :: between)).memory.recorded.length]? = some log := by
  refine ⟨fun n seen h => b.getElem?_recorded_after calls h, b.cells_after calls,
    b.length_recorded_after calls, ?_⟩
  rintro before behind rfl
  refine ⟨_, b.getElem?_recorded_joined before behind, rfl, ?_, ?_⟩
  · rw [b.after_append]
    exact ((b.after before).cells_after _).symm
  · rintro between later rfl hquiet
    have hlater := b.getElem?_recorded_joined (before ++ .listen :: between) later
    rw [List.append_assoc, List.cons_append] at hlater
    rw [hlater, ← List.cons_append, (b.after before).written_append, hquiet, b.after_append]
    rfl

/-- A push of zero where zero is already, the same zero once more, and a clearing with its bounds
reversed: the first listener has heard of two writes when two others join, and then of a key. -/
theorem log_rebuilds_memory_behind_push :
    ∃ b : Board, b.memory.read 0x0600 1 = [0x48] ∧
      let now := (b.after [.listen, .step, .set 0x01ff 0x00, .clear 0x0002 0x0001, .listen, .listen,
        .press 0x41]).memory
      now.recorded[0]? = some #[⟨0x01ff, 0x00⟩, ⟨0x01ff, 0x00⟩, ⟨0x00ff, 0x41⟩] ∧
      now.recorded[1]? = some #[⟨0x00ff, 0x41⟩] ∧ now.recorded[2]? = now.recorded[1]? ∧
      now.recorded.length = 3 ∧
      (b.memory.apply [⟨0x01ff, 0x00⟩, ⟨0x01ff, 0x00⟩, ⟨0x00ff, 0x41⟩]).cells = now.cells := by
  let b : Board := ⟨Cpu.ofMemory (Memory.empty.set 0x0600 0x48), {}, []⟩
  have hopcode : b.memory.get 0x0600 = 0x48 := Memory.get_set_self ..
  have hdecode : decode 0x48 = some ⟨.pha, .implicit⟩ := by decide +kernel
  have hpush : (b.perform .listen).cpu.writes = [⟨0x01ff, 0x00⟩] := by
    show ((decode (b.memory.get 0x0600)).map (b.perform .listen).cpu.operationWrites).getD [] = _
    rw [hopcode, hdecode]
    rfl
  obtain ⟨-, -, hlength, hjoined⟩ := log_rebuilds_memory b [.listen, .step, .set 0x01ff 0x00,
    .clear 0x0002 0x0001, .listen, .listen, .press 0x41]
  obtain ⟨first, hfirst, hwrites, hcells, -⟩ := hjoined [] _ rfl
  obtain ⟨second, hsecond, hkey, -, hsame⟩ :=
    hjoined [.listen, .step, .set 0x01ff 0x00, .clear 0x0002 0x0001] _ rfl
  have hthird := hsame [] _ rfl rfl
  simp only [Board.length_recorded_after] at hfirst hsecond hthird
  have hall : first.toList = [⟨0x01ff, 0x00⟩, ⟨0x01ff, 0x00⟩, ⟨0x00ff, 0x41⟩] := by
    rw [hwrites, Board.written, Board.written]
    show [] ++ ((b.perform .listen).cpu.writes ++ _) = _
    rw [hpush]
    rfl
  refine ⟨b, by simp [Memory.read, hopcode], ?_, ?_, hthird.trans hsecond.symm, hlength, ?_⟩
  · rw [← hall]
    exact hfirst
  · rw [← @Array.toArray_toList _ second, hkey] at hsecond
    exact hsecond
  · rw [← hall]
    exact hcells

end Mos6502
