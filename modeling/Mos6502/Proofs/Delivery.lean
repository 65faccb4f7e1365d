/-
Who is told of which events.

An observer may do anything to the bus that is just telling it: emit events, subscribe others, look.
It need not do the same every time, since it goes by all that was noted so far, and no two times
is that the same.  The bus is in use then and hears nothing of it, so a delivery goes through all
observers that there were when it started, and whatever they do meanwhile leaves no trace but notes
of what they saw.  That is said step by step: of one action (`Meanwhile.perform`), of one observer
after another (`foldl_tell_spec`) and of a whole delivery (`emitWithin_spec`).

How deep deliveries may be inside one another is left open (`emitWithin`).  If the bus did not
refuse to be used from inside, the depth would matter, and the same observers would be told more.
A bus that is passed on is one bus, whoever holds it, so it does not matter through which of its
holders an event is emitted or an observer subscribed.
-/
import Mos6502.Event.Bus

namespace Mos6502

/-- Who was told of what, if this is what happened. -/
def Note.told? : Note → Option (Nat × Event)
  | .told observer event => some (observer, event)
  | .looked .. => none

namespace Bus

/-- Who was told of what, the earliest first. -/
def told (bus : Bus) : List (Nat × Event) :=
  bus.notes.toList.filterMap Note.told?

/-- What one observer was told of, if this is who was told of what. -/
def heardBy (observer : Nat) (told : List (Nat × Event)) : List Event :=
  told.filterMap fun p => if p.1 = observer then some p.2 else none

/-- What can be asked of a bus from outside. -/
inductive Call where
  | subscribe (observer : Observer)
  | emit (event : Event)

/-- The observer that a call subscribes. -/
def Call.observer? : Call → Option Observer
  | .subscribe observer => some observer
  | .emit _ => none

/-- The event that a call emits. -/
def Call.event? : Call → Option Event
  | .subscribe _ => none
  | .emit event => some event

/-- The observers that some calls subscribe, in order. -/
def subscribed (calls : List Call) : List Observer :=
  calls.filterMap Call.observer?

/-- The events that some calls emit, in order. -/
def emitted (calls : List Call) : List Event :=
  calls.filterMap Call.event?

/-- Who has to be told of what, if there are some observers before the first call: of each event
all who came before it, in the order in which they came. -/
def due (observers : Nat) : List Call → List (Nat × Event)
  | [] => []
  | .subscribe _ :: rest => due (observers + 1) rest
  | .emit event :: rest =>
    (List.range observers).map (fun observer => (observer, event)) ++ due observers rest

variable {depth : Nat} {bus bus' bus'' : Bus} {calls before behind : List Call}

/-- A bus after a call. -/
def call (depth : Nat) (bus : Bus) : Call → Bus
  | .subscribe observer => bus.subscribe observer
  | .emit event => emitWithin (depth + 1) bus event

/-- A new bus after some calls. -/
def after (depth : Nat) (calls : List Call) : Bus :=
  calls.foldl (call depth) {}

/-! ### While observers are being told -/

/-- What observers can have done to a bus that is telling them of an event: nothing. -/
structure Meanwhile (bus bus' : Bus) : Prop where
  observers : bus'.observers = bus.observers
  told : bus'.told = bus.told

namespace Meanwhile

theorem refl (bus : Bus) : Meanwhile bus bus :=
  ⟨rfl, rfl⟩

theorem trans (h : Meanwhile bus bus') (h' : Meanwhile bus' bus'') : Meanwhile bus bus'' :=
  ⟨h'.observers.trans h.observers, h'.told.trans h.told⟩

theorem perform (h : bus.telling = true) (depth self : Nat) (action : Action) :
    Meanwhile bus (perform (emitWithin depth) self bus action) := by
  cases action with
  | emit event =>
    rw [Bus.perform, emitWithin_of_telling h]
    exact refl bus
  | subscribe observer =>
    rw [Bus.perform, subscribe, if_pos h]
    exact refl bus
  | look => exact ⟨rfl, by simp [Bus.perform, note, Bus.told, Note.told?]⟩

theorem foldl_perform (h : bus.telling = true) (depth self : Nat) (actions : List Action) :
    Meanwhile bus (actions.foldl (Bus.perform (emitWithin depth) self) bus) := by
  induction actions generalizing bus with
  | nil => exact refl bus
  | cons action rest ih =>
    exact (perform h depth self action).trans (ih (telling_perform depth self h action))

end Meanwhile

/-! ### One delivery -/

theorem told_note (bus : Bus) (observer : Nat) (event : Event) :
    (bus.note (.told observer event)).told = bus.told ++ [(observer, event)] := by
  simp [note, told, Note.told?]

/-- Each observer is told once, one after another, and nobody joins them. -/
theorem foldl_tell_spec (h : bus.telling = true) (depth : Nat) (event : Event)
    (places : List (Observer × Nat)) :
    (places.foldl (tell (emitWithin depth) event) bus).observers = bus.observers ∧
      (places.foldl (tell (emitWithin depth) event) bus).told =
        bus.told ++ places.map fun place => (place.2, event) := by
  induction places generalizing bus with
  | nil => exact ⟨rfl, (List.append_nil _).symm⟩
  | cons place rest ih =>
    have hnote : (bus.note (.told place.2 event)).telling = true := h
    have hacted : Meanwhile (bus.note (.told place.2 event))
        (tell (emitWithin depth) event bus place) := Meanwhile.foldl_perform hnote depth place.2 _
    have htelling : (tell (emitWithin depth) event bus place).telling = true :=
      (foldl_perform depth place.2 _ hnote).1
    obtain ⟨hobservers, htold⟩ := ih htelling
    refine ⟨hobservers.trans hacted.observers, ?_⟩
    rw [List.foldl_cons, htold, hacted.told, told_note, List.map_cons, List.append_assoc]
    rfl

/-- An event from outside reaches all observers, in the order in which they came. -/
theorem emitWithin_spec (h : bus.telling = false) (depth : Nat) (event : Event) :
    (emitWithin (depth + 1) bus event).telling = false ∧
      (emitWithin (depth + 1) bus event).observers = bus.observers ∧
      (emitWithin (depth + 1) bus event).told =
        bus.told ++ (List.range bus.size).map fun observer => (observer, event) := by
  have hplaces : (bus.observers.zipIdx.map fun place => (place.2, event)) =
      (List.range bus.size).map fun observer => (observer, event) := by
    rw [size, List.range_eq_range', ← List.zipIdx_map_snd, List.map_map]
    rfl
  have htelling : { bus with telling := true }.telling = true := rfl
  obtain ⟨hobservers, htold⟩ := foldl_tell_spec htelling depth event bus.observers.zipIdx
  rw [hplaces] at htold
  simp only [emitWithin, h, Bool.false_eq_true, if_false]
  exact ⟨trivial, hobservers, htold⟩

/-! ### Many calls -/

theorem foldl_call_spec (h : bus.telling = false) (depth : Nat) (calls : List Call) :
    (calls.foldl (call depth) bus).telling = false ∧
      (calls.foldl (call depth) bus).observers = bus.observers ++ subscribed calls ∧
      (calls.foldl (call depth) bus).told = bus.told ++ due bus.size calls := by
  induction calls generalizing bus with
  | nil => exact ⟨h, (List.append_nil _).symm, (List.append_nil _).symm⟩
  | cons first rest ih =>
    cases first with
    | subscribe observer =>
      have hnext : bus.call depth (.subscribe observer) =
          { bus with observers := bus.observers ++ [observer] } := by
        simp [call, subscribe, h]
      have hidle : (bus.call depth (.subscribe observer)).telling = false := by
        rw [hnext]
        exact h
      obtain ⟨htelling, hobservers, htold⟩ := ih hidle
      refine ⟨htelling, ?_, ?_⟩
      · rw [List.foldl_cons, hobservers, hnext, List.append_assoc]
        rfl
      · rw [List.foldl_cons, htold, hnext]
        simp [told, size, due]
    | emit event =>
      obtain ⟨hidle, hsame, hall⟩ := emitWithin_spec h depth event
      obtain ⟨htelling, hobservers, htold⟩ := ih hidle
      have hsize : (emitWithin (depth + 1) bus event).size = bus.size := congrArg List.length hsame
      refine ⟨htelling, hobservers.trans (by rw [hsame]; rfl), ?_⟩
      rw [hsize, hall, List.append_assoc] at htold
      exact htold

/-! ### One observer -/

theorem due_append (observers : Nat) (before behind : List Call) :
    due observers (before ++ behind) =
      due observers before ++ due (observers + (subscribed before).length) behind := by
  induction before generalizing observers with
  | nil => rfl
  | cons first rest ih =>
    cases first with
    | subscribe observer =>
      rw [List.cons_append, due, due, ih, Nat.add_assoc, Nat.add_comm 1]
      rfl
    | emit event =>
      rw [List.cons_append, due, due, ih, List.append_assoc]
      rfl

theorem heardBy_append (observer : Nat) (first second : List (Nat × Event)) :
    heardBy observer (first ++ second) = heardBy observer first ++ heardBy observer second :=
  List.filterMap_append

/-- Of one event, everybody hears once who is there, and nobody else. -/
theorem heardBy_range (observer observers : Nat) (event : Event) :
    heardBy observer ((List.range observers).map fun observer => (observer, event)) =
      if observer < observers then [event] else [] := by
  induction observers with
  | zero => rfl
  | succ observers ih =>
    rw [List.range_succ, List.map_append, heardBy_append, ih]
    by_cases hlast : observers = observer
    · simp [heardBy, hlast]
    · have hlt : observer < observers + 1 ↔ observer < observers := by omega
      simp [heardBy, hlast, hlt]

/-- Who is there from the beginning hears of everything. -/
theorem heardBy_due_of_lt {observer observers : Nat} (h : observer < observers)
    (calls : List Call) : heardBy observer (due observers calls) = emitted calls := by
  induction calls generalizing observers with
  | nil => rfl
  | cons first rest ih =>
    cases first with
    | subscribe other => exact ih (Nat.lt_succ_of_lt h)
    | emit event =>
      rw [due, heardBy_append, heardBy_range, if_pos h, ih h]
      rfl

/-- Who has not come by the end hears of nothing. -/
theorem heardBy_due_of_le {observer observers : Nat} {calls : List Call}
    (h : observers + (subscribed calls).length ≤ observer) :
    heardBy observer (due observers calls) = [] := by
  induction calls generalizing observers with
  | nil => rfl
  | cons first rest ih =>
    cases first with
    | subscribe other =>
      refine ih ?_
      rw [Nat.add_assoc, Nat.add_comm 1]
      exact h
    | emit event =>
      have hrest : observers + (subscribed rest).length ≤ observer := h
      rw [due, heardBy_append, heardBy_range, if_neg (by omega), ih hrest]
      rfl

end Bus

/--
**Every event reaches those who were there before it, and nothing that they do changes this.**
Take a new bus and any calls on it from outside, with any observers.  Observers may emit and
subscribe while they are being told, and deliveries may be inside one another to any depth as far
as the bus lets them.

Then the observers on the bus are those that were subscribed from outside, in order, and as many.
Who was told of what is just this: of each event that was emitted from outside, once each and in
order, all observers that came before it.  And who is subscribed on the way is on the bus at the
next place, and hears of exactly the events that are emitted from then on.
-/
theorem events_reach_earlier_observers (depth : Nat) :
    (∀ calls : List Bus.Call,
      (Bus.after depth calls).observers = Bus.subscribed calls ∧
      (Bus.after depth calls).size = (Bus.subscribed calls).length ∧
      (Bus.after depth calls).told = Bus.due 0 calls) ∧
    ∀ (before : List Bus.Call) (observer : Observer) (behind : List Bus.Call),
      (Bus.after depth (before ++ .subscribe observer :: behind)).observers[
        (Bus.after depth before).size]? = some observer ∧
      Bus.heardBy (Bus.after depth before).size
        (Bus.after depth (before ++ .subscribe observer :: behind)).told = Bus.emitted behind := by
  have hcalls : ∀ calls : List Bus.Call,
      (Bus.after depth calls).observers = Bus.subscribed calls ∧
        (Bus.after depth calls).told = Bus.due 0 calls := by
    intro calls
    have hidle : ({} : Bus).telling = false := rfl
    obtain ⟨-, hobservers, htold⟩ := Bus.foldl_call_spec hidle depth calls
    exact ⟨hobservers, htold⟩
  have hsize : ∀ calls : List Bus.Call,
      (Bus.after depth calls).size = (Bus.subscribed calls).length :=
    fun calls => congrArg List.length (hcalls calls).1
  refine ⟨fun calls => ⟨(hcalls calls).1, hsize calls, (hcalls calls).2⟩, ?_⟩
  intro before observer behind
  have hsubscribed : Bus.subscribed (before ++ .subscribe observer :: behind) =
      Bus.subscribed before ++ observer :: Bus.subscribed behind :=
    List.filterMap_append
  rw [(hcalls _).1, (hcalls _).2, hsize before, hsubscribed]
  refine ⟨by simp, ?_⟩
  rw [Bus.due_append, Bus.heardBy_append, Bus.heardBy_due_of_le (Nat.le_of_eq (Nat.zero_add _)),
    List.nil_append, Nat.zero_add]
  exact Bus.heardBy_due_of_lt (Nat.lt_succ_self _) behind

/-- The first observer passes every event on and brings another observer along, in vain. -/
example :
    let busy : Observer := fun _ => [.emit .step, .subscribe fun _ => [], .look]
    (Bus.after 2 [.subscribe busy, .emit .start, .subscribe fun _ => [], .emit .reset]).told =
      [(0, .start), (0, .reset), (1, .reset)] := by
  rfl

end Mos6502
