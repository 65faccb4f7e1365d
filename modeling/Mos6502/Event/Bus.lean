/-
Telling observers of events.

A bus tells its observers of an event one after another, in the order in which they came.
While it does so the list of observers is in use: an observer that emits an event meanwhile
is not heard, and one that subscribes somebody is ignored.  So an event emitted from outside
reaches every observer that came before it, once and in order, whatever the observers do.

An observer may remember and may share what it remembers with others.  All that it can know
is what was noted so far, so it is a function of the notes.
-/
import Mos6502.Event.Basic

namespace Mos6502

/-- Something that happened on a bus.  Observers are numbered in the order in which they
came, from zero. -/
inductive Note where
  /-- An observer was told of an event. -/
  | told (observer : Nat) (event : Event)
  /-- An observer looked at the bus and saw this. -/
  | looked (observer : Nat) (summary : String)
deriving DecidableEq, Repr

/-- Something that an observer does when it is told of an event. -/
inductive Action where
  /-- Emits an event. -/
  | emit (event : Event)
  /-- Subscribes an observer. -/
  | subscribe (observer : Array Note → List Action)
  /-- Looks at the bus. -/
  | look

/-- What somebody does who was just told of an event, by the notes so far. -/
abbrev Observer := Array Note → List Action

/-- Those who want to be told of events. -/
structure Bus where
  observers : List Observer := []
  /-- Whether the observers are just being told of an event. -/
  telling : Bool := false
  /-- What happened, the earliest first. -/
  notes : Array Note := #[]

namespace Bus

/-- The number of observers. -/
def size (bus : Bus) : Nat :=
  bus.observers.length

/-- A bus in short.  While observers are being told of an event, they are not counted. -/
def summary (bus : Bus) : String :=
  let observers := if bus.telling then "None" else "Some(" ++ toString bus.size ++ ")"
  "EventBus \x7b observers: " ++ observers ++ " \x7d"

/-- Adds a note. -/
def note (bus : Bus) (entry : Note) : Bus :=
  { bus with notes := bus.notes.push entry }

/-- Subscribes an observer, unless the observers are just being told of an event. -/
def subscribe (bus : Bus) (observer : Observer) : Bus :=
  if bus.telling then bus else { bus with observers := bus.observers ++ [observer] }

/-- Does what an observer asks for. -/
def perform (emit : Bus → Event → Bus) (self : Nat) (bus : Bus) : Action → Bus
  | .emit event => emit bus event
  | .subscribe observer => bus.subscribe observer
  | .look => bus.note (.looked self bus.summary)

/-- Tells one observer of an event, and lets it act. -/
def tell (emit : Bus → Event → Bus) (event : Event) (bus : Bus) (place : Observer × Nat) : Bus :=
  let told := bus.note (.told place.2 event)
  (place.1 told.notes).foldl (perform emit place.2) told

/-- Tells all observers of an event, unless they are just being told of another.  The depth
is how many deliveries may be inside one another. -/
def emitWithin : Nat → Bus → Event → Bus
  | 0, bus, _ => bus
  | depth + 1, bus, event =>
    if bus.telling then bus
    else
      let told := bus.observers.zipIdx.foldl (tell (emitWithin depth) event)
        { bus with telling := true }
      { told with telling := false }

/-- Tells all observers of an event, unless they are just being told of another. -/
def emit (bus : Bus) (event : Event) : Bus :=
  emitWithin 1 bus event

/-! ### Deliveries are never inside one another

While observers are being told of an event the bus hears nothing, so the depth that
`emitWithin` allows does not matter.
-/

/-- An event emitted while observers are being told of another does nothing. -/
theorem emitWithin_of_telling {bus : Bus} (h : bus.telling = true) (depth : Nat) (event : Event) :
    emitWithin depth bus event = bus := by
  cases depth with
  | zero => rfl
  | succ depth => simp [emitWithin, h]

/-- No action of an observer ends the telling. -/
theorem telling_perform (depth self : Nat) {bus : Bus} (h : bus.telling = true)
    (action : Action) : (perform (emitWithin depth) self bus action).telling = true := by
  cases action with
  | emit event => rw [perform, emitWithin_of_telling h, h]
  | subscribe observer => simp [perform, subscribe, h]
  | look => simp [perform, note, h]

/-- What an observer does has the same effect at every depth. -/
theorem perform_eq (depth self : Nat) {bus : Bus} (h : bus.telling = true) (action : Action) :
    perform (emitWithin depth) self bus action = perform (emitWithin 0) self bus action := by
  cases action with
  | emit event => rw [perform, perform, emitWithin_of_telling h, emitWithin_of_telling h]
  | subscribe observer => rfl
  | look => rfl

theorem foldl_perform (depth self : Nat) (actions : List Action) {bus : Bus}
    (h : bus.telling = true) :
    (actions.foldl (perform (emitWithin depth) self) bus).telling = true ∧
      actions.foldl (perform (emitWithin depth) self) bus =
        actions.foldl (perform (emitWithin 0) self) bus := by
  induction actions generalizing bus with
  | nil => exact ⟨h, rfl⟩
  | cons action rest ih =>
    rw [List.foldl_cons, List.foldl_cons, ← perform_eq depth self h]
    exact ih (telling_perform depth self h action)

theorem foldl_tell (depth : Nat) (event : Event) (places : List (Observer × Nat)) {bus : Bus}
    (h : bus.telling = true) :
    (places.foldl (tell (emitWithin depth) event) bus).telling = true ∧
      places.foldl (tell (emitWithin depth) event) bus =
        places.foldl (tell (emitWithin 0) event) bus := by
  induction places generalizing bus with
  | nil => exact ⟨h, rfl⟩
  | cons place rest ih =>
    have hnote : (bus.note (.told place.2 event)).telling = true := h
    have key := foldl_perform depth place.2 (place.1 (bus.note (.told place.2 event)).notes) hnote
    have hone : tell (emitWithin depth) event bus place = tell (emitWithin 0) event bus place :=
      key.2
    rw [List.foldl_cons, List.foldl_cons, ← hone]
    exact ih key.1

/-- One delivery at a time is enough: allowing more makes no difference. -/
theorem emitWithin_succ (depth : Nat) (bus : Bus) (event : Event) :
    emitWithin (depth + 1) bus event = bus.emit event := by
  by_cases h : bus.telling = true
  · rw [emit, emitWithin_of_telling h, emitWithin_of_telling h]
  · unfold emit
    rw [emitWithin, emitWithin, if_neg h, if_neg h,
      (foldl_tell depth event bus.observers.zipIdx rfl).2]

end Bus

end Mos6502
