import NTrade.Lib.Deque
import NTrade.Lib.Dict
import NTrade.Lib.Forest
import Mathlib.Algebra.Order.Ring.Rat

/-! The event bus: synchronous dispatch over the classes of an event, with its causal stack
and its history. Every publish hangs in a forest from the event whose handler made it. -/
namespace NTrade.Kernel.Bus
open NTrade.Lib

inductive EventClass (κ : Type*) where
  | object
  | event
  | riskHalted
  | other (name : κ)
  deriving DecidableEq, Repr

structure Event (κ ι : Type*) where
  mro : List (EventClass κ)
  ts : Rat
  eventId : ι
  correlationId : Option ι := none
  causationId : Option ι := none
  /-- Of a `RiskHaltedEvent`. -/
  reason : String := ""
  deriving DecidableEq, Repr

variable {κ η ι : Type*} {maxHistory : Nat}

/-- What the bus fills in under the event in dispatch: ids that are there already stay. -/
def Event.stamp (parent : Option (Event κ ι)) (e : Event κ ι) : Event κ ι :=
  { e with
    correlationId := e.correlationId.or
      (match parent with
      | some p => p.correlationId
      | none => some e.eventId)
    causationId := e.causationId.or (parent.map Event.eventId) }

def riskHaltedEvent (ts : Rat) (eventId : ι) (errors : Nat) : Event κ ι where
  mro := [.riskHalted, .event, .object]
  ts := ts
  eventId := eventId
  reason := s!"handler error limit reached ({errors} errors)"

structure Dispatch (κ η ι : Type*) where
  /-- The event as its publisher made it. -/
  published : Event κ ι
  event : Event κ ι
  /-- The classes the bus came to, each with the handlers it had then. -/
  reached : List (EventClass κ × List η)
  called : List (EventClass κ × η)
  /-- The halt of the bus itself, at the limit of handler errors. -/
  ownHalt : Bool
  /-- A handler ended it with an exception that the bus lets through. -/
  exited : Bool

structure EventBus (κ η ι : Type*) (maxHistory : Nat) where
  subscribers : Dict (EventClass κ) (List η)
  history : Deque (Event κ ι) maxHistory
  /-- The events in dispatch, the innermost first. -/
  stack : List (Event κ ι)
  handlerErrors : Nat
  maxHandlerErrors : Option Nat

/-- How a call ended: an `Exception` is `raised`, any other exception (of a keyboard
interrupt, of an exit) is `exited`. -/
inductive Ending where
  | returned
  | raised
  | exited
  deriving DecidableEq, Repr

structure Outcome (κ η ι : Type*) (maxHistory : Nat) where
  bus : EventBus κ η ι maxHistory
  forest : Forest (Dispatch κ η ι)
  ending : Ending

abbrev Reaction (κ η ι : Type*) (maxHistory : Nat) := EventBus κ η ι maxHistory → Outcome κ η ι maxHistory

def Outcome.andThen (o : Outcome κ η ι maxHistory) (r : Reaction κ η ι maxHistory) : Outcome κ η ι maxHistory where
  bus := (r o.bus).bus
  forest := o.forest ++ (r o.bus).forest
  ending := (r o.bus).ending

def silent : Reaction κ η ι maxHistory := fun b => ⟨b, .nil, .returned⟩

/-- The loop of `publish` over classes and handlers: the reactions are those of the calls to come. -/
structure Loop (κ η ι : Type*) (maxHistory : Nat) where
  bus : EventBus κ η ι maxHistory
  reactions : List (Reaction κ η ι maxHistory)
  forest : Forest (Dispatch κ η ι) := .nil
  reached : List (EventClass κ × List η) := []
  called : List (EventClass κ × η) := []
  haltEvent : Option (Event κ ι) := none
  /-- An exception that the loop does not catch has ended it. -/
  exited : Bool := false

section Dispatching
variable (event : Event κ ι) (haltId : ι)

/-- A handler's exception is swallowed and counted; at the limit the bus owes a halt, and has no limit any more. -/
def Loop.countError (s : Loop κ η ι maxHistory) : Loop κ η ι maxHistory :=
  let errors := s.bus.handlerErrors + 1
  match s.bus.maxHandlerErrors.filter (· ≤ errors) with
  | none => { s with bus := { s.bus with handlerErrors := errors } }
  | some _ =>
    { s with
      bus := { s.bus with handlerErrors := errors, maxHandlerErrors := none }
      haltEvent := some (riskHaltedEvent event.ts haltId errors) }

/-- A handler that has no reaction left does nothing. -/
def Loop.callHandler (klass : EventClass κ) (s : Loop κ η ι maxHistory) (handler : η) : Loop κ η ι maxHistory :=
  if s.exited then s
  else
    let o := s.reactions.headD silent s.bus
    let s' : Loop κ η ι maxHistory :=
      { s with
        bus := o.bus
        reactions := s.reactions.tail
        forest := s.forest ++ o.forest
        called := s.called ++ [(klass, handler)] }
    match o.ending with
    | .returned => s'
    | .raised => s'.countError event haltId
    | .exited => { s' with exited := true }

end Dispatching

namespace EventBus

def init (maxHandlerErrors : Option Nat) : EventBus κ η ι maxHistory :=
  ⟨Dict.empty, Deque.empty, [], 0, maxHandlerErrors⟩

variable [DecidableEq κ] [DecidableEq η] (b : EventBus κ η ι maxHistory)

def handlersOf (klass : EventClass κ) : List η := b.subscribers.getD klass []

def subscribe (eventType : EventClass κ) (handler : η) : EventBus κ η ι maxHistory :=
  { b with subscribers := b.subscribers.set eventType (b.handlersOf eventType ++ [handler]) }

def unsubscribe (eventType : EventClass κ) (handler : η) : EventBus κ η ι maxHistory :=
  { b with subscribers := b.subscribers.set eventType ((b.handlersOf eventType).erase handler) }

end EventBus

section Publishing
variable [DecidableEq κ]

/-- The handlers of a class are those it has when the bus comes to it. -/
def Loop.reachClass (event : Event κ ι) (haltId : ι) (s : Loop κ η ι maxHistory) (klass : EventClass κ) :
    Loop κ η ι maxHistory :=
  if s.exited then s
  else
    let handlers := s.bus.handlersOf klass
    handlers.foldl (fun s handler => s.callHandler event haltId klass handler)
      { s with reached := s.reached ++ [(klass, handlers)] }

/-- `publish` up to the halt it may owe. The event leaves the stack also when an exception
goes through, and no halt follows then. -/
def EventBus.dispatch (ownHalt : Bool) (e : Event κ ι) (reactions : List (Reaction κ η ι maxHistory)) (haltId : ι)
    (b : EventBus κ η ι maxHistory) : Outcome κ η ι maxHistory × Option (Event κ ι) :=
  let event := e.stamp b.stack.head?
  let pushed : EventBus κ η ι maxHistory :=
    { b with stack := event :: b.stack, history := b.history.push event }
  let s := event.mro.foldl (fun s klass => s.reachClass event haltId klass)
    ({ bus := pushed, reactions := reactions } : Loop κ η ι maxHistory)
  (⟨{ s.bus with stack := s.bus.stack.tail },
      .cons ⟨e, event, s.reached, s.called, ownHalt, s.exited⟩ s.forest .nil,
      if s.exited then .exited else .returned⟩,
    if s.exited then none else s.haltEvent)

/-- The halt is published when the event is off the stack. It owes no other: the limit is gone by then. -/
def EventBus.publish (e : Event κ ι) (reactions : List (Reaction κ η ι maxHistory)) (haltId : ι)
    (haltReactions : List (Reaction κ η ι maxHistory)) (b : EventBus κ η ι maxHistory) : Outcome κ η ι maxHistory :=
  match b.dispatch false e reactions haltId with
  | (o, none) => o
  | (o, some halt) => o.andThen fun b => (b.dispatch true halt haltReactions haltId).1

end Publishing

/-- What a handler does in one call, or the code outside the bus. A publish comes with what
the handlers do that its dispatch calls, one script a call in the order of the calls, and
with the same for the halt that the bus may publish after it. A script that does not catch
what goes through a publish is done after it, with that ending. -/
inductive Script (κ η ι : Type*) where
  | done (ending : Ending)
  | publish (event : Event κ ι) (calls : List (Script κ η ι)) (haltId : ι) (haltCalls : List (Script κ η ι))
      (rest : Script κ η ι)
  | subscribe (eventType : EventClass κ) (handler : η) (rest : Script κ η ι)
  | unsubscribe (eventType : EventClass κ) (handler : η) (rest : Script κ η ι)

section Running
variable [DecidableEq κ] [DecidableEq η]

mutual

def Script.run : Script κ η ι → Reaction κ η ι maxHistory
  | .done ending => fun b => ⟨b, .nil, ending⟩
  | .publish event calls haltId haltCalls rest => fun b =>
    (b.publish event (Script.reactions calls) haltId (Script.reactions haltCalls)).andThen rest.run
  | .subscribe eventType handler rest => fun b => rest.run (b.subscribe eventType handler)
  | .unsubscribe eventType handler rest => fun b => rest.run (b.unsubscribe eventType handler)

def Script.reactions : List (Script κ η ι) → List (Reaction κ η ι maxHistory)
  | [] => []
  | s :: ss => s.run :: Script.reactions ss

end

end Running
end NTrade.Kernel.Bus
