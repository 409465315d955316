import Latch.Occurrence

/-!
# Waits

A wait is a future that completes once its event is set. While it is pending it owns at most one
registration with the event, and it gives that back when it is dropped.
-/

set_option autoImplicit false

namespace Latch

/-- How a wait reaches its event. -/
inductive Hold where
  /-- It borrows the event. -/
  | borrowed
  /-- It is one of the event's owners. -/
  | owned
  deriving DecidableEq, Repr

/-- A pending or completed wait on an event, with the token of its registration if it has one. -/
structure Wait where
  event : EventId
  hold : Hold
  token : Option Token := none
  completed : Bool := false
  deriving DecidableEq, Repr

namespace Wait

variable {ω : Type}

/-- A wait that was never polled. A wait that owns its event counts as an owner at once. -/
def make (events : Events ω) (event : EventId) (hold : Hold) : Wait × Events ω :=
  ({ event, hold },
    match hold with
    | .borrowed => events
    | .owned => events.modify event Event.hold)

def isRegistered (wait : Wait) : Bool := wait.token.isSome

/-- A wait is terminated once it has answered that its event is set. -/
def isTerminated (wait : Wait) : Bool := wait.completed

/-- The outcome of polling a wait, and all that came of it: `true` when the event is set. -/
structure Polled (ω : Type) where
  outcome : Except Panic Bool
  wait : Wait
  events : Events ω
  trace : List (Occurrence ω)

/-- What the trace records of a registration. -/
def enrolled (event : EventId) (token : Token) (waker : ω) : Enrolment → Occurrence ω
  | .added => .registered event token waker
  | .kept => .refreshed event token waker false
  | .replaced => .refreshed event token waker true

/-- Completes if the event is set, forgetting a token that has become void. Registers or refreshes
the registration otherwise. -/
def poll [Waker ω] (waker : ω) (wait : Wait) (events : Events ω) : Polled ω :=
  let event := events.get wait.event
  if event.isSet then
    { outcome := .ok true, wait := { wait with token := none, completed := true }, events,
      trace := [] }
  else
    match event.register wait.token waker with
    | .error panic => { outcome := .error panic, wait, events, trace := [] }
    | .ok (token, enrolment, event) =>
        { outcome := .ok false, wait := { wait with token := some token },
          events := events.put wait.event event,
          trace := [enrolled wait.event token waker enrolment] }

end Wait

/-- What dropping something left behind, and why it broke off if it did. -/
structure Dropped (ω : Type) where
  events : Events ω
  trace : List (Occurrence ω) := []
  panic? : Option Panic := none

namespace Wait

variable {ω : Type}

/-- Gives the registration back, if the wait still has one; only then the trace tells of it. -/
def withdraw (wait : Wait) (events : Events ω) : Dropped ω :=
  match wait.token with
  | none => { events }
  | some token =>
      match (events.get wait.event).deregister token with
      | .error panic => { events, panic? := some panic }
      | .ok (present, event) =>
          { events := events.put wait.event event,
            trace := if present then [.withdrawn wait.event token] else [] }

/-- Ends the wait: it gives back its registration, and its share of the event if it owns one. -/
def drop (wait : Wait) (events : Events ω) : Dropped ω :=
  let withdrawn := wait.withdraw events
  match wait.hold with
  | .borrowed => withdrawn
  | .owned => { withdrawn with events := withdrawn.events.modify wait.event Event.letGo }

end Wait

end Latch
