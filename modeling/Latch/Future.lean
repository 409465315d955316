import Latch.Wait

/-!
# Futures

Waits, and races of a wait against a cancellation signal. A signal is a future again, so races nest;
at the end of a chain of races stands a plain wait, a signal with a known answer, or an external
signal, which only its owner can poll. Polling a future therefore either answers or asks for an
external signal, and `resume` goes on with what that signal said.
-/

set_option autoImplicit false

namespace Latch

/-- A future; `σ` is what identifies an external signal. -/
inductive Future (σ : Type) where
  | plain (wait : Wait)
  /-- A wait raced against a signal; the wait is gone once the race is settled. -/
  | race (wait : Option Wait) (signal : Future σ)
  /-- A signal that has always fired. -/
  | ready
  /-- A signal that never fires. -/
  | never
  | external (signal : σ)
  deriving Repr

/-- What a poll answers. -/
inductive Answer where
  | pending
  /-- The event is set. -/
  | completed
  /-- The signal fired while the event was unset. -/
  | cancelled
  deriving DecidableEq, Repr

namespace Answer

/-- What the caller of a cancelled race is told. -/
def cancelledText : String := "wait was cancelled before the event was set"

end Answer

/-- How far a poll got. -/
inductive Progress (σ : Type) where
  | answered (answer : Answer)
  /-- An external signal has to be polled first. -/
  | asks (signal : σ)
  | panicked (panic : Panic)
  deriving Repr

/-- What a callback came back with. A waker only comes back; a signal also says whether it fired,
and how it is to be polled next time if it did not. -/
inductive Response (σ : Type) where
  | ready
  | pending (next : σ)
  | panicked (panic : Panic)
  deriving Repr

namespace Future

variable {σ ω : Type}

/-- A poll so far: its progress, the future as it now is, and all that came of it. -/
structure Polled (σ ω : Type) where
  progress : Progress σ
  future : Future σ
  events : Events ω
  trace : List (Occurrence ω) := []

/-- The waits that a future is made of, outermost first. -/
def waits : Future σ → List Wait
  | plain wait => [wait]
  | race wait signal => wait.toList ++ signal.waits
  | ready | never | external _ => []

/-- Settles a race with the given answer: the wait is dropped before anybody hears of it. The signal
stays with the race. -/
def settle (wait : Wait) (signal : Future σ) (answer : Answer) (note : List (Occurrence ω))
    (events : Events ω) : Polled σ ω :=
  let dropped := wait.drop events
  match dropped.panic? with
  | some panic =>
      { progress := .panicked panic, future := race none signal, events := dropped.events,
        trace := dropped.trace }
  | none =>
      { progress := .answered answer, future := race none signal, events := dropped.events,
        trace := dropped.trace ++ note }

/-- What polling a race comes to once its wait was found pending and its signal was polled. -/
def conclude (wait : Wait) (polled : Polled σ ω) : Polled σ ω :=
  match polled.progress with
  | .answered .pending | .asks _ | .panicked _ =>
      { polled with future := race (some wait) polled.future }
  | .answered .completed | .answered .cancelled =>
      let settled := settle wait polled.future .cancelled [.cancelled wait.event] polled.events
      { settled with trace := polled.trace ++ settled.trace }

/-- Polls a future. A race polls its wait first and its signal only if the wait is pending; polling
a settled race is a mistake. -/
def poll [Waker ω] (waker : ω) : Future σ → Events ω → Polled σ ω
  | plain wait, events =>
      let polled := wait.poll waker events
      { progress :=
          match polled.outcome with
          | .error panic => .panicked panic
          | .ok true => .answered .completed
          | .ok false => .answered .pending
        future := plain polled.wait, events := polled.events, trace := polled.trace }
  | race none signal, events =>
      { progress := .panicked .polledAfterCompletion, future := race none signal, events }
  | race (some wait) signal, events =>
      let first := wait.poll waker events
      match first.outcome with
      | .error panic =>
          { progress := .panicked panic, future := race (some first.wait) signal,
            events := first.events, trace := first.trace }
      | .ok true =>
          let settled := settle first.wait signal .completed [] first.events
          { settled with trace := first.trace ++ settled.trace }
      | .ok false =>
          let concluded := conclude first.wait (signal.poll waker first.events)
          { concluded with trace := first.trace ++ concluded.trace }
  | ready, events => { progress := .answered .completed, future := ready, events }
  | never, events => { progress := .answered .pending, future := never, events }
  | external signal, events =>
      { progress := .asks signal, future := external signal, events }

/-- Goes on with a poll that asked for an external signal. A future that asks for none stays
pending. -/
def resume (response : Response σ) : Future σ → Events ω → Polled σ ω
  | external signal, events =>
      match response with
      | .ready => { progress := .answered .completed, future := external signal, events }
      | .pending next => { progress := .answered .pending, future := external next, events }
      | .panicked panic => { progress := .panicked panic, future := external signal, events }
  | race (some wait) signal, events => conclude wait (signal.resume response events)
  | future, events => { progress := .answered .pending, future, events }

/-- Drops a future: a race drops its wait first and its signal second. -/
def drop : Future σ → Events ω → Dropped ω
  | plain wait, events => wait.drop events
  | race none signal, events => signal.drop events
  | race (some wait) signal, events =>
      let first := wait.drop events
      let second := signal.drop first.events
      { events := second.events, trace := first.trace ++ second.trace,
        panic? := first.panic?.or second.panic? }
  | ready, events | never, events | external _, events => { events }

/-- Whether the future has given its final answer. Signals with a known answer and external ones are
never asked this. -/
def isTerminated : Future σ → Bool
  | plain wait => wait.isTerminated
  | race wait _ => wait.isNone
  | ready | never | external _ => false

def isRace : Future σ → Bool
  | race .. => true
  | plain _ | ready | never | external _ => false

/-- Whether a plain wait is registered; nobody asks a race. -/
def isRegistered? : Future σ → Option Bool
  | plain wait => some wait.isRegistered
  | race .. | ready | never | external _ => none

end Future

end Latch
