import Latch.Event.Store

/-!
# Occurrences

What the trace of a run records. Some occurrences are announced by a message; the others record
which wakers were copied and called, so that the history of every registration can be read off the
trace.
-/

set_option autoImplicit false

namespace Latch

/-- Something that happened to an event, a wait or a registry. -/
inductive Occurrence (ω : Type) where
  /-- A wait got a registration that holds a copy of the waker. -/
  | registered (event : EventId) (token : Token) (waker : ω)
  /-- A registered wait was polled again; `replaced` says whether the waker was copied. -/
  | refreshed (event : EventId) (token : Token) (waker : ω) (replaced : Bool)
  /-- A registry of its own replaced a member's waker by a copy of the given one. -/
  | exchanged (token : Token) (waker : ω)
  /-- A wait was dropped while it was registered. -/
  | withdrawn (event : EventId) (token : Token)
  /-- A cancellation signal ended a wait on the event. -/
  | cancelled (event : EventId)
  /-- All members are about to be woken: those of an event, or those of a registry of its own. -/
  | releasingAll (event? : Option EventId) (count : Nat)
  /-- One member of a registry is about to be woken. -/
  | releasingOne (token : Token)
  /-- The waker of a released member is about to be called. -/
  | woken (event? : Option EventId) (token : Token) (waker : ω)
  /-- The event is set and all its waiters have been woken. -/
  | eventSet (event : EventId) (released : Nat)
  deriving Repr

namespace Occurrence

/-- How a token is written in a message. -/
def tokenText (token : Token) : String := "WaitToken(" ++ toString token.number ++ ")"

/-- The message that announces an occurrence, tokens being written in the given way. -/
def message? {ω : Type} (write : Token → String) : Occurrence ω → Option String
  | registered .. => none
  | refreshed .. => none
  | exchanged .. => none
  | woken .. => none
  | withdrawn _ token => some ("wait dropped before event was set token=" ++ write token)
  | cancelled _ => some "wait cancelled by external signal"
  | releasingAll _ count => some ("releasing all waiters count=" ++ toString count)
  | releasingOne token => some ("releasing one waiter token=" ++ write token)
  | eventSet _ released => some ("event set released=" ++ toString released)

/-- The waker that was copied. -/
def copied? {ω : Type} : Occurrence ω → Option ω
  | registered _ _ waker => some waker
  | refreshed _ _ waker true => some waker
  | exchanged _ waker => some waker
  | _ => none

/-- The messages of a trace, in order. -/
def messages {ω : Type} (trace : List (Occurrence ω)) : List String :=
  trace.filterMap (message? tokenText)

end Occurrence

end Latch
