import Latch.Wait

/-!
# Ops

A scenario is a list of ops: calls of the library and questions about its state, on objects that
have names. Ops come from outside and may be incomplete, so each field may be missing; what is wrong
with an op is found out when it is its turn.
-/

set_option autoImplicit false

namespace Latch.Scenario

/-- A field of an op; nothing if it is missing or unusable. -/
abbrev Field (α : Type) := Option α

/-- What kind of object is to be described. -/
inductive Subject where
  | event
  | wait
  | registry
  | token
  | statistics
  | waker
  deriving DecidableEq, Repr

/-- What a waker does when it is woken, its script apart. -/
inductive WakerKind where
  /-- It is noted, and runs a script. -/
  | probe
  /-- It counts. -/
  | counting
  | noop
  deriving DecidableEq, Repr

mutual

/-- A step of a scenario. -/
inductive Op where
  /-- Not an op at all, or an unknown one. -/
  | malformed
  | waker (id : Field String) (kind : Field WakerKind) (script : List Op)
  | wakes (waker : Field String)
  /-- Wakes a waker directly; it is kept or given away. -/
  | wake (waker : Field String) (kept : Field Bool)
  | willWake (first second : Field String)
  | event (id : Field String)
  | isSet (event : Field String)
  | set (event : Field String)
  | statistics (event : Field String) (save : Option String)
  | savedStatistics (statistics : Field String)
  | equalStatistics (first second : Field String)
  | handles (event : Field String)
  | wait (id event : Field String) (hold : Field Hold)
  | poll (waker wait : Field String)
  | query (wait : Field String)
  | drop (wait : Field String)
  | race (wait : Field String) (signal : Option SignalForm)
  | fire (flag : Field String)
  /-- Makes a registry, with a capacity if one is given. -/
  | registry (id : Field String) (capacity : Field (Option Nat))
  | add (waker registry : Field String) (save : Option String)
  | update (token waker registry : Field String)
  | remove (token registry : Field String)
  | contains (token registry : Field String)
  | length (registry : Field String)
  | releaseAll (registry : Field String)
  | releaseOne (registry : Field String)
  | drain (registry : Field String)
  | dropRegistry (registry : Field String)
  | equalTokens (first second : Field String)
  | describe (id : Field String) (subject : Field Subject) (spread : Bool)
  | cancelled
  | panic (message : Field String)

/-- How a scenario describes a cancellation signal. -/
inductive SignalForm where
  | ready
  | never
  /-- Fires once its flag was raised. -/
  | flag (id : String)
  /-- Fires after it was asked a number of times. -/
  | countdown (count : Nat)
  /-- Runs ops whenever it is asked, and then fires or does not. -/
  | script (ops : List Op) (fires : Bool)
  /-- Another wait, which completes with any result. -/
  | wait (id : String)

end

instance : Inhabited Op := ⟨.malformed⟩

end Latch.Scenario
