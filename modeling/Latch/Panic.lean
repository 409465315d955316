/-!
# Panics

The ways in which a call can break off instead of answering, and what each of them says.
-/

set_option autoImplicit false

namespace Latch

/-- Why a call broke off. -/
inductive Panic where
  /-- A race was polled after it had completed. -/
  | polledAfterCompletion
  /-- A waiter was to be registered with an event that is already set. -/
  | registeredAfterSet
  /-- A guarded value was to be used for writing while it was in use. -/
  | alreadyInUse
  /-- A guarded value was to be read while it was in use. -/
  | beingWritten
  /-- Room was asked for more members than a registry can have. -/
  | capacityOverflow
  /-- A waker, a signal or a caller broke off on its own account. -/
  | raised (text : String)
  deriving DecidableEq, Repr

namespace Panic

def message : Panic → String
  | polledAfterCompletion => "CancellableWait polled after completion"
  | registeredAfterSet => "registered a waiter on an event that is already set"
  | alreadyInUse => "RefCell already borrowed"
  | beingWritten => "RefCell already mutably borrowed"
  | capacityOverflow => "Hash table capacity overflow"
  | raised text => text

end Panic

end Latch
