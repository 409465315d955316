import Latch.Machine.Calls
import Latch.Scenario.Op

/-!
# Participants

The wakers and external signals of a scenario. Wakers made by one op wake the same task, and so do
all wakers that do nothing.
-/

set_option autoImplicit false

namespace Latch.Scenario

/-- What a waker does when it is woken. -/
inductive Role where
  | probe (script : List Op)
  | counting
  | noop

/-- A waker, the op that made it, and the name it was given there. -/
structure Participant where
  origin : Nat
  name : String
  role : Role

namespace Participant

/-- The task that a waker wakes; all wakers that do nothing share one. -/
def task? (participant : Participant) : Option Nat :=
  match participant.role with
  | .noop => none
  | .probe _ | .counting => some participant.origin

instance : Waker Participant where
  willWake first second := first.task? == second.task?

theorem willWake_iff (first second : Participant) :
    willWake first second = true ↔ first.task? = second.task? :=
  beq_iff_eq

instance : LawfulWaker Participant where
  refl waker := (willWake_iff waker waker).mpr rfl
  symm first second same :=
    (willWake_iff second first).mpr ((willWake_iff first second).mp same).symm
  trans first second third same next :=
    (willWake_iff first third).mpr
      (((willWake_iff first second).mp same).trans ((willWake_iff second third).mp next))

end Participant

/-- A signal that its scenario polls. -/
inductive ExternalSignal where
  | flag (id : String)
  | countdown (count : Nat)
  | script (ops : List Op) (fires : Bool)

abbrev SignalRequest := Signal ExternalSignal String

namespace SignalForm

/-- The signal that a description stands for. -/
def request : SignalForm → SignalRequest
  | ready => .ready
  | never => .never
  | flag id => .external (.flag id)
  | countdown count => .external (.countdown count)
  | script ops fires => .external (.script ops fires)
  | wait id => .future id

end SignalForm

end Latch.Scenario
