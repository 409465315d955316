import Latch.Event.Store
import Latch.Scenario.Op

/-!
# Reports

What a scenario tells about each op: what it answered or why it did not, and what happened while it
ran.
-/

set_option autoImplicit false

namespace Latch.Scenario

/-- What anybody can see of a registry. -/
structure RegistryState where
  size : Nat
  isEmpty : Bool
  deriving DecidableEq, Repr

/-- What a waker can tell about itself. -/
inductive Tally where
  | probe (wakes clones held : Nat)
  | counting (wakes : Nat)
  | noop
  deriving DecidableEq, Repr

/-- What a registry op answers about its own doing. -/
inductive Returned (ρ : Type) where
  | nothing
  | truth (value : Bool)
  | count (value : Nat)
  | token (token : Token)
  /-- A member whose identity is open: whether it was a member before, and is none any more. -/
  | someMember (wasMember gone : Bool)
  | drained (parts : List ρ)

/-- What an op came to. -/
inductive Outcome (ρ : Type) where
  | badInput
  | unknownObject
  | wrongKind
  | panicked (panic : Panic)
  | nothing
  | truth (value : Bool)
  | number (value : Nat)
  | text (value : String)
  | tally (tally : Tally)
  | event (state : EventState)
  | waitMade (registered : Option Bool) (event : EventState)
  /-- The state of a future, and the answer of its poll if it was polled. -/
  | future (answer? : Option String) (registered : Option Bool) (terminated : Bool)
      (event : EventState)
  | registry (state : RegistryState)
  | returned (value : Returned ρ) (state : RegistryState)
  | cancelled (display debug : String) (equal : Bool)
  /-- A member that was released on the way. -/
  | member (token : Token)

/-- Who was woken: the names, or their number where it is open whose they are. -/
inductive Woken where
  | names (names : List String)
  | count (count : Nat)
  deriving Repr

/-- What is told about an op. The nested reports are those of scripts, each under the name of the
waker or signal that ran it. -/
inductive Report where
  | mk (outcome : Outcome Report) (woken : Woken) (log : List String)
      (nested : List (String × List Report))

/-- What happened while an op ran: the probes woken, the messages, and the scripts that ended. -/
structure Effects where
  woken : List String := []
  log : List String := []
  nested : List (String × List Report) := []

namespace Effects

/-- Names in the order of their characters. -/
def sortedNames (names : List String) : List String :=
  names.mergeSort fun first second => decide (first ≤ second)

/-- Scripts by the name of who ran them; those of one name in the order in which they ended. -/
def sortedScripts (scripts : List (String × List Report)) : List (String × List Report) :=
  scripts.mergeSort fun first second => decide (first.1 ≤ second.1)

/-- The report of an op that names those who were woken. -/
def report (effects : Effects) (outcome : Outcome Report) : Report :=
  .mk outcome (.names (sortedNames effects.woken)) effects.log (sortedScripts effects.nested)

/-- The report of an op that leaves open whose wakers were woken. -/
def anonymousReport (effects : Effects) (outcome : Outcome Report) : Report :=
  .mk outcome (.count effects.woken.length) effects.log (sortedScripts effects.nested)

end Effects

end Latch.Scenario
