import Latch.Guarded
import Latch.Registry

/-!
# Events

A flag that is set once and stays set, and the registry of those who wait for it. Setting raises
the flag first and takes the registry out second, so that whoever is woken finds the event already
set and nobody waiting. From then on nobody is registered any more.
-/

set_option autoImplicit false

namespace Latch

/-- A set-once flag with its waiters. `handles` counts its owners: the one who made it, and every
wait that owns it. -/
structure Event (ω : Type) where
  isSet : Bool := false
  waiters : Guarded (Registry ω) := { value := ∅ }
  handles : Nat := 1

/-- How many waits were registered when somebody asked. -/
structure Statistics where
  tasksWaiting : Nat
  deriving DecidableEq, Repr

/-- What a registration did to the registry. -/
inductive Enrolment where
  /-- A new member was added with a copy of the waker. -/
  | added
  /-- The member's own waker does as well and stayed. -/
  | kept
  /-- The member's waker was replaced by a copy of the new one. -/
  | replaced
  deriving DecidableEq, Repr

/-- Makes a registered waiter wake the task of the given waker: the member with the given token if
there is one, and a new member otherwise. -/
def Registry.enrol {ω : Type} [Waker ω] (registry : Registry ω) (token? : Option Token)
    (waker : ω) : Token × Enrolment × Registry ω :=
  match token? with
  | none => (registry.next, .added, registry.add waker)
  | some token =>
      match registry.update token waker with
      | (.absent, registry) => (registry.next, .added, registry.add waker)
      | (.kept, registry) => (token, .kept, registry)
      | (.replaced, registry) => (token, .replaced, registry)

namespace Event

variable {ω : Type}

instance : Inhabited (Event ω) := ⟨{}⟩

/-- The registered waiters, in use or not. -/
def registry (event : Event ω) : Registry ω := event.waiters.value

/-- Registers a waiter or refreshes its registration. Only an unset event takes waiters. -/
def register [Waker ω] (event : Event ω) (token? : Option Token) (waker : ω) :
    Except Panic (Token × Enrolment × Event ω) :=
  if event.isSet then .error .registeredAfterSet
  else
    match event.waiters.acquire with
    | .error panic => .error panic
    | .ok cell =>
        let (token, enrolment, registry) := cell.value.enrol token? waker
        .ok (token, enrolment, { event with waiters := cell.release registry })

/-- Ends a registration; `false` if it had ended before. -/
def deregister (event : Event ω) (token : Token) : Except Panic (Bool × Event ω) :=
  match event.waiters.acquire with
  | .error panic => .error panic
  | .ok cell =>
      .ok (cell.value.contains token,
        { event with waiters := cell.release (cell.value.remove token) })

/-- Raises the flag, and takes out the registry if the flag was not up before. A fresh registry
takes its place. The flag is up even if the registry could not be taken out. -/
def trip (event : Event ω) : Except Panic (Option (Registry ω)) × Event ω :=
  if event.isSet then (.ok none, event)
  else
    let raised := { event with isSet := true }
    match raised.waiters.acquire with
    | .error panic => (.error panic, raised)
    | .ok cell => (.ok (some cell.value), { raised with waiters := cell.release ∅ })

def statistics (event : Event ω) : Except Panic Statistics :=
  match event.waiters.read with
  | .error panic => .error panic
  | .ok registry => .ok ⟨registry.size⟩

/-- One more owner. -/
def hold (event : Event ω) : Event ω := { event with handles := event.handles + 1 }

/-- One owner less. -/
def letGo (event : Event ω) : Event ω := { event with handles := event.handles - 1 }

end Event

end Latch
