import Latch.Event

/-!
# All events

Every event has an identity that it keeps for good. The store answers for every identity: an event
that nothing has happened to yet is unset and has no waiters.
-/

set_option autoImplicit false

namespace Latch

/-- Names an event. -/
structure EventId where
  number : Nat
  deriving DecidableEq, Repr

/-- The events that something has happened to, by identity, and the number of the next one. -/
structure Events (ω : Type) where
  table : Table EventId (Event ω) := ∅
  next : Nat := 0

/-- What anybody can see of an event. -/
structure EventState where
  isSet : Bool
  waiting : Nat
  deriving DecidableEq, Repr

namespace Events

variable {ω : Type}

instance : Inhabited (Events ω) := ⟨{}⟩

def get (events : Events ω) (id : EventId) : Event ω := (events.table.get? id).getD {}

def put (events : Events ω) (id : EventId) (event : Event ω) : Events ω :=
  { events with table := events.table.insert id event }

/-- Makes an event: takes the next identity. Nothing has happened to it yet. -/
def create (events : Events ω) : EventId × Events ω :=
  (⟨events.next⟩, { events with next := events.next + 1 })

def modify (events : Events ω) (id : EventId) (change : Event ω → Event ω) : Events ω :=
  events.put id (change (events.get id))

def state (events : Events ω) (id : EventId) : EventState :=
  let event := events.get id
  { isSet := event.isSet, waiting := event.registry.size }

theorem get_put (events : Events ω) (id other : EventId) (event : Event ω) :
    (events.put id event).get other = if other = id then event else events.get other := by
  unfold get put
  rw [Table.get?_insert]
  split <;> simp

@[simp]
theorem get_create (events : Events ω) (id : EventId) :
    events.create.2.get id = events.get id := rfl

@[simp]
theorem get_put_self (events : Events ω) (id : EventId) (event : Event ω) :
    (events.put id event).get id = event := by
  simp [get_put]

end Events

end Latch
