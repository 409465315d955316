import Latch.Inspection
import Latch.Scenario.Participant
import Latch.Scenario.Report

/-!
# Worlds

The objects of a scenario by name, and what is noted about them: how often each waker was woken and
copied, which flags were raised, and of which registries it is open which members are left.
-/

set_option autoImplicit false

namespace Latch.Scenario

/-- Why an op is not carried out. -/
inductive Refusal where
  | badInput
  | unknownObject
  | wrongKind
  deriving DecidableEq, Repr

def Refusal.outcome : Refusal → Outcome Report
  | badInput => .badInput
  | unknownObject => .unknownObject
  | wrongKind => .wrongKind

/-- How often a waker was woken and copied. -/
structure Counters where
  wakes : Nat := 0
  clones : Nat := 0
  deriving DecidableEq, Repr

abbrev State := Machine Participant ExternalSignal String

/-- All objects of a scenario. Wakers are counted by the op that made them. -/
structure World where
  machine : State := {}
  events : Table String EventId := ∅
  wakers : Table String Participant := ∅
  counters : Table Nat Counters := ∅
  nextOrigin : Nat := 0
  tokens : Table String Token := ∅
  statistics : Table String Statistics := ∅
  raised : List String := []
  /-- The registries of which a member was released while there was a choice. -/
  undetermined : List String := []

namespace World

/-! ## Objects -/

/-- The value of a field that has to be there. -/
def require {α : Type} : Field α → Except Refusal α
  | some value => .ok value
  | none => .error .badInput

/-- The object that a field names. -/
def object {α : Type} (table : Table String α) (field : Field String) : Except Refusal α :=
  match field with
  | none => .error .badInput
  | some name =>
      match table.get? name with
      | some value => .ok value
      | none => .error .unknownObject

/-- The name and the object that a field names. -/
def named {α : Type} (table : Table String α) (field : Field String) :
    Except Refusal (String × α) :=
  match field with
  | none => .error .badInput
  | some name =>
      match table.get? name with
      | some value => .ok (name, value)
      | none => .error .unknownObject

def eventState (world : World) (id : EventId) : EventState := world.machine.events.state id

def registryState (world : World) (name : String) : RegistryState :=
  match world.machine.registries.get? name with
  | some registry => { size := registry.size, isEmpty := registry.isEmpty }
  | none => { size := 0, isEmpty := true }

/-! ## Wakers -/

def countersOf (world : World) (participant : Participant) : Counters :=
  (world.counters.get? participant.origin).getD {}

/-- How many copies of a waker are alive. -/
def held (world : World) (participant : Participant) : Nat :=
  world.machine.copies.countP fun copy => copy.origin == participant.origin

/-- What a waker can tell about itself. -/
def tally (world : World) (participant : Participant) : Tally :=
  let counters := world.countersOf participant
  match participant.role with
  | .probe _ => .probe counters.wakes counters.clones (world.held participant)
  | .counting => .counting counters.wakes
  | .noop => .noop

def count (world : World) (participant : Participant) (change : Counters → Counters) : World :=
  { world with
    counters := world.counters.insert participant.origin (change (world.countersOf participant)) }

def countWake (world : World) (participant : Participant) : World :=
  world.count participant fun counters => { counters with wakes := counters.wakes + 1 }

def countClone (world : World) (participant : Participant) : World :=
  world.count participant fun counters => { counters with clones := counters.clones + 1 }

/-- Counts the copies that a trace tells of. -/
def countClones (world : World) (trace : List (Occurrence Participant)) : World :=
  (trace.filterMap Occurrence.copied?).foldl countClone world

def bindWaker (world : World) (name : String) (role : Role) : World :=
  { world with
    wakers := world.wakers.insert name { origin := world.nextOrigin, name, role }
    nextOrigin := world.nextOrigin + 1 }

/-! ## Flags and registries -/

def raise (world : World) (flag : String) : World :=
  { world with raised := flag :: world.raised }

def isRaised (world : World) (flag : String) : Bool := world.raised.contains flag

/-- Whether it is open which members of a registry are left. -/
def isUndetermined (world : World) (name : String) : Bool := world.undetermined.contains name

/-- Notes whether it is open which members of a registry are left. An empty registry has none
left. -/
def noteUndetermined (world : World) (name : String) (undetermined : Bool) : World :=
  if undetermined && !(world.registryState name).isEmpty then
    { world with undetermined := name :: world.undetermined }
  else { world with undetermined := world.undetermined.filter (· ≠ name) }

/-- What the wakers and events of a world look like in the end. -/
def summary (world : World) : List (String × Tally) × List (String × EventState) :=
  (world.wakers.entries.map fun entry => (entry.1, world.tally entry.2),
    world.events.entries.map fun entry => (entry.1, world.eventState entry.2))

end World

end Latch.Scenario
