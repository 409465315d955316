import Latch.Machine

/-!
# Calls

Each call of the library as a step of a machine. A call that wakes a waker or asks for a signal
stops there; the second half of this module says how it goes on. A name that stands for nothing
makes a call do nothing.
-/

set_option autoImplicit false

namespace Latch

namespace Machine

variable {ω σ ν : Type} [Waker ω] [DecidableEq ν]

/-! ## Owners and names -/

/-- Drops a future that nobody holds any more. -/
def discard (machine : Machine ω σ ν) (future : Future σ) (control : Control ω σ) :
    Turn ω σ ν :=
  let dropped := future.drop machine.events
  { machine := { machine with events := dropped.events }, trace := dropped.trace,
    control :=
      match dropped.panic? with
      | some panic => .panicked panic
      | none => control }

/-- Puts a future under a name; the one that stood there is dropped afterwards. -/
def store (machine : Machine ω σ ν) (name : ν) (holding : Holding σ) (control : Control ω σ) :
    Turn ω σ ν :=
  let stored := { machine with futures := machine.futures.insert name holding }
  match machine.futures.get? name with
  | none => { machine := stored, control }
  | some previous => stored.discard previous.future control

/-- Puts a registry under a name. One that stood there is gone, and nobody is woken by that. -/
def storeRegistry (machine : Machine ω σ ν) (name : ν) (registry : Registry ω) :
    Machine ω σ ν :=
  { machine with registries := machine.registries.insert name registry }

/-! ## Events and futures -/

def makeEvent (machine : Machine ω σ ν) : Turn ω σ ν :=
  let (id, events) := machine.events.create
  { machine := { machine with events }, control := .done (.event id) }

/-- Wakes the next of the waiters that a set event released, or ends the call. -/
def continueSet (machine : Machine ω σ ν) (event : EventId) (released : Nat)
    (remaining : List (Token × ω)) (choice : Nat) : Turn ω σ ν :=
  match pick? remaining choice with
  | some (entry, rest) =>
      { machine := machine.push (.setting event released rest),
        trace := [.woken (some event) entry.1 entry.2], control := .wake entry.2 }
  | none => { machine, trace := [.eventSet event released], control := .done .nothing }

/-- Sets an event and wakes all its waiters; an event that is set stays as it is. -/
def setEvent (machine : Machine ω σ ν) (id : EventId) (choice : Nat) : Turn ω σ ν :=
  match (machine.events.get id).trip with
  | (.error panic, event) =>
      { machine := { machine with events := machine.events.put id event },
        control := .panicked panic }
  | (.ok none, _) => machine.idle
  | (.ok (some registry), event) =>
      let tripped := { machine with events := machine.events.put id event }
      let turn := tripped.continueSet id registry.size registry.entries choice
      { turn with trace := .releasingAll (some id) registry.size :: turn.trace }

def makeWait (machine : Machine ω σ ν) (name : ν) (event : EventId) (hold : Hold) :
    Turn ω σ ν :=
  let (wait, events) := Wait.make machine.events event hold
  { machine with events }.store name ⟨event, .plain wait⟩ (.done .nothing)

/-- Where a poll leads to: the future goes back under its name, unless a signal has to be asked
first. What the answer says of the event is seen before that. -/
def afterPoll (machine : Machine ω σ ν) (name : ν) (event : EventId) (waker : ω)
    (polled : Future.Polled σ ω) : Turn ω σ ν :=
  let reached := { machine with events := polled.events }
  let holding : Holding σ := ⟨event, polled.future⟩
  let turn :=
    match polled.progress with
    | .answered answer =>
        reached.store name holding (.done (.polled answer (reached.events.state event)))
    | .panicked panic => reached.store name holding (.panicked panic)
    | .asks signal =>
        { machine := reached.push (.polling name holding waker), control := .ask signal }
  { turn with trace := polled.trace ++ turn.trace }

def pollFuture (machine : Machine ω σ ν) (name : ν) (waker : ω) : Turn ω σ ν :=
  match machine.futures.get? name with
  | none => machine.idle
  | some holding =>
      { machine with futures := machine.futures.erase name }.afterPoll name holding.event waker
        (holding.future.poll waker machine.events)

def dropFuture (machine : Machine ω σ ν) (name : ν) : Turn ω σ ν :=
  match machine.futures.get? name with
  | none => machine.idle
  | some holding =>
      { machine with futures := machine.futures.erase name }.discard holding.future (.done .nothing)

/-- Makes the signal, and says which futures are left under their names. -/
def takeSignal? (futures : Table ν (Holding σ)) :
    Signal σ ν → Option (Future σ × Table ν (Holding σ))
  | .ready => some (.ready, futures)
  | .never => some (.never, futures)
  | .external signal => some (.external signal, futures)
  | .future name =>
      (futures.get? name).map fun holding => (holding.future, futures.erase name)

/-- Races the plain wait under a name against a signal. The wait is out of its owner's hands while
the signal is made, so that it cannot be its own signal. -/
def raceFuture (machine : Machine ω σ ν) (name : ν) (signal : Signal σ ν) : Turn ω σ ν :=
  match machine.futures.get? name with
  | some ⟨event, .plain wait⟩ =>
      match takeSignal? (machine.futures.erase name) signal with
      | some (future, futures) =>
          { machine :=
              { machine with futures := futures.insert name ⟨event, .race (some wait) future⟩ }
            control := .done .nothing }
      | none => machine.idle
  | _ => machine.idle

/-- Wakes a waker on its owner's behalf, who keeps it or gives it away. -/
def wake (machine : Machine ω σ ν) (waker : ω) (kept : Bool) : Turn ω σ ν :=
  { machine := machine.push (.waking waker kept), control := .wake waker }

/-! ## Registries -/

/-- Makes a registry, with room set aside if a capacity is given. -/
def makeRegistry (machine : Machine ω σ ν) (name : ν) (capacity? : Option Nat) : Turn ω σ ν :=
  match capacity? with
  | none => { machine := machine.storeRegistry name ∅, control := .done .nothing }
  | some capacity =>
      match Registry.withCapacity capacity with
      | .error panic => { machine, control := .panicked panic }
      | .ok registry =>
          { machine := machine.storeRegistry name registry, control := .done .nothing }

def dropRegistry (machine : Machine ω σ ν) (name : ν) : Turn ω σ ν :=
  { machine := { machine with registries := machine.registries.erase name },
    control := .done .nothing }

def addMember (machine : Machine ω σ ν) (name : ν) (waker : ω) : Turn ω σ ν :=
  match machine.registries.get? name with
  | none => machine.idle
  | some registry =>
      { machine := machine.storeRegistry name (registry.add waker),
        control := .done (.token (some registry.next)) }

def updateMember (machine : Machine ω σ ν) (name : ν) (token : Token) (waker : ω) :
    Turn ω σ ν :=
  match machine.registries.get? name with
  | none => machine.idle
  | some registry =>
      let (refresh, registry) := registry.update token waker
      { machine := machine.storeRegistry name registry,
        trace := if refresh = .replaced then [.exchanged token waker] else [],
        control := .done (.found (refresh ≠ .absent)) }

def removeMember (machine : Machine ω σ ν) (name : ν) (token : Token) : Turn ω σ ν :=
  match machine.registries.get? name with
  | none => machine.idle
  | some registry =>
      { machine := machine.storeRegistry name (registry.remove token),
        control := .done (.found (registry.contains token)) }

/-- Wakes the next of the members that a registry released, or ends the call. -/
def continueReleaseAll (machine : Machine ω σ ν) (name : ν) (registry : Registry ω)
    (released : Nat) (remaining : List (Token × ω)) (choice : Nat) : Turn ω σ ν :=
  match pick? remaining choice with
  | some (entry, rest) =>
      { machine := machine.push (.releasingAll name registry released rest),
        trace := [.woken none entry.1 entry.2], control := .wake entry.2 }
  | none =>
      { machine := machine.storeRegistry name registry, control := .done (.released released) }

/-- Takes the registry out of its owner's hands. -/
def withoutRegistry (machine : Machine ω σ ν) (name : ν) : Machine ω σ ν :=
  { machine with registries := machine.registries.erase name }

/-- Wakes all members of a registry and leaves it empty. -/
def releaseAll (machine : Machine ω σ ν) (name : ν) (choice : Nat) : Turn ω σ ν :=
  match machine.registries.get? name with
  | none => machine.idle
  | some registry =>
      let turn := (machine.withoutRegistry name).continueReleaseAll name registry.emptied
        registry.size registry.entries choice
      { turn with trace := .releasingAll none registry.size :: turn.trace }

/-- Takes one member out of a registry and wakes it. -/
def releaseOne (machine : Machine ω σ ν) (name : ν) (choice : Nat) : Turn ω σ ν :=
  match machine.registries.get? name with
  | none => machine.idle
  | some registry =>
      match registry.takeOne? choice with
      | none => { machine, control := .done (.token none) }
      | some (entry, rest) =>
          { machine := (machine.withoutRegistry name).push (.releasingOne name rest entry.1),
            trace := [.releasingOne entry.1, .woken none entry.1 entry.2],
            control := .wake entry.2 }

/-- Releases one more member of a registry that is being drained, or ends the call. -/
def continueDrain (machine : Machine ω σ ν) (name : ν) (registry : Registry ω)
    (released : List Token) (choice : Nat) : Turn ω σ ν :=
  match registry.takeOne? choice with
  | none =>
      { machine := machine.storeRegistry name registry,
        control := .done (.drained released.reverse) }
  | some (entry, rest) =>
      { machine := machine.push (.draining name rest (entry.1 :: released)),
        trace := [.releasingOne entry.1, .woken none entry.1 entry.2], control := .wake entry.2 }

/-- Releases the members of a registry one by one until it is empty. -/
def drain (machine : Machine ω σ ν) (name : ν) (choice : Nat) : Turn ω σ ν :=
  match machine.registries.get? name with
  | none => machine.idle
  | some registry => (machine.withoutRegistry name).continueDrain name registry [] choice

/-! ## Calling and coming back -/

/-- Makes a call. The choice says which waiter is woken first where several are released. -/
def perform (machine : Machine ω σ ν) (choice : Nat) : Action ω σ ν → Turn ω σ ν
  | .makeEvent => machine.makeEvent
  | .setEvent event => machine.setEvent event choice
  | .makeWait name event hold => machine.makeWait name event hold
  | .poll name waker => machine.pollFuture name waker
  | .drop name => machine.dropFuture name
  | .race name signal => machine.raceFuture name signal
  | .wake waker kept => machine.wake waker kept
  | .makeRegistry name capacity? => machine.makeRegistry name capacity?
  | .dropRegistry name => machine.dropRegistry name
  | .add name waker => machine.addMember name waker
  | .update name token waker => machine.updateMember name token waker
  | .remove name token => machine.removeMember name token
  | .releaseAll name => machine.releaseAll name choice
  | .releaseOne name => machine.releaseOne name choice
  | .drain name => machine.drain name choice

/-- Goes on with the innermost call. If the callback broke off, so does the call: waiters that it
had still to wake are forgotten, and what it was working on goes back under its name. -/
def resume (machine : Machine ω σ ν) (response : Response σ) (choice : Nat) : Turn ω σ ν :=
  match machine.calls with
  | [] => machine.idle
  | call :: calls =>
      let caller := { machine with calls }
      match call, response with
      | .setting .., .panicked panic => { machine := caller, control := .panicked panic }
      | .setting event released remaining, _ =>
          caller.continueSet event released remaining choice
      | .releasingAll name registry _ _, .panicked panic
      | .releasingOne name registry _, .panicked panic
      | .draining name registry _, .panicked panic =>
          { machine := caller.storeRegistry name registry, control := .panicked panic }
      | .releasingAll name registry released remaining, _ =>
          caller.continueReleaseAll name registry released remaining choice
      | .releasingOne name registry token, _ =>
          { machine := caller.storeRegistry name registry,
            control := .done (.token (some token)) }
      | .draining name registry released, _ =>
          caller.continueDrain name registry released choice
      | .polling name holding waker, response =>
          caller.afterPoll name holding.event waker
            (holding.future.resume response caller.events)
      | .waking .., .panicked panic => { machine := caller, control := .panicked panic }
      | .waking .., _ => caller.idle

end Machine

end Latch
