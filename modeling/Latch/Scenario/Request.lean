import Latch.Scenario.World

/-!
# Requests

What an op asks for: an answer that the world has ready, or a call of the library together with what
its reply is to be turned into. The fields of an op are checked from left to right, each one found
good and its object looked up before the next one is looked at.
-/

set_option autoImplicit false

namespace Latch.Scenario

/-- What the reply of a call in progress is to be turned into. -/
inductive Purpose where
  | nothing
  | eventState (event : EventId)
  /-- A new event gets a name. -/
  | newEvent (name : String)
  | newWait (name : String) (event : EventId)
  | polled (name : String)
  | newRegistry (name : String)
  | member (registry : String) (save : Option String)
  | found (registry : String)
  | releasedAll (registry : String) (undetermined : Bool)
  /-- The registry `before` is the one from which a member is released. -/
  | releasedOne (registry : String) (undetermined : Bool) (before : Registry Participant)
  | drained (registry : String) (undetermined : Bool)

namespace Purpose

/-- Whether it is open whom the call releases. -/
def isUndetermined : Purpose → Bool
  | releasedAll _ undetermined | releasedOne _ undetermined _ => undetermined
  | _ => false

/-- The registry whose members the call releases, and whether it is open which are left. -/
def released? : Purpose → Option (String × Bool)
  | releasedAll registry undetermined | releasedOne registry undetermined _
  | drained registry undetermined => some (registry, undetermined)
  | _ => none

end Purpose

/-- What an op asks for. -/
inductive Request where
  | answer (world : World) (outcome : Outcome Report)
  | call (world : World) (action : Action Participant ExternalSignal String)
      (purpose : Purpose)

/-- How a race's answer and a plain wait's answer are written. -/
def answerText (isRace : Bool) : Answer → String
  | .pending => "pending"
  | .completed => if isRace then "ok" else "ready"
  | .cancelled => "err: " ++ Answer.cancelledText

namespace World

/-- The state of the future under a name, after a poll with the given answer or without one. -/
def futureOutcome (world : World) (name : String) (answer? : Option Answer) (event : EventState) :
    Outcome Report :=
  match world.machine.futures.get? name with
  | none => .unknownObject
  | some holding =>
      .future (answer?.map (answerText holding.future.isRace)) holding.future.isRegistered?
        holding.future.isTerminated event

/-- The description of an object. -/
def describe (world : World) (name : String) (subject : Subject) : Except Refusal Document := do
  match subject with
  | .event =>
      let id ← object world.events (some name)
      return (world.machine.events.get id).document
  | .wait =>
      let holding ← object world.machine.futures (some name)
      return holding.future.document world.machine.events
  | .registry =>
      let registry ← object world.machine.registries (some name)
      return registry.document
  | .token =>
      let token ← object world.tokens (some name)
      return token.document
  | .statistics =>
      let statistics ← object world.statistics (some name)
      return statistics.document
  | .waker =>
      let participant ← object world.wakers (some name)
      match participant.role with
      | .counting => return countingWakerDocument (world.countersOf participant).wakes
      | .probe _ | .noop => throw .wrongKind

/-- Whether the release of one member may take any of several, or it is open already which members
are there. -/
def undeterminedRelease (world : World) (name : String) (registry : Registry Participant) : Bool :=
  world.isUndetermined name || decide (2 ≤ registry.size)

/-- What an op asks for in a world. -/
def request (world : World) : Op → Except Refusal Request
  | .malformed => throw .badInput
  | .waker id kind script => do
      let name ← require id
      let kind ← require kind
      let role :=
        match kind with
        | .probe => Role.probe script
        | .counting => Role.counting
        | .noop => Role.noop
      return .answer (world.bindWaker name role) .nothing
  | .wakes waker => do
      let participant ← object world.wakers waker
      return .answer world (.tally (world.tally participant))
  | .wake waker kept => do
      let participant ← object world.wakers waker
      let kept ← require kept
      return .call world (.wake participant kept) .nothing
  | .willWake first second => do
      let first ← object world.wakers first
      let second ← object world.wakers second
      return .answer world (.truth (willWake first second))
  | .event id => do
      let name ← require id
      return .call world .makeEvent (.newEvent name)
  | .isSet event => do
      let id ← object world.events event
      return .answer world (.truth (world.machine.events.get id).isSet)
  | .set event => do
      let id ← object world.events event
      return .call world (.setEvent id) (.eventState id)
  | .statistics event save => do
      let id ← object world.events event
      match (world.machine.events.get id).statistics with
      | .error panic => return .answer world (.panicked panic)
      | .ok statistics =>
          let kept :=
            match save with
            | none => world
            | some name => { world with statistics := world.statistics.insert name statistics }
          return .answer kept (.number statistics.tasksWaiting)
  | .savedStatistics statistics => do
      let statistics ← object world.statistics statistics
      return .answer world (.number statistics.tasksWaiting)
  | .equalStatistics first second => do
      let first ← object world.statistics first
      let second ← object world.statistics second
      return .answer world (.truth (first = second))
  | .handles event => do
      let id ← object world.events event
      return .answer world (.number (world.machine.events.get id).handles)
  | .wait id event hold => do
      let name ← require id
      let event ← object world.events event
      let hold ← require hold
      return .call world (.makeWait name event hold) (.newWait name event)
  | .poll waker wait => do
      let participant ← object world.wakers waker
      let (name, _) ← named world.machine.futures wait
      return .call world (.poll name participant) (.polled name)
  | .query wait => do
      let (name, holding) ← named world.machine.futures wait
      return .answer world (world.futureOutcome name none (world.eventState holding.event))
  | .drop wait => do
      let (name, holding) ← named world.machine.futures wait
      return .call world (.drop name) (.eventState holding.event)
  | .race wait signal => do
      let (name, holding) ← named world.machine.futures wait
      if holding.future.isRace then throw .wrongKind
      let form ← require signal
      if (Machine.takeSignal? (world.machine.futures.erase name) form.request).isNone then
        throw .unknownObject
      return .call world (.race name form.request) (.eventState holding.event)
  | .fire flag => do
      let name ← require flag
      return .answer (world.raise name) .nothing
  | .registry id capacity => do
      let name ← require id
      let capacity? ← require capacity
      return .call world (.makeRegistry name capacity?) (.newRegistry name)
  | .add waker registry save => do
      let participant ← object world.wakers waker
      let (name, _) ← named world.machine.registries registry
      return .call world (.add name participant) (.member name save)
  | .update token waker registry => do
      let token ← object world.tokens token
      let participant ← object world.wakers waker
      let (name, _) ← named world.machine.registries registry
      return .call world (.update name token participant) (.found name)
  | .remove token registry => do
      let token ← object world.tokens token
      let (name, _) ← named world.machine.registries registry
      return .call world (.remove name token) (.found name)
  | .contains token registry => do
      let token ← object world.tokens token
      let (name, registry) ← named world.machine.registries registry
      return .answer world (.returned (.truth (registry.contains token)) (world.registryState name))
  | .length registry => do
      let (name, _) ← named world.machine.registries registry
      return .answer world (.returned .nothing (world.registryState name))
  | .releaseAll registry => do
      let (name, _) ← named world.machine.registries registry
      return .call world (.releaseAll name) (.releasedAll name (world.isUndetermined name))
  | .releaseOne registry => do
      let (name, registry) ← named world.machine.registries registry
      return .call world (.releaseOne name)
        (.releasedOne name (world.undeterminedRelease name registry) registry)
  | .drain registry => do
      let (name, _) ← named world.machine.registries registry
      return .call world (.drain name) (.drained name (world.isUndetermined name))
  | .dropRegistry registry => do
      let (name, _) ← named world.machine.registries registry
      return .call world (.dropRegistry name) .nothing
  | .equalTokens first second => do
      let first ← object world.tokens first
      let second ← object world.tokens second
      return .answer world (.truth (first = second))
  | .describe id subject spread => do
      let name ← require id
      let subject ← require subject
      let document ← world.describe name subject
      return .answer world (.text (document.render spread))
  | .cancelled =>
      return .answer world (.cancelled Answer.cancelledText (cancelledDocument.render false) true)
  | .panic message => do
      let text ← require message
      return .answer world (.panicked (.raised text))

/-- What a registry answers about a released member. -/
def returnedMember (world : World) (name : String) (undetermined : Bool)
    (before : Registry Participant) : Option Token → Returned Report
  | none => .nothing
  | some token =>
      if undetermined then
        .someMember (before.contains token)
          (match world.machine.registries.get? name with
            | some registry => !registry.contains token
            | none => true)
      else .token token

/-- What the reply of a call is turned into, and what is kept of it. The parts are those of a
drain. -/
def conclude (world : World) (purpose : Purpose) (reply : Reply) (parts : List Report) :
    World × Outcome Report :=
  match purpose, reply with
  | .eventState event, _ => (world, .event (world.eventState event))
  | .newEvent name, .event id =>
      let bound := { world with events := world.events.insert name id }
      (bound, .event (bound.eventState id))
  | .newWait name event, _ =>
      (world, .waitMade
        ((world.machine.futures.get? name).bind (·.future.isRegistered?))
        (world.eventState event))
  | .polled name, .polled answer event =>
      (world, world.futureOutcome name (some answer) event)
  | .newRegistry name, _ =>
      (world.noteUndetermined name false, .registry (world.registryState name))
  | .member name save, .token (some token) =>
      let kept :=
        match save with
        | none => world
        | some key => { world with tokens := world.tokens.insert key token }
      (kept, .returned (.token token) (kept.registryState name))
  | .found name, .found present =>
      let noted := world.noteUndetermined name (world.isUndetermined name)
      (noted, .returned (.truth present) (noted.registryState name))
  | .releasedAll name undetermined, .released count =>
      let noted := world.noteUndetermined name undetermined
      (noted, .returned (.count count) (noted.registryState name))
  | .releasedOne name undetermined before, .token token? =>
      let noted := world.noteUndetermined name undetermined
      (noted, .returned (noted.returnedMember name undetermined before token?)
        (noted.registryState name))
  | .drained name undetermined, .drained _ =>
      let noted := world.noteUndetermined name undetermined
      (noted, .returned (.drained parts) (noted.registryState name))
  | _, _ => (world, .nothing)

/-- What is kept of a call that broke off. -/
def abandon (world : World) (purpose : Purpose) : World :=
  match purpose.released? with
  | none => world
  | some (name, undetermined) => world.noteUndetermined name undetermined

end World

end Latch.Scenario
