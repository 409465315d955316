import Latch.Scenario.Request

/-!
# Sessions

A scenario in progress. The scripts that are running stand on a stack, the outermost list of ops at
the bottom; each has an op in progress while the callbacks of that op run above it. `advance` does
one thing at a time, so that a session is a sequence of visible states, and `run` advances it as
often as it is told to.
-/

set_option autoImplicit false

namespace Latch.Scenario

/-- Who runs a list of ops. -/
inductive Runner where
  /-- The scenario itself. -/
  | scenario
  /-- The script of a waker that was woken. -/
  | waker (name : String)
  /-- The script of a signal that was polled, and what the signal then answers. -/
  | signal (response : Response ExternalSignal)

namespace Runner

/-- The name under which a script is reported. -/
def name : Runner → String
  | scenario => ""
  | waker name => name
  | signal _ => "(signal)"

/-- What a script that ended leaves to be told to the call that it interrupted. -/
def response : Runner → Response ExternalSignal
  | scenario | waker _ => .ready
  | signal response => response

end Runner

/-- An op in progress. A drain tells apart what happened while each member was woken. -/
structure Activity where
  purpose : Purpose
  effects : Effects := {}
  /-- The member that a drain is waking. -/
  member? : Option Token := none
  /-- The members that a drain has woken, last first. -/
  parts : List (Token × Effects) := []

namespace Activity

/-- Puts the member that was woken last to the others. -/
def closePart (activity : Activity) : Activity :=
  match activity.member? with
  | none => activity
  | some token =>
      { activity with
        effects := {}, member? := none, parts := (token, activity.effects) :: activity.parts }

/-- How a token is written while the op runs. -/
def tokenText (activity : Activity) (token : Token) : String :=
  if activity.purpose.isUndetermined then "WaitToken(?)" else Occurrence.tokenText token

/-- Notes an occurrence. A drain starts a new part with each member. -/
def note (activity : Activity) (occurrence : Occurrence Participant) : Activity :=
  let current :=
    match activity.purpose, occurrence with
    | .drained .., .releasingOne token => { activity.closePart with member? := some token }
    | _, _ => activity
  match occurrence.message? activity.tokenText with
  | none => current
  | some message =>
      { current with effects := { current.effects with log := current.effects.log ++ [message] } }

/-- Notes that a probe was woken. -/
def noteWoken (activity : Activity) (name : String) : Activity :=
  { activity with
    effects := { activity.effects with woken := activity.effects.woken ++ [name] } }

/-- Notes what a script did, unless it did nothing. -/
def noteScript (activity : Activity) (name : String) (reports : List Report) : Activity :=
  if reports.isEmpty then activity
  else
    { activity with
      effects := { activity.effects with nested := activity.effects.nested ++ [(name, reports)] } }

/-- The reports of a drain's members by token. -/
def partReports (activity : Activity) : List Report :=
  let parts := activity.closePart.parts.reverse.mergeSort fun first second =>
    decide (first.1.number ≤ second.1.number)
  parts.map fun part => part.2.report (.member part.1)

/-- The report of the op. A drain keeps what happened with its members. -/
def report (activity : Activity) (outcome : Outcome Report) : Report :=
  match activity.purpose with
  | .drained .. => ({} : Effects).report outcome
  | purpose =>
      if purpose.isUndetermined then activity.effects.anonymousReport outcome
      else activity.effects.report outcome

end Activity

/-- A list of ops that is being run: what is left of it, the reports so far, last first, and the op
in progress. -/
structure Frame where
  runner : Runner
  remaining : List Op
  reports : List Report := []
  activity? : Option Activity := none

namespace Frame

/-- Ends the op in progress with a report. -/
def finish (frame : Frame) (report : Report) : Frame :=
  { frame with reports := report :: frame.reports, activity? := none }

def update (frame : Frame) (change : Activity → Activity) : Frame :=
  { frame with activity? := frame.activity?.map change }

end Frame

/-- A scenario in progress: its world, the running scripts, innermost first, and what the library
has just said, if nobody has dealt with it yet. -/
structure Session where
  world : World := {}
  frame : Frame
  callers : List Frame := []
  control? : Option (Control Participant ExternalSignal) := none

namespace Session

def start (ops : List Op) : Session := { frame := { runner := .scenario, remaining := ops } }

def isFinished (session : Session) : Bool :=
  session.control?.isNone && session.frame.remaining.isEmpty && session.callers.isEmpty

/-- Takes over the state that a step of the library led to. -/
def enter (session : Session) (turn : Turn Participant ExternalSignal String) : Session :=
  let counted := { session.world with machine := turn.machine }.countClones turn.trace
  { session with
    world := counted
    frame := session.frame.update fun activity => turn.trace.foldl Activity.note activity
    control? := some turn.control }

/-- Tells the library how a callback came back. -/
def comeBack (session : Session) (response : Response ExternalSignal) : Session :=
  session.enter (session.world.machine.resume response 0)

/-- Starts a script on top of the op in progress. -/
def runScript (session : Session) (runner : Runner) (script : List Op) : Session :=
  { session with
    frame := { runner, remaining := script }
    callers := session.frame :: session.callers
    control? := none }

/-- Ends the innermost script and gives its reports to the op that it interrupted. -/
def endScript (session : Session) (caller : Frame) (callers : List Frame)
    (response : Response ExternalSignal) : Session :=
  let reports := session.frame.reports.reverse
  { session with
    frame := caller.update fun activity => activity.noteScript session.frame.runner.name reports
    callers }.comeBack response

/-- Wakes a waker: a probe is noted and runs its script, the others come back at once. -/
def wake (session : Session) (participant : Participant) : Session :=
  let counted := { session with world := session.world.countWake participant }
  match participant.role with
  | .probe script =>
      { counted with
        frame := counted.frame.update fun activity => activity.noteWoken participant.name
      }.runScript (.waker participant.name) script
  | .counting | .noop => counted.comeBack .ready

/-- Polls a signal: a script runs first, the others answer at once. -/
def ask (session : Session) : ExternalSignal → Session
  | .flag id =>
      session.comeBack (if session.world.isRaised id then .ready else .pending (.flag id))
  | .countdown 0 => session.comeBack .ready
  | .countdown (count + 1) => session.comeBack (.pending (.countdown count))
  | .script ops fires =>
      session.runScript
        (.signal (if fires then .ready else .pending (.script ops fires))) ops

/-- Ends the op in progress with a reply. -/
def reply (session : Session) (reply : Reply) : Session :=
  match session.frame.activity? with
  | none => { session with control? := none }
  | some activity =>
      let (world, outcome) := session.world.conclude activity.purpose reply activity.partReports
      { session with
        world, frame := session.frame.finish (activity.report outcome), control? := none }

/-- Breaks off the op in progress. A script ends with that, and breaks off the call that it
interrupted. -/
def breakOff (session : Session) (panic : Panic) : Session :=
  let broken :=
    match session.frame.activity? with
    | none => session
    | some activity =>
        { session with
          world := session.world.abandon activity.purpose
          frame := session.frame.finish (activity.report (.panicked panic)) }
  match broken.callers with
  | [] => { broken with control? := none }
  | caller :: callers => broken.endScript caller callers (.panicked panic)

/-- Begins the next op. -/
def begin (session : Session) (op : Op) (rest : List Op) : Session :=
  let begun := { session with frame := { session.frame with remaining := rest } }
  match session.world.request op with
  | .error refusal =>
      { begun with frame := begun.frame.finish (({} : Effects).report refusal.outcome) }
  | .ok (.answer world outcome) =>
      let answered := { begun with
        world, frame := begun.frame.finish (({} : Effects).report outcome) }
      match outcome with
      | .panicked panic => answered.breakOff panic
      | _ => answered
  | .ok (.call world action purpose) =>
      { begun with
        world, frame := { begun.frame with activity? := some { purpose } }
      }.enter (world.machine.perform 0 action)

/-- Does the next thing that is to be done. -/
def advance (session : Session) : Session :=
  match session.control? with
  | some (.wake participant) => session.wake participant
  | some (.ask signal) => session.ask signal
  | some (.done answer) => session.reply answer
  | some (.panicked panic) => session.breakOff panic
  | none =>
      match session.frame.remaining, session.callers with
      | op :: rest, _ => session.begin op rest
      | [], [] => session
      | [], caller :: callers => session.endScript caller callers session.frame.runner.response

/-- Advances a session until it is finished, at most a number of times; nothing if it is not
finished by then. -/
def run : Nat → Session → Option Session
  | 0, session => if session.isFinished then some session else none
  | limit + 1, session => if session.isFinished then some session else run limit session.advance

end Session

/-- How often a session is advanced before it is given up. -/
def stepLimit : Nat := 10000000

/-- Runs a scenario from an empty world: a report for each op, and the world in the end. Nothing if
the scripts keep calling each other. -/
def run (ops : List Op) : Option (List Report × World) :=
  ((Session.start ops).run stepLimit).map fun session =>
    (session.frame.reports.reverse, session.world)

end Latch.Scenario
