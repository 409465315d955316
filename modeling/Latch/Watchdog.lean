import Latch.Panic

/-!
# Watchdogs

A watchdog runs a body on a worker of its own and gives up on it after a while. The worker sends
what the body returned and then lets go of the channel; the supervisor takes the message, or sees
that the channel was let go, or runs out of patience, and in the end waits for the worker to be
gone. The moves of the two may be interleaved in every way, and each is a step of its own here.
-/

set_option autoImplicit false

namespace Latch.Watchdog

variable {α : Type}

/-- What running a body comes to. -/
inductive Body (α : Type) where
  | returns (value : α)
  | panics (panic : Panic)
  /-- It never ends. -/
  | hangs
  deriving Repr

/-- How far the worker is. -/
inductive Worker (α : Type) where
  /-- The body runs. -/
  | running
  /-- The body returned, and its value was not sent yet. -/
  | sending (value : α)
  /-- The value was sent, or nobody wanted it any more. -/
  | leaving
  /-- The body panicked, and the worker holds the channel still. -/
  | unwinding (panic : Panic)
  /-- The worker has let go of the channel. It is about to be gone, by itself or by a panic. -/
  | ending (panic? : Option Panic)
  /-- The worker is gone. -/
  | gone (panic? : Option Panic)
  deriving Repr

/-- What a watchdog says in the end. -/
inductive Verdict (α : Type) where
  | returned (value : α)
  /-- The panic of the body goes on. -/
  | raised (panic : Panic)
  | timedOut
  /-- The worker sent a value and panicked nevertheless. -/
  | workerPanicked
  /-- The worker sent nothing and ended as if nothing was wrong. -/
  | workerSilent
  deriving Repr

/-- How far the supervisor is. -/
inductive Supervisor (α : Type) where
  /-- It waits for a message. -/
  | receiving
  /-- It has a message, or knows that none will come, and waits for the worker to be gone. -/
  | joining (message? : Option α)
  | done (verdict : Verdict α)
  deriving Repr

/-- A watched run. The channel holds at most one message. -/
structure State (α : Type) where
  body : Body α
  worker : Worker α := .running
  message? : Option α := none
  supervisor : Supervisor α := .receiving

/-- A move of the worker or of the supervisor. -/
inductive Move where
  /-- The body ends. -/
  | finish
  /-- The worker sends the value. -/
  | send
  /-- The worker lets go of the channel. -/
  | close
  /-- The worker is gone. -/
  | exit
  /-- The supervisor takes the message, or learns that the channel is empty and was let go. -/
  | receive
  /-- The supervisor's patience ends. -/
  | timeOut
  /-- The supervisor learns how the worker ended. -/
  | join
  deriving DecidableEq, Repr

namespace Worker

/-- Whether the worker has let go of the channel. -/
def hasClosed : Worker α → Bool
  | ending _ | gone _ => true
  | running | sending _ | leaving | unwinding _ => false

end Worker

namespace Supervisor

/-- Whether anybody may still take a message. -/
def isReceiving : Supervisor α → Bool
  | receiving => true
  | joining _ | done _ => false

end Supervisor

/-- What the supervisor says once the worker is gone. -/
def verdict (message? : Option α) (panic? : Option Panic) : Verdict α :=
  match message?, panic? with
  | some value, none => .returned value
  | some _, some _ => .workerPanicked
  | none, some panic => .raised panic
  | none, none => .workerSilent

namespace State

/-- The state after a move; nothing if the move cannot be made now. -/
def step? (state : State α) : Move → Option (State α)
  | .finish =>
      match state.worker, state.body with
      | .running, .returns value => some { state with worker := .sending value }
      | .running, .panics panic => some { state with worker := .unwinding panic }
      | _, _ => none
  | .send =>
      match state.worker with
      | .sending value =>
          some { state with
            worker := .leaving
            message? := if state.supervisor.isReceiving then some value else state.message? }
      | _ => none
  | .close =>
      match state.worker with
      | .leaving => some { state with worker := .ending none }
      | .unwinding panic => some { state with worker := .ending (some panic) }
      | _ => none
  | .exit =>
      match state.worker with
      | .ending panic? => some { state with worker := .gone panic? }
      | _ => none
  | .receive =>
      match state.supervisor, state.message? with
      | .receiving, some value =>
          some { state with message? := none, supervisor := .joining (some value) }
      | .receiving, none =>
          if state.worker.hasClosed then some { state with supervisor := .joining none } else none
      | _, _ => none
  | .timeOut =>
      match state.supervisor with
      | .receiving => some { state with supervisor := .done .timedOut }
      | _ => none
  | .join =>
      match state.supervisor, state.worker with
      | .joining message?, .gone panic? =>
          some { state with supervisor := .done (verdict message? panic?) }
      | _, _ => none

/-- Makes those of the moves that can be made when it is their turn. -/
def follow (state : State α) (moves : List Move) : State α :=
  moves.foldl (fun current move => (current.step? move).getD current) state

def verdict? (state : State α) : Option (Verdict α) :=
  match state.supervisor with
  | .done verdict => some verdict
  | .receiving | .joining _ => none

end State

/-- A schedule that leaves the body time to end; patience ends only if it does not. -/
def schedule : List Move := [.finish, .send, .close, .exit, .receive, .timeOut, .join]

/-- What a watchdog says about a body that gets the time it needs. -/
def watch (body : Body α) : Option (Verdict α) :=
  (({ body } : State α).follow schedule).verdict?

/-- Running a body without a watchdog: nothing is said about one that never ends. -/
def direct : Body α → Option (Verdict α)
  | .returns value => some (.returned value)
  | .panics panic => some (.raised panic)
  | .hangs => none

/-- Whether the watchdog is switched off, so that the body runs on the caller's own thread. The
variable has to hold exactly this one character. -/
def isOff (mutationTesting? : Option String) : Bool := mutationTesting? = some "1"

/-- Runs a body under a watchdog, or without one if it is switched off. -/
def supervise (mutationTesting? : Option String) (body : Body α) : Option (Verdict α) :=
  if isOff mutationTesting? then direct body else watch body

namespace Verdict

/-- How long the supervisor's patience lasts. It is 60 seconds for code that is interpreted by Miri,
which is left out here. -/
def patience : String := "10s"

/-- The value that a watchdog hands on, or what its caller is told instead. -/
def result : Verdict α → Except String α
  | returned value => .ok value
  | raised panic => .error panic.message
  | timedOut => .error ("test exceeded " ++ patience ++ " timeout - likely a lost wake-up")
  | workerPanicked => .error "test thread should not panic"
  | workerSilent => .error "test thread disconnected unexpectedly"

end Verdict

end Latch.Watchdog
