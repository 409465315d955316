import Latch.Pool.Round

/-!
# Stages

A pool is driven in stages: it runs until no task can go on, or something is done to it from
outside. After each stage a snapshot tells how the events and the tasks stand and what happened
meanwhile.
-/

set_option autoImplicit false

namespace Latch.Pool

/-- Drops the tasks that are not over, and what they wait for. -/
def discard (pool : Pool) : Pool :=
  let ids := (List.range pool.tasks.length).map TaskId.mk
  let stopped := ids.foldl
    (fun current id =>
      match current.task? id with
      | some task =>
          if task.status = .pending then current.stop id task .discarded else current
      | none => current)
    pool
  { stopped with schedule := {} }

/-- What is done to a pool from outside. -/
inductive Stage where
  | stall
  | set (slot : Nat)
  | rearm (slot : Nat)
  | abort (task : Nat)
  | discard
  deriving DecidableEq, Repr

def enter (pool : Pool) : Stage → Pool
  | .stall => pool.stall
  | .set slot => pool.setSlot slot
  | .rearm slot => pool.rearm slot
  | .abort task => pool.abort ⟨task⟩
  | .discard => pool.discard

/-- How a pool stands: the events by slot, the tasks by number, and the messages of the last stage
in the order of their characters. -/
structure Snapshot where
  events : List EventState
  tasks : List (Status × List String)
  messages : List String

def snapshot (pool : Pool) : Snapshot where
  events := pool.slots.map pool.events.state
  tasks := pool.tasks.map fun task => (task.status, task.log)
  messages := (Occurrence.messages pool.trace).mergeSort fun first second =>
    decide (first ≤ second)

/-- Drives a pool through stages, and tells how it stands after each. -/
def drive (pool : Pool) : List Stage → List Snapshot
  | [] => []
  | stage :: rest =>
      let entered := { pool with trace := [] }.enter stage
      entered.snapshot :: entered.drive rest

/-- A pool with a number of unset events and a task for each of the programs. -/
def start (events : Nat) (programs : List (List Step)) : Pool :=
  programs.foldl spawn (make events)

namespace Status

/-- The word for a status. A task that was dropped with its pool stays pending for good. -/
def text : Status → String
  | pending | discarded => "pending"
  | done => "done"
  | aborted => "aborted"

end Status

end Latch.Pool
