import Latch.Pool.Work

/-!
# Rounds

A pool runs in rounds until it stands still. In a round the queued tasks are polled in their order.
The round ends once a task is over, once two tasks were woken while they were polled themselves, or
once as many tasks were polled as were not over when the round began. Then the newcomers join the
queue, and the next round begins.
-/

set_option autoImplicit false

namespace Latch.Pool

/-- How far a round has come. -/
structure Round where
  /-- How many tasks were not over when the round began. -/
  size : Nat
  /-- How many tasks were polled and have to wait. -/
  polled : Nat := 0
  /-- How many of those were woken while they were polled. -/
  yielded : Nat := 0
  deriving Repr

/-- The round that begins now. -/
def round (pool : Pool) : Round where
  size := (pool.tasks.filter fun task => task.status = .pending).length

namespace Round

/-- Whether the round ends although tasks may still be queued. -/
def isOver (round : Round) : Bool := 2 ≤ round.yielded || round.polled = round.size

/-- How a round goes on after the poll of a task that takes the pool from one state to another. A
task that was over already does not count, and one that is over now ends the round. -/
def next? (round : Round) (id : TaskId) (before after : Pool) : Option Round :=
  if before.isPending id then
    if after.isPending id then
      let next :=
        { round with
          polled := round.polled + 1
          yielded := round.yielded + (after.schedule.contains id).toNat }
      if next.isOver then none else some next
    else none
  else some round

end Round

/-- Polls the queued tasks, round after round, until nobody is scheduled any more. -/
def runFrom (pool : Pool) (round : Round) : Pool :=
  match _ : pool.schedule.queue with
  | id :: _ =>
      let polled := pool.poll id
      match round.next? id pool polled with
      | some round => runFrom polled round
      | none => runFrom polled.enlist polled.round
  | [] =>
      match _ : pool.schedule.newcomers with
      | [] => pool
      | _ :: _ => runFrom pool.enlist pool.round
termination_by (pool.work, pool.schedule.size)
decreasing_by
  · have scheduled : pool.schedule.contains id := by
      simp [Schedule.contains, ‹pool.schedule.queue = id :: _›]
    exact (poll_nearer scheduled).lex
  · have scheduled : pool.schedule.contains id := by
      simp [Schedule.contains, ‹pool.schedule.queue = id :: _›]
    exact (poll_nearer scheduled).enlist.lex
  · exact (enlist_nearer ‹_›).lex

/-- Lets the tasks run until none can go on. -/
def stall (pool : Pool) : Pool := runFrom pool.enlist pool.round

end Latch.Pool
