import Latch.Pool.Schedule

/-!
# Pools

Tasks that take turns on one thread. A schedule holds the tasks that are to be polled, each at most
once; waking a task puts it at the end of the schedule's queue.
-/

set_option autoImplicit false

namespace Latch

open Pool in
/-- The events and the slots they stand in, the tasks by number, the schedule of tasks to be polled,
and the trace. -/
structure Pool where
  events : Events TaskId := {}
  slots : List EventId := []
  tasks : List Task := []
  schedule : Schedule := {}
  trace : List (Occurrence TaskId) := []

namespace Pool

/-- A pool with a number of unset events and without tasks. -/
def make : Nat → Pool
  | 0 => {}
  | count + 1 =>
      let pool := make count
      let (event, events) := pool.events.create
      { pool with events, slots := pool.slots ++ [event] }

def task? (pool : Pool) (id : TaskId) : Option Task := pool.tasks[id.number]?

def setTask (pool : Pool) (id : TaskId) (task : Task) : Pool :=
  { pool with tasks := pool.tasks.set id.number task }

/-- Takes over what became of the events, and what is told about it. -/
def record (pool : Pool) (events : Events TaskId) (trace : List (Occurrence TaskId)) : Pool :=
  { pool with events, trace := pool.trace ++ trace }

/-- Whether a task is there and not over. -/
def isPending (pool : Pool) (id : TaskId) : Bool :=
  match pool.task? id with
  | some task => task.status = .pending
  | none => false

/-- Queues a task, unless it is over or scheduled already. -/
def wake (pool : Pool) (id : TaskId) : Pool :=
  if pool.isPending id then { pool with schedule := pool.schedule.enqueue id } else pool

/-- Takes a task out of the schedule. -/
def unschedule (pool : Pool) (id : TaskId) : Pool :=
  { pool with schedule := pool.schedule.erase id }

/-- Adds a task, which is polled from the next round on. -/
def spawn (pool : Pool) (program : List Step) : Pool :=
  { pool with
    tasks := pool.tasks ++ [{ program }]
    schedule := pool.schedule.welcome ⟨pool.tasks.length⟩ }

/-- Lets the tasks that were added since the last round into the queue. -/
def enlist (pool : Pool) : Pool := { pool with schedule := pool.schedule.enlist }

/-- Marks a task to be aborted and wakes it. A task that is over stays as it is. -/
def abort (pool : Pool) (id : TaskId) : Pool :=
  match pool.task? id with
  | some task =>
      if task.status = .pending then (pool.setTask id { task with marked := true }).wake id
      else pool
  | none => pool

/-- Sets an event and wakes the tasks that wait for it, the longest waiting first. -/
def setEvent (pool : Pool) (id : EventId) : Pool :=
  match (pool.events.get id).trip with
  | (.ok (some registry), event) =>
      let tripped := pool.record (pool.events.put id event)
        (.releasingAll (some id) registry.size ::
          registry.entries.map fun entry => .woken (some id) entry.1 entry.2)
      let woken := registry.members.values.foldl wake tripped
      woken.record woken.events [.eventSet id registry.size]
  | (.ok none, _) => pool
  | (.error _, event) => pool.record (pool.events.put id event) []

/-- The event that stands in a slot. -/
def slot? (pool : Pool) (slot : Nat) : Option EventId := pool.slots[slot]?

/-- Sets the event in a slot. -/
def setSlot (pool : Pool) (slot : Nat) : Pool :=
  match pool.slot? slot with
  | some event => pool.setEvent event
  | none => pool

/-- Puts a new event into a slot and sets the old one afterwards. -/
def rearm (pool : Pool) (slot : Nat) : Pool :=
  match pool.slot? slot with
  | some old =>
      let (event, events) := pool.events.create
      { pool with events, slots := pool.slots.set slot event }.setEvent old
  | none => pool

/-- Drops a future and tells what came of it. -/
def dropFuture (pool : Pool) (future : Future Nat) : Pool :=
  let dropped := future.drop pool.events
  pool.record dropped.events dropped.trace

/-- Drops all that an await is made of. -/
def dropAwait (pool : Pool) (await : Await) : Pool := await.futures.foldl dropFuture pool

/-- Ends a task before it has finished: what it waits for is dropped. -/
def stop (pool : Pool) (id : TaskId) (task : Task) (status : Status) : Pool :=
  let dropped :=
    match task.await? with
    | some await => pool.dropAwait await
    | none => pool
  dropped.setTask id (task.ended status)

end Pool

end Latch
