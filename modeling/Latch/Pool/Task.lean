import Latch.Future
import Latch.Pool.Step

/-!
# Tasks

A task of a pool: the program that is left, what it is waiting for, and what it has written into its
log. A task's waker is its number.
-/

set_option autoImplicit false

namespace Latch.Pool

/-- Names a task. It serves as the task's waker, too. -/
structure TaskId where
  number : Nat
  deriving DecidableEq, Repr

instance : Waker TaskId where
  willWake first second := first = second

instance : LawfulWaker TaskId where
  refl _ := decide_eq_true rfl
  symm _ _ same := decide_eq_true (of_decide_eq_true same).symm
  trans _ _ _ same next := decide_eq_true ((of_decide_eq_true same).trans (of_decide_eq_true next))

/-- How a task stands. -/
inductive Status where
  | pending
  | done
  | aborted
  /-- It was dropped with its pool before it had finished. -/
  | discarded
  deriving DecidableEq, Repr

/-- What a task waits for. The number of an external signal says how often it still has to wake the
task before it fires. -/
inductive Await where
  | future (slot : Nat) (future : Future Nat)
  | select (first second : Wait)
  /-- The waits that are not over yet stand among places of those that are. A join that still gives
  way may let the other tasks run once. -/
  | join (waits : List (Option Wait)) (givesWay : Bool)
  | yielding (count : Nat)
  deriving Repr

/-- A task: what is left of its program, what it waits for, whether somebody wants it aborted. -/
structure Task where
  program : List Step
  await? : Option Await := none
  marked : Bool := false
  status : Status := .pending
  log : List String := []
  deriving Repr

/-- How often a future's signals still have to wake their task. -/
def delay : Future Nat → Nat
  | .plain _ | .ready | .never => 0
  | .external count => count
  | .race _ signal => delay signal

namespace Await

/-- A bound on how often an await still makes its task runnable by itself, and on its end. -/
def work : Await → Nat
  | future _ awaited => delay awaited + 1
  | select .. => 1
  | join _ givesWay => givesWay.toNat + 1
  | yielding count => count + 1

/-- The futures that an await is made of. -/
def futures : Await → List (Future Nat)
  | future _ awaited => [awaited]
  | select first second => [.plain first, .plain second]
  | join waits _ => waits.filterMap fun wait? => wait?.map .plain
  | yielding _ => []

/-- The waits that an await is made of. -/
def waits (await : Await) : List Wait := await.futures.flatMap Future.waits

end Await

namespace Task

/-- A bound on what is left to do of a task. -/
def work (task : Task) : Nat :=
  Step.programWork task.program + (task.await?.map Await.work).getD 0

/-- A task that is over, in one way or another. -/
def ended (task : Task) (status : Status) : Task :=
  { task with program := [], await? := none, status }

end Task

end Latch.Pool
