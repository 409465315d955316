import Latch.Wait

/-!
# Steps

The programs of a pool's tasks. Events stand in numbered slots, and a step that waits for a slot
waits for the event that stands there when the step begins. `Step.work` bounds what is left to do of
a step; every step and every poll that makes a task runnable again lowers it.
-/

set_option autoImplicit false

namespace Latch.Pool

/-- What a wait of a task is raced against. -/
inductive Rival where
  | ready
  | never
  /-- A wait for the event in another slot. -/
  | event (slot : Nat)
  /-- Wakes the task a number of times before it fires. -/
  | yields (count : Nat)
  deriving Repr

/-- A step of a task. -/
inductive Step where
  | wait (slot : Nat) (hold : Hold)
  | race (slot : Nat) (rival : Rival)
  /-- Waits until one of two events is set, and prefers the first. -/
  | select (first second : Nat)
  /-- Waits until all the events are set. -/
  | join (slots : List Nat)
  | set (slot : Nat)
  /-- Puts a new event into a slot and then sets the old one. -/
  | rearm (slot : Nat)
  | isSet (slot : Nat)
  | waiting (slot : Nat)
  | log (text : String)
  /-- Lets the other tasks run a number of times. -/
  | yield (count : Nat)
  | abort (task : Nat)
  | spawn (program : List Step)
  | loop (count : Nat) (body : List Step)
  deriving Repr

namespace Rival

/-- How often the task is woken before the rival fires. -/
def delay : Rival → Nat
  | ready | never | event _ => 0
  | yields count => count

end Rival

namespace Step

mutual

/-- A bound on what is left to do of a step. -/
def work : Step → Nat
  | wait .. | select .. => 2
  | join _ => 3
  | race _ rival => rival.delay + 2
  | yield count => count + 2
  | set _ | rearm _ | isSet _ | waiting _ | log _ | abort _ => 1
  | spawn program => programWork program + 1
  | loop count body => count * (programWork body + 1) + 1

/-- A bound on what is left to do of a program. -/
def programWork : List Step → Nat
  | [] => 0
  | step :: rest => step.work + programWork rest

end

theorem programWork_append (first second : List Step) :
    programWork (first ++ second) = programWork first + programWork second := by
  induction first with
  | nil => simp [programWork]
  | cons step rest ih => simp [programWork, ih, Nat.add_assoc]

end Step

end Latch.Pool
