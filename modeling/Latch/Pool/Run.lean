import Latch.Pool

/-!
# Running tasks

Polling a task runs its program until it has to wait or is over. What a step begins and what the
poll of an await comes to are functions of their own, so that the work that is left can be followed
through them.
-/

set_option autoImplicit false

namespace Latch.Pool

/-! ## Awaits -/

/-- What the poll of an await comes to. -/
inductive Polled where
  | pending (await : Await)
  | ready (log : List String)

/-- What a task writes into its log when a future that it waited for in a slot has answered. -/
def note (slot : Nat) : Future Nat → Answer → String
  | .race .., .completed => "ok " ++ toString slot
  | .race .., _ => toString slot ++ ": " ++ Answer.cancelledText
  | .plain _, _ | .ready, _ | .never, _ | .external _, _ => "waited " ++ toString slot

/-- What the poll of a single future comes to: it is dropped once it has answered. -/
def answered (pool : Pool) (slot : Nat) (polled : Future.Polled Nat TaskId) : Pool × Polled :=
  let recorded := pool.record polled.events polled.trace
  match polled.progress with
  | .answered .pending | .asks _ | .panicked _ =>
      (recorded, .pending (.future slot polled.future))
  | .answered answer =>
      (recorded.dropFuture polled.future, .ready [note slot polled.future answer])

/-- Polls a future on a task's behalf. A signal that has still to wake the task does so and is
pending. -/
def pollFuture (pool : Pool) (id : TaskId) (slot : Nat) (future : Future Nat) : Pool × Polled :=
  let polled := future.poll id pool.events
  match polled.progress with
  | .asks 0 =>
      let recorded := pool.record polled.events polled.trace
      recorded.answered slot (polled.future.resume .ready recorded.events)
  | .asks (count + 1) =>
      let woken := (pool.record polled.events polled.trace).wake id
      woken.answered slot (polled.future.resume (.pending count) woken.events)
  | .answered _ | .panicked _ => pool.answered slot polled

/-- Polls a wait on a task's behalf: whether its event is set, and the wait afterwards. -/
def pollWait (pool : Pool) (id : TaskId) (wait : Wait) : Pool × Bool × Wait :=
  let polled := wait.poll id pool.events
  (pool.record polled.events polled.trace, polled.outcome matches .ok true, polled.wait)

/-- Polls those waits that are not over yet, from first to last. -/
def pollAll (pool : Pool) (id : TaskId) : List (Option Wait) → Pool × List (Option Wait)
  | [] => (pool, [])
  | none :: rest =>
      let (pool, rest) := pollAll pool id rest
      (pool, none :: rest)
  | some wait :: rest =>
      let (pool, isSet, wait) := pool.pollWait id wait
      if isSet then
        let (pool, rest) := pollAll (pool.dropFuture (.plain wait)) id rest
        (pool, none :: rest)
      else
        let (pool, rest) := pollAll pool id rest
        (pool, some wait :: rest)

/-- Whether the waits that are over stand before all those that are not. -/
def overFirst (waits : List (Option Wait)) : Bool :=
  (waits.dropWhile Option.isNone).all Option.isSome

/-- Polls what a task waits for. A join that gives way wakes its own task at its first poll, if
this found the waits that are over before all those that are not. -/
def pollAwait (pool : Pool) (id : TaskId) : Await → Pool × Polled
  | .future slot awaited => pool.pollFuture id slot awaited
  | .select first second =>
      let (polled, isFirst, first) := pool.pollWait id first
      if isFirst then (polled.dropAwait (.select first second), .ready ["select left"])
      else
        let (polled, isSecond, second) := polled.pollWait id second
        if isSecond then (polled.dropAwait (.select first second), .ready ["select right"])
        else (polled, .pending (.select first second))
  | .join waits givesWay =>
      let (polled, waits) := pool.pollAll id waits
      if waits.all Option.isNone then
        (polled, .ready ["joined " ++ toString waits.length])
      else if givesWay && overFirst waits then (polled.wake id, .pending (.join waits false))
      else (polled, .pending (.join waits false))
  | .yielding 0 => (pool, .ready [])
  | .yielding (count + 1) => (pool.wake id, .pending (.yielding count))

/-! ## Steps -/

/-- What beginning a step comes to: what the task has to do first now, and what it waits for. -/
structure Begun where
  pool : Pool
  program : List Step := []
  await? : Option Await := none
  log : List String := []

/-- Makes a wait for the event in a slot. -/
def makeWait? (pool : Pool) (slot : Nat) (hold : Hold) : Option (Pool × Wait) :=
  (pool.slot? slot).map fun event =>
    let (wait, events) := Wait.make pool.events event hold
    ({ pool with events }, wait)

/-- Makes the signal that a rival stands for. -/
def makeSignal? (pool : Pool) : Rival → Option (Pool × Future Nat)
  | .ready => some (pool, .ready)
  | .never => some (pool, .never)
  | .event slot => (pool.makeWait? slot .owned).map fun made => (made.1, .plain made.2)
  | .yields count => some (pool, .external count)

/-- Makes a wait for each of the slots. -/
def makeWaits? (pool : Pool) : List Nat → Option (Pool × List (Option Wait))
  | [] => some (pool, [])
  | slot :: rest =>
      match pool.makeWait? slot .owned with
      | none => none
      | some (made, wait) =>
          (made.makeWaits? rest).map fun result => (result.1, some wait :: result.2)

/-- How many waits a join may have without giving way. -/
def joinLimit : Nat := 30

/-- What a step waits for; nothing if it names a slot that there is not. -/
def makeAwait? (pool : Pool) : Step → Option (Pool × Await)
  | .wait slot hold =>
      (pool.makeWait? slot hold).map fun made => (made.1, .future slot (.plain made.2))
  | .race slot rival =>
      match pool.makeWait? slot .owned with
      | none => none
      | some (made, wait) =>
          (made.makeSignal? rival).map fun result =>
            (result.1, .future slot (.race (some wait) result.2))
  | .select first second =>
      match pool.makeWait? first .owned with
      | none => none
      | some (made, left) =>
          (made.makeWait? second .owned).map fun result => (result.1, .select left result.2)
  | .join slots =>
      (pool.makeWaits? slots).map fun made =>
        (made.1, .join made.2 (decide (joinLimit < slots.length)))
  | .yield count => some (pool, .yielding count)
  | _ => none

/-- Begins a step. A step that names a slot that there is not does nothing. -/
def begin (pool : Pool) : Step → Begun
  | .set slot => { pool := pool.setSlot slot }
  | .rearm slot => { pool := pool.rearm slot }
  | .isSet slot =>
      match pool.slot? slot with
      | some event =>
          { pool, log := ["is_set " ++ toString (pool.events.get event).isSet] }
      | none => { pool }
  | .waiting slot =>
      match pool.slot? slot with
      | some event =>
          { pool, log := ["waiting " ++ toString (pool.events.get event).registry.size] }
      | none => { pool }
  | .log text => { pool, log := [text] }
  | .abort task => { pool := pool.abort ⟨task⟩ }
  | .spawn program => { pool := pool.spawn program }
  | .loop 0 _ => { pool }
  | .loop (count + 1) body => { pool, program := body ++ [.loop count body] }
  | step =>
      match pool.makeAwait? step with
      | some (made, await) => { pool := made, await? := some await }
      | none => { pool }

/-- What is left to do after a step has begun. -/
def Begun.work (begun : Begun) : Nat :=
  Step.programWork begun.program + (begun.await?.map Await.work).getD 0

theorem makeAwait?_work {pool made : Pool} {step : Step} {await : Await}
    (result : pool.makeAwait? step = some (made, await)) : await.work < step.work := by
  cases step with
  | wait slot hold =>
      simp only [makeAwait?, Option.map_eq_some_iff, Prod.mk.injEq] at result
      obtain ⟨_, _, _, rfl⟩ := result
      simp [Await.work, Step.work, delay]
  | race slot rival =>
      simp only [makeAwait?] at result
      split at result
      · cases result
      · simp only [Option.map_eq_some_iff, Prod.mk.injEq] at result
        obtain ⟨signal, signalMade, _, rfl⟩ := result
        have sameDelay : delay signal.2 = rival.delay := by
          cases rival <;>
            simp only [makeSignal?, Option.map_eq_some_iff, Option.some.injEq] at signalMade
          · subst signalMade; rfl
          · subst signalMade; rfl
          · obtain ⟨_, _, rfl⟩ := signalMade; rfl
          · subst signalMade; rfl
        simp [Await.work, Step.work, delay, sameDelay]
  | select first second =>
      simp only [makeAwait?] at result
      split at result
      · cases result
      · simp only [Option.map_eq_some_iff, Prod.mk.injEq] at result
        obtain ⟨_, _, _, rfl⟩ := result
        simp [Await.work, Step.work]
  | join slots =>
      simp only [makeAwait?, Option.map_eq_some_iff, Prod.mk.injEq] at result
      obtain ⟨_, _, _, rfl⟩ := result
      have bit := Bool.toNat_le (decide (joinLimit < slots.length))
      simp only [Await.work, Step.work]
      omega
  | yield count =>
      simp only [makeAwait?, Option.some.injEq, Prod.mk.injEq] at result
      obtain ⟨_, rfl⟩ := result
      simp [Await.work, Step.work]
  | set | rearm | isSet | waiting | log | abort | spawn | loop => cases result

theorem Step.work_pos (step : Step) : 0 < step.work := by
  cases step <;> simp [Step.work]

/-- Beginning a step leaves less to do than the step was. -/
theorem begin_work_lt (pool : Pool) (step : Step) : (pool.begin step).work < step.work := by
  have positive := step.work_pos
  unfold begin
  split
  any_goals
    first
      | simpa [Begun.work, Step.programWork] using positive
      | split <;> simpa [Begun.work, Step.programWork] using positive
  · simp only [Begun.work, Step.programWork_append, Step.programWork, Step.work, Option.map_none,
      Option.getD_none, Nat.add_zero, Nat.succ_mul]
    omega
  · split
    · next made =>
        simpa [Begun.work, Step.programWork] using makeAwait?_work made
    · simpa [Begun.work, Step.programWork] using positive

/-! ## Tasks -/

/-- Runs a task until it has to wait or is over. -/
def run (pool : Pool) (id : TaskId) (task : Task) : Pool × Task :=
  match _ : task.await? with
  | some await =>
      match pool.pollAwait id await with
      | (polled, .pending await) => (polled, { task with await? := some await })
      | (polled, .ready log) => run polled id { task with await? := none, log := task.log ++ log }
  | none =>
      match _ : task.program with
      | [] => (pool, task.ended .done)
      | step :: rest =>
          let begun := pool.begin step
          run begun.pool id
            { task with
              program := begun.program ++ rest
              await? := begun.await?
              log := task.log ++ begun.log }
termination_by task.work
decreasing_by
  · have positive : 0 < await.work := by cases await <;> simp [Await.work]
    simpa [Task.work, ‹task.await? = some await›] using positive
  · have lower := begin_work_lt pool step
    simp only [Begun.work] at lower
    simp only [Task.work, ‹task.await? = none›, ‹task.program = step :: rest›,
      Step.programWork_append, Step.programWork, Option.map_none, Option.getD_none]
    omega

/-- Polls a task: it is taken out of the schedule, and ended if somebody wants it aborted, before it
runs or after it has come to wait. -/
def poll (pool : Pool) (id : TaskId) : Pool :=
  let taken := pool.unschedule id
  match taken.task? id with
  | none => taken
  | some task =>
      match task.status with
      | .pending =>
          if task.marked then taken.stop id task .aborted
          else
            let (ran, task) := taken.run id task
            if task.status = .pending && (ran.task? id).any Task.marked then
              ran.stop id task .aborted
            else ran.setTask id task
      | .done | .aborted | .discarded => taken

end Latch.Pool
