import Latch.Future.Asking
import Latch.Pool.Run

/-!
# Work

Polling a scheduled task brings its pool nearer to a standstill: less work is left, or as much as
before and a smaller schedule. A spawned task's work was part of the step that spawned it.
-/

set_option autoImplicit false

namespace Latch.Pool

/-- A bound on what is left to do in a pool. -/
def work (pool : Pool) : Nat := (pool.tasks.map Task.work).foldr (· + ·) 0

theorem work_of_tasks {before after : Pool} (tasks : after.tasks = before.tasks) :
    after.work = before.work := by
  rw [work, tasks, work]

/-- Tasks that are added bring their own work. -/
theorem work_of_append {before after : Pool} {added : List Nat}
    (tasks : after.tasks.map Task.work = before.tasks.map Task.work ++ added) :
    after.work = before.work + added.foldr (· + ·) 0 := by
  have apart := @List.foldr_assoc Nat (· + ·) inferInstance (before.tasks.map Task.work) 0
    (added.foldr (· + ·) 0)
  rw [Nat.zero_add] at apart
  rw [work, tasks, List.foldr_append, apart, work]

/-! ## What leaves the tasks alone -/

@[simp]
theorem tasks_record (pool : Pool) (events : Events TaskId) (trace : List (Occurrence TaskId)) :
    (pool.record events trace).tasks = pool.tasks := rfl

@[simp]
theorem schedule_record (pool : Pool) (events : Events TaskId) (trace : List (Occurrence TaskId)) :
    (pool.record events trace).schedule = pool.schedule := rfl

@[simp]
theorem tasks_wake (pool : Pool) (id : TaskId) : (pool.wake id).tasks = pool.tasks := by
  unfold wake
  split <;> rfl

theorem tasks_foldl_wake (ids : List TaskId) (pool : Pool) :
    (ids.foldl wake pool).tasks = pool.tasks := by
  induction ids generalizing pool with
  | nil => rfl
  | cons id rest ih => rw [List.foldl_cons, ih, tasks_wake]

@[simp]
theorem tasks_setEvent (pool : Pool) (id : EventId) : (pool.setEvent id).tasks = pool.tasks := by
  unfold setEvent
  split
  · simp [tasks_foldl_wake]
  · rfl
  · rfl

@[simp]
theorem tasks_setSlot (pool : Pool) (slot : Nat) : (pool.setSlot slot).tasks = pool.tasks := by
  unfold setSlot
  split <;> simp

@[simp]
theorem tasks_rearm (pool : Pool) (slot : Nat) : (pool.rearm slot).tasks = pool.tasks := by
  unfold rearm
  split <;> simp

@[simp]
theorem tasks_dropFuture (pool : Pool) (future : Future Nat) :
    (pool.dropFuture future).tasks = pool.tasks := rfl

@[simp]
theorem schedule_dropFuture (pool : Pool) (future : Future Nat) :
    (pool.dropFuture future).schedule = pool.schedule := rfl

theorem tasks_foldl_dropFuture (futures : List (Future Nat)) (pool : Pool) :
    (futures.foldl dropFuture pool).tasks = pool.tasks := by
  induction futures generalizing pool with
  | nil => rfl
  | cons future rest ih => rw [List.foldl_cons, ih, tasks_dropFuture]

theorem schedule_foldl_dropFuture (futures : List (Future Nat)) (pool : Pool) :
    (futures.foldl dropFuture pool).schedule = pool.schedule := by
  induction futures generalizing pool with
  | nil => rfl
  | cons future rest ih => rw [List.foldl_cons, ih, schedule_dropFuture]

@[simp]
theorem tasks_dropAwait (pool : Pool) (await : Await) :
    (pool.dropAwait await).tasks = pool.tasks := tasks_foldl_dropFuture _ _

@[simp]
theorem schedule_dropAwait (pool : Pool) (await : Await) :
    (pool.dropAwait await).schedule = pool.schedule := schedule_foldl_dropFuture _ _

theorem works_abort (pool : Pool) (id : TaskId) :
    (pool.abort id).tasks.map Task.work = pool.tasks.map Task.work := by
  unfold abort
  split
  · next task found =>
      split
      · rw [tasks_wake]
        simp only [setTask, List.map_set]
        have marked : Task.work { task with marked := true } = task.work := rfl
        rw [marked]
        apply List.ext_getElem?
        intro index
        rw [List.getElem?_set]
        split
        · next same =>
            subst same
            have here : pool.tasks[id.number]? = some task := found
            obtain ⟨inside, same⟩ := List.getElem?_eq_some_iff.mp here
            simp [inside, same]
        · rfl
      · rfl
  · rfl

/-! ## Awaits -/

theorem delay_settle {wait : Wait} {signal : Future Nat} {answer : Answer}
    {note : List (Occurrence TaskId)} {events : Events TaskId} :
    delay (Future.settle wait signal answer note events).future = delay signal := by
  cases broken : (wait.drop events).panic? <;> simp [Future.settle, broken, delay]

theorem delay_conclude {wait : Wait} {polled : Future.Polled Nat TaskId} :
    delay (Future.conclude wait polled).future = delay polled.future := by
  unfold Future.conclude
  split
  · rfl
  · rfl
  · rfl
  · exact delay_settle
  · exact delay_settle

theorem delay_poll (id : TaskId) (future : Future Nat) (events : Events TaskId) :
    delay (future.poll id events).future = delay future := by
  fun_induction Future.poll id future events with
  | case1 | case2 | case6 | case7 | case8 => rfl
  | case3 => rfl
  | case4 => exact delay_settle
  | case5 wait inner events first pending concluded ih => exact delay_conclude.trans ih

theorem delay_of_asked {future : Future Nat} {count : Nat} (asked : future.asked? = some count) :
    delay future = count := by
  induction future with
  | external => simpa [Future.asked?, delay] using asked
  | race wait inner ih =>
      cases wait with
      | none => cases asked
      | some wait => exact ih asked
  | plain | ready | never => cases asked

theorem delay_withAsked {future : Future Nat} {count next : Nat}
    (asked : future.asked? = some count) : delay (future.withAsked next) = next := by
  induction future with
  | external => rfl
  | race wait inner ih =>
      cases wait with
      | none => cases asked
      | some wait => exact ih asked
  | plain | ready | never => cases asked

/-- A poll of an await leaves the tasks alone. If the await goes on, it has less work, or as much
and the schedule is as it was. -/
def Settles (pool : Pool) (await : Await) (result : Pool × Polled) : Prop :=
  result.1.tasks = pool.tasks ∧
    ∀ next, result.2 = .pending next →
      next.work < await.work ∨
        next.work = await.work ∧ result.1.schedule = pool.schedule

theorem tasks_answered (pool : Pool) (slot : Nat) (polled : Future.Polled Nat TaskId) :
    (pool.answered slot polled).1.tasks = pool.tasks := by
  unfold answered
  split <;> simp

theorem answered_pending {pool : Pool} {slot : Nat} {polled : Future.Polled Nat TaskId}
    {next : Await} (pending : (pool.answered slot polled).2 = .pending next) :
    next = .future slot polled.future ∧
      (pool.answered slot polled).1.schedule = pool.schedule := by
  unfold answered at pending ⊢
  split at pending
  all_goals simp_all

theorem delay_resume_ready (future : Future Nat) (events : Events TaskId) :
    delay (future.resume .ready events).future = delay future := by
  induction future with
  | external | plain | ready | never => rfl
  | race wait inner ih =>
      cases wait with
      | none => rfl
      | some wait => exact delay_conclude.trans ih

theorem pollFuture_settles (pool : Pool) (id : TaskId) (slot : Nat) (future : Future Nat) :
    Settles pool (.future slot future) (pool.pollFuture id slot future) := by
  unfold pollFuture
  simp only
  split
  · refine ⟨by rw [tasks_answered, tasks_record], ?_⟩
    intro next pending
    obtain ⟨rfl, schedule⟩ := answered_pending pending
    refine .inr ⟨?_, by rw [schedule, schedule_record]⟩
    simp only [Await.work, delay_resume_ready, delay_poll]
  · next count asks =>
      refine ⟨by rw [tasks_answered, tasks_wake, tasks_record], ?_⟩
      intro next pending
      obtain ⟨rfl, -⟩ := answered_pending pending
      have asked := Future.asked?_of_poll_asks asks
      have before : delay future = count + 1 := by
        rw [← delay_poll id future pool.events]
        exact delay_of_asked asked
      refine .inl ?_
      rw [Future.resume_pending asked]
      simp only [Await.work, delay_withAsked asked, before]
      omega
  all_goals
    refine ⟨by rw [tasks_answered], ?_⟩
    intro next pending
    obtain ⟨rfl, schedule⟩ := answered_pending pending
    exact .inr ⟨by simp only [Await.work, delay_poll], schedule⟩

@[simp]
theorem tasks_pollWait (pool : Pool) (id : TaskId) (wait : Wait) :
    (pool.pollWait id wait).1.tasks = pool.tasks := rfl

@[simp]
theorem schedule_pollWait (pool : Pool) (id : TaskId) (wait : Wait) :
    (pool.pollWait id wait).1.schedule = pool.schedule := rfl

theorem tasks_pollAll (id : TaskId) (waits : List (Option Wait)) (pool : Pool) :
    (pool.pollAll id waits).1.tasks = pool.tasks := by
  induction waits generalizing pool with
  | nil => rfl
  | cons wait? rest ih =>
      cases wait? with
      | none => exact ih pool
      | some wait =>
          simp only [pollAll]
          split
          · exact ih _
          · exact ih _

theorem schedule_pollAll (id : TaskId) (waits : List (Option Wait)) (pool : Pool) :
    (pool.pollAll id waits).1.schedule = pool.schedule := by
  induction waits generalizing pool with
  | nil => rfl
  | cons wait? rest ih =>
      cases wait? with
      | none => exact ih pool
      | some wait =>
          simp only [pollAll]
          split
          · exact ih _
          · exact ih _

theorem pollAwait_settles (pool : Pool) (id : TaskId) (await : Await) :
    Settles pool await (pool.pollAwait id await) := by
  unfold pollAwait
  split
  · exact pollFuture_settles pool id _ _
  · simp only
    split
    · exact ⟨by simp, by simp⟩
    · split
      · exact ⟨by simp, by simp⟩
      · refine ⟨by simp, ?_⟩
        intro next pending
        cases pending
        exact .inr ⟨rfl, by simp⟩
  · next waits givesWay =>
    simp only
    split
    · exact ⟨tasks_pollAll _ _ _, by simp⟩
    · split
      · next waking =>
          refine ⟨by rw [tasks_wake, tasks_pollAll], ?_⟩
          intro next pending
          cases pending
          simp only [Bool.and_eq_true] at waking
          exact .inl (by simp [Await.work, waking.1])
      · refine ⟨tasks_pollAll _ _ _, ?_⟩
        intro next pending
        cases pending
        rcases Bool.eq_false_or_eq_true givesWay with gives | keeps
        · exact .inl (by simp [Await.work, gives])
        · exact .inr ⟨by simp [Await.work, keeps], schedule_pollAll _ _ _⟩
  · exact ⟨rfl, by simp⟩
  · refine ⟨by simp, ?_⟩
    intro next pending
    cases pending
    exact .inl (by simp [Await.work])

/-! ## Steps -/

theorem tasks_makeWait? {pool : Pool} {slot : Nat} {hold : Hold} {result : Pool × Wait}
    (made : pool.makeWait? slot hold = some result) : result.1.tasks = pool.tasks := by
  obtain ⟨event, -, rfl⟩ := Option.map_eq_some_iff.mp made
  rfl

theorem tasks_makeWaits? {slots : List Nat} {pool : Pool}
    {result : Pool × List (Option Wait)} (made : pool.makeWaits? slots = some result) :
    result.1.tasks = pool.tasks := by
  induction slots generalizing pool result with
  | nil => cases made; rfl
  | cons slot rest ih =>
      simp only [makeWaits?] at made
      split at made
      · cases made
      · next first wait firstMade =>
          obtain ⟨second, secondMade, rfl⟩ := Option.map_eq_some_iff.mp made
          exact (ih secondMade).trans (tasks_makeWait? firstMade)

theorem tasks_makeSignal? {pool : Pool} {rival : Rival} {result : Pool × Future Nat}
    (made : pool.makeSignal? rival = some result) : result.1.tasks = pool.tasks := by
  cases rival with
  | ready | never | yields => cases made; rfl
  | event slot =>
      obtain ⟨waiting, waitMade, rfl⟩ := Option.map_eq_some_iff.mp made
      exact tasks_makeWait? waitMade

theorem tasks_makeAwait? {pool made : Pool} {step : Step} {await : Await}
    (result : pool.makeAwait? step = some (made, await)) : made.tasks = pool.tasks := by
  cases step with
  | wait slot hold =>
      obtain ⟨first, firstMade, same⟩ := Option.map_eq_some_iff.mp result
      cases same
      exact tasks_makeWait? firstMade
  | race slot rival =>
      simp only [makeAwait?] at result
      split at result
      · cases result
      · next first wait firstMade =>
          obtain ⟨second, secondMade, same⟩ := Option.map_eq_some_iff.mp result
          cases same
          exact (tasks_makeSignal? secondMade).trans (tasks_makeWait? firstMade)
  | select left right =>
      simp only [makeAwait?] at result
      split at result
      · cases result
      · next first wait firstMade =>
          obtain ⟨second, secondMade, same⟩ := Option.map_eq_some_iff.mp result
          cases same
          exact (tasks_makeWait? secondMade).trans (tasks_makeWait? firstMade)
  | join slots =>
      obtain ⟨first, firstMade, same⟩ := Option.map_eq_some_iff.mp result
      cases same
      exact tasks_makeWaits? firstMade
  | yield count => cases result; rfl
  | set | rearm | isSet | waiting | log | abort | spawn | loop => cases result

/-- Beginning a step may add tasks, whose work was part of the step's, and changes no other task's
work. -/
theorem begin_works (pool : Pool) (step : Step) :
    ∃ added, (pool.begin step).pool.tasks.map Task.work = pool.tasks.map Task.work ++ added ∧
      (pool.begin step).pool.work + (pool.begin step).work < pool.work + step.work := by
  have lower := begin_work_lt pool step
  by_cases spawns : ∃ program, step = .spawn program
  · obtain ⟨program, rfl⟩ := spawns
    have tasks : (pool.begin (.spawn program)).pool.tasks.map Task.work =
        pool.tasks.map Task.work ++ [Step.programWork program] := by
      simp [begin, spawn, Task.work]
    refine ⟨_, tasks, ?_⟩
    rw [work_of_append tasks]
    simp [begin, Begun.work, Step.programWork, Step.work]
  · suffices tasks : (pool.begin step).pool.tasks.map Task.work = pool.tasks.map Task.work by
      refine ⟨[], by rw [tasks, List.append_nil], ?_⟩
      rw [work, tasks]
      exact Nat.add_lt_add_left lower pool.work
    unfold begin
    split
    any_goals first | rfl | simp; done | split <;> rfl
    · exact works_abort _ _
    · exact absurd ⟨_, rfl⟩ spawns
    · split
      · next made => rw [tasks_makeAwait? made]
      · rfl

/-! ## Tasks -/

/-- Running a task may add tasks, and changes no other task's work. Together with the pool the task
has less work than before, or it has as much as before and neither the pool's work nor the schedule
has changed. -/
theorem run_works (pool : Pool) (id : TaskId) (task : Task) :
    ∃ added, (pool.run id task).1.tasks.map Task.work = pool.tasks.map Task.work ++ added ∧
      ((pool.run id task).1.work + (pool.run id task).2.work < pool.work + task.work ∨
        (pool.run id task).1.work = pool.work ∧ (pool.run id task).2.work = task.work ∧
          (pool.run id task).1.schedule = pool.schedule) := by
  fun_induction run pool id task with
  | case1 pool task await awaited polled next result =>
      have settles := pollAwait_settles pool id await
      rw [result] at settles
      obtain ⟨tasks, later⟩ := settles
      have whole := work_of_tasks tasks
      refine ⟨[], by rw [List.append_nil]; exact congrArg _ tasks, ?_⟩
      rw [whole]
      rcases later next rfl with less | ⟨same, schedule⟩
      · exact .inl (by simpa [Task.work, awaited] using less)
      · exact .inr ⟨rfl, by simp [Task.work, awaited, same], schedule⟩
  | case2 pool task await awaited polled log result ih =>
      have settles := pollAwait_settles pool id await
      rw [result] at settles
      have whole := work_of_tasks settles.1
      obtain ⟨added, tasks, later⟩ := ih
      refine ⟨added, by rw [tasks, settles.1], .inl ?_⟩
      have positive : 0 < await.work := by cases await <;> simp [Await.work]
      have before : task.work = Step.programWork task.program + await.work := by
        simp [Task.work, awaited]
      have after : Task.work { task with await? := none, log := task.log ++ log } =
          Step.programWork task.program := by
        simp [Task.work]
      rw [after, whole] at later
      rcases later with less | ⟨same, as_much, -⟩ <;> omega
  | case3 pool task awaited planned =>
      refine ⟨[], by simp, .inr ⟨rfl, ?_, rfl⟩⟩
      simp [Task.work, Task.ended, awaited, planned, Step.programWork]
  | case4 pool task awaited step rest planned begun ih =>
      obtain ⟨added, tasks, later⟩ := ih
      obtain ⟨spawned, begunTasks, less⟩ := begin_works pool step
      have begunTasks' : begun.pool.tasks.map Task.work = pool.tasks.map Task.work ++ spawned :=
        begunTasks
      refine ⟨spawned ++ added, by rw [tasks, begunTasks', List.append_assoc], .inl ?_⟩
      have before : task.work = step.work + Step.programWork rest := by
        simp [Task.work, awaited, planned, Step.programWork]
      have after : Task.work
          { task with
            program := begun.program ++ rest
            await? := begun.await?
            log := task.log ++ begun.log } = begun.work + Step.programWork rest := by
        simp only [Task.work, Begun.work, Step.programWork_append]
        omega
      have less' : begun.pool.work + begun.work < pool.work + step.work := less
      rw [after] at later
      rcases later with less | ⟨same, as_much, -⟩ <;> omega

theorem foldr_add_set {items : List Nat} {index old : Nat} (found : items[index]? = some old)
    (new : Nat) :
    (items.set index new).foldr (· + ·) 0 + old = items.foldr (· + ·) 0 + new := by
  induction items generalizing index with
  | nil => cases found
  | cons head rest ih =>
      cases index with
      | zero =>
          cases found
          simp only [List.set_cons_zero, List.foldr_cons]
          omega
      | succ index =>
          have inner := @ih index (by simpa using found)
          simp only [List.set_cons_succ, List.foldr_cons]
          omega

theorem work_setTask {pool : Pool} {id : TaskId} {old : Nat}
    (found : (pool.tasks.map Task.work)[id.number]? = some old) (task : Task) :
    (pool.setTask id task).work + old = pool.work + task.work := by
  simp only [work, setTask, List.map_set]
  exact foldr_add_set found task.work

theorem work_ended (task : Task) (status : Status) : (task.ended status).work = 0 := rfl

theorem work_stop {pool : Pool} {id : TaskId} {old : Nat}
    (found : (pool.tasks.map Task.work)[id.number]? = some old) (task : Task) (status : Status) :
    (pool.stop id task status).work + old = pool.work := by
  have general : ∀ dropped : Pool, dropped.tasks = pool.tasks →
      (dropped.setTask id (task.ended status)).work + old = pool.work := by
    intro dropped tasks
    have here : (dropped.setTask id (task.ended status)).work + old =
        dropped.work + (task.ended status).work := work_setTask (by rwa [tasks]) _
    rw [here, work_ended, Nat.add_zero, work_of_tasks tasks]
  unfold stop
  split
  · exact general _ (tasks_dropAwait _ _)
  · exact general _ rfl

theorem schedule_stop (pool : Pool) (id : TaskId) (task : Task) (status : Status) :
    (pool.stop id task status).schedule = pool.schedule := by
  unfold stop
  split
  · exact schedule_dropAwait _ _
  · rfl

/-! ## Polls -/

/-- Whether a pool is nearer to a standstill than another. -/
def Nearer (after before : Pool) : Prop :=
  after.work < before.work ∨
    after.work = before.work ∧ after.schedule.size < before.schedule.size

theorem Nearer.lex {after before : Pool} (nearer : Nearer after before) :
    Prod.Lex (· < ·) (· < ·) (after.work, after.schedule.size)
      (before.work, before.schedule.size) := by
  rcases nearer with less | ⟨same, smaller⟩
  · exact Prod.Lex.left _ _ less
  · rw [same]
    exact Prod.Lex.right _ smaller

/-- Polling a scheduled task leaves less work, or as much as before and a smaller schedule. -/
theorem poll_nearer {pool : Pool} {id : TaskId} (scheduled : pool.schedule.contains id) :
    Nearer (pool.poll id) pool := by
  have smaller : (pool.schedule.erase id).size < pool.schedule.size :=
    Schedule.size_erase_lt scheduled
  unfold poll Nearer
  simp only
  split
  · exact .inr ⟨rfl, smaller⟩
  · next task found =>
      have here : (pool.tasks.map Task.work)[id.number]? = some task.work := by
        rw [List.getElem?_map]
        exact congrArg (Option.map Task.work) found
      split
      · split
        · have stopped := @work_stop (pool.unschedule id) id task.work here
            task .aborted
          have whole : (pool.unschedule id).work = pool.work := rfl
          rw [schedule_stop]
          rw [whole] at stopped
          rcases Nat.eq_zero_or_pos task.work with none | some
          · exact .inr ⟨by omega, smaller⟩
          · exact .inl (by omega)
        · have ran := run_works (pool.unschedule id) id task
          generalize result : (pool.unschedule id).run id task = after at ran
          obtain ⟨next, rest⟩ := after
          obtain ⟨added, works, later⟩ := ran
          have whole : (pool.unschedule id).work = pool.work := rfl
          simp only [whole] at works later ⊢
          have there : (next.tasks.map Task.work)[id.number]? = some task.work := by
            rw [works]
            exact (List.getElem?_append_left (List.getElem?_eq_some_iff.mp here).1).trans here
          split
          · have stopped := work_stop there rest .aborted
            rw [schedule_stop]
            rcases later with less | ⟨same, as_much, schedule⟩
            · exact .inl (by omega)
            · rcases Nat.eq_zero_or_pos task.work with none | some
              · exact .inr ⟨by omega, by rw [schedule]; exact smaller⟩
              · exact .inl (by omega)
          · have stored := work_setTask there rest
            rcases later with less | ⟨same, as_much, schedule⟩
            · exact .inl (by omega)
            · refine .inr ⟨by omega, ?_⟩
              change next.schedule.size < pool.schedule.size
              rw [schedule]
              exact smaller
      all_goals exact .inr ⟨rfl, smaller⟩

/-- Enlisting newcomers leaves the work as it is. -/
theorem work_enlist (pool : Pool) : pool.enlist.work = pool.work := rfl

theorem enlist_nearer {pool : Pool} {id : TaskId} {rest : List TaskId}
    (waiting : pool.schedule.newcomers = id :: rest) : Nearer pool.enlist pool := by
  have size := Schedule.size_enlist pool.schedule
  rw [waiting, List.length_cons] at size
  refine .inr ⟨work_enlist pool, ?_⟩
  change pool.schedule.enlist.size < pool.schedule.size
  omega

theorem Nearer.enlist {after before : Pool} (nearer : Nearer after before) :
    Nearer after.enlist before := by
  have size := Schedule.size_enlist after.schedule
  rcases nearer with less | ⟨same, smaller⟩
  · exact .inl less
  · refine .inr ⟨same, ?_⟩
    change after.schedule.enlist.size < before.schedule.size
    omega

end Latch.Pool
