import Latch.Pool.Task
import Latch.Proofs.Accounts
import Latch.Proofs.Callbacks

/-!
# Executors

Tasks that wait are polled again by an executor once one of their wakers was called. What a task
does while it is polled is open, and so is what happens between polls; a task that is suspended has
its future left alone by everybody else. The main statement here is that no wake-up is lost: a task
that is suspended and not scheduled is registered with events that are unset.
-/

set_option autoImplicit false

namespace Latch

variable {ω σ ν τ : Type}

/-- A machine and the tasks that use it. A task is scheduled if it was never polled or one of its
wakers was called since; a suspended task waits at a future, by name, and has polled it last with
the given waker. -/
structure Executor (ω σ ν τ : Type) where
  machine : Machine ω σ ν := {}
  scheduled : τ → Prop := fun _ => True
  running : Option τ := none
  suspended : τ → Option (ν × ω) := fun _ => none

namespace Executor

/-- Calls were made, and the tasks are scheduled whose wakers were called by them. -/
def after (executor : Executor ω σ ν τ) (owner : ω → τ) (woken : List ω)
    (machine : Machine ω σ ν) : Executor ω σ ν τ :=
  { executor with
    machine
    scheduled := fun task => executor.scheduled task ∨ ∃ waker ∈ woken, owner waker = task }

/-- A future is suspended on some task's behalf. -/
def Reserved (executor : Executor ω σ ν τ) (name : ν) : Prop :=
  ∃ task waker, executor.suspended task = some (name, waker)

theorem not_reserved {executor : Executor ω σ ν τ}
    (nobody : ∀ task, executor.suspended task = none) (name : ν) : ¬ executor.Reserved name := by
  rintro ⟨task, waker, waiting⟩
  rw [nobody task] at waiting
  cases waiting

variable [Waker ω] [DecidableEq ν]

/-- A call, or the answer of a signal that was asked; and the future that is polled by it, if it is
a poll, with the waker of the poll. The futures of suspended tasks are left alone. -/
inductive Makes (executor : Executor ω σ ν τ) : Option (ν × ω) → Turn ω σ ν → Prop
  | call (choice : Nat) (action : Action ω σ ν)
      (free : ∀ name ∈ action.names, ¬ executor.Reserved name) :
      Makes executor action.polls? (executor.machine.perform choice action)
  | answer {name : ν} {holding : Holding σ} {waker : ω} {rest : List (Call ω σ ν)}
      (calls : executor.machine.calls = .polling name holding waker :: rest)
      (response : Response σ) (choice : Nat) :
      Makes executor (some (name, waker)) (executor.machine.resume response choice)

theorem Makes.run {executor : Executor ω σ ν τ} {polled? : Option (ν × ω)} {turn : Turn ω σ ν}
    {history : List (Occurrence ω)} (makes : executor.Makes polled? turn)
    (run : Machine.Run history executor.machine) :
    Machine.Run (history ++ turn.trace) turn.machine := by
  cases makes with
  | call choice action => exact run.step (.perform choice action)
  | answer _ response choice => exact run.step (.resume response choice)

/-! ## Registered or scheduled -/

/-- The task of the waker is scheduled, or the wait is registered for the waker. -/
def Watched (executor : Executor ω σ ν τ) (owner : ω → τ) (waker : ω) (wait : Wait) : Prop :=
  executor.scheduled (owner waker) ∨ wait.RegisteredFor executor.machine.events waker

/-- Registrations are owned, and the waits of suspended tasks and of polls in progress are watched.
The only calls in progress are polls. -/
structure Sound (owner : ω → τ) (executor : Executor ω σ ν τ) : Prop where
  owned : Owned executor.machine.events executor.machine.waits
  suspended : ∀ task name waker, executor.suspended task = some (name, waker) →
    owner waker = task ∧ ∃ holding, executor.machine.futures.get? name = some holding ∧
      ∀ wait ∈ holding.future.waits, executor.Watched owner waker wait
  polling : ∀ call ∈ executor.machine.calls, ∃ name holding waker,
    call = .polling name holding waker ∧ ¬ executor.Reserved name ∧
      ∀ wait ∈ holding.future.waits, executor.Watched owner waker wait

section Makes

variable {owner : ω → τ} {executor : Executor ω σ ν τ} {names : List ν} {woken : List ω}
  {before last : Machine ω σ ν}

theorem Watched.after {waker : ω} {wait : Wait} (watched : executor.Watched owner waker wait)
    (same : ∀ first second, willWake first second = true → owner first = owner second)
    (events : before.events = executor.machine.events)
    (spares : Machine.Spares before names woken last) (live : wait ∈ before.apart names) :
    (executor.after owner woken last).Watched owner waker wait := by
  rcases watched with scheduled | registered
  · exact .inl (.inl scheduled)
  · rw [← events] at registered
    rcases spares.registered wait live waker registered with still | ⟨stored, member, does⟩
    · exact .inr still
    · exact .inl (.inr ⟨stored, member, same stored waker does⟩)

/-- What is not worked on is still watched, its waker having been called if it is registered no
longer. -/
theorem Sound.after (sound : Sound owner executor)
    (same : ∀ first second, willWake first second = true → owner first = owner second)
    (spares : Machine.Spares before names woken last)
    (events : before.events = executor.machine.events)
    (futures : before.futures = executor.machine.futures)
    (calls : before.calls ⊆ executor.machine.calls)
    (free : ∀ name ∈ names, ¬ executor.Reserved name)
    (opened : ∀ call ∈ last.calls, call ∈ before.calls ∨ ∃ name ∈ names, ∃ holding waker,
      call = .polling name holding waker ∧ ∀ wait ∈ holding.future.waits,
        (executor.after owner woken last).Watched owner waker wait) :
    Sound owner (executor.after owner woken last) where
  owned := spares.owned
  suspended := by
    intro task name waker waiting
    have other : name ∉ names := fun member => free name member ⟨task, waker, waiting⟩
    obtain ⟨own, holding, found, watched⟩ := sound.suspended task name waker waiting
    rw [← futures] at found
    refine ⟨own, holding, (spares.kept name other).trans found, ?_⟩
    intro wait member
    have live := Machine.mem_apart_of_get? other found member
    exact (watched wait member).after same events spares live
  polling := by
    intro call member
    rcases opened call member with old | ⟨name, named, holding, waker, rfl, watched⟩
    · obtain ⟨name, holding, waker, rfl, unreserved, watched⟩ := sound.polling call (calls old)
      refine ⟨name, holding, waker, rfl, unreserved, ?_⟩
      intro wait inside
      have live : wait ∈ before.apart names := Machine.mem_apart_of_calls names old inside
      exact (watched wait inside).after same events spares live
    · exact ⟨name, holding, waker, rfl, free name named, watched⟩

end Makes

/-- The future can be suspended at by a task: no task is so far, and all its waits are watched. -/
def Attended (executor : Executor ω σ ν τ) (owner : ω → τ) (name : ν) (waker : ω) : Prop :=
  ¬ executor.Reserved name ∧ ∃ holding, executor.machine.futures.get? name = some holding ∧
    ∀ wait ∈ holding.future.waits, executor.Watched owner waker wait

section Polls

variable {owner : ω → τ} {executor : Executor ω σ ν τ}

/-- A poll registers what it leaves behind, whether it is pending or stops at a signal. -/
theorem Sound.poll [LawfulWaker ω]
    (same : ∀ first second, willWake first second = true → owner first = owner second)
    (sound : Sound owner executor) (choice : Nat) {name : ν} {waker : ω}
    (free : ¬ executor.Reserved name) {last : Turn ω σ ν}
    (result : last = executor.machine.perform choice (.poll name waker))
    (few : last.machine.events.Few) :
    Sound owner (executor.after owner [] last.machine) ∧
      ∀ state, last.control = .done (.polled .pending state) →
        (executor.after owner [] last.machine).Attended owner name waker := by
  have works := executor.machine.perform_works choice
    (show ∀ event, Action.poll name waker ≠ .setEvent event from nofun)
  rw [result] at few
  have spares := works.spares sound.owned few []
  have leaves := Machine.poll_leaves sound.owned choice name waker few
  rw [← result] at spares leaves
  constructor
  · refine sound.after same spares rfl rfl (List.Subset.refl _) ?_ ?_
    · intro other member
      rw [List.mem_singleton.mp member]
      exact free
    · intro call member
      rcases leaves.calls call member with old | ⟨holding, rfl, registered⟩
      · exact .inl old
      · exact .inr ⟨name, List.mem_singleton_self name, holding, waker, rfl,
          fun wait inside => .inr (registered wait inside)⟩
  · intro state pending
    obtain ⟨holding, found, registered⟩ := leaves.pending state pending
    exact ⟨free, holding, found, fun wait inside => .inr (registered wait inside)⟩

/-- An answer goes on with waits that were watched while the signal was asked; those that stay
registered are watched as before. -/
theorem Sound.answer
    (same : ∀ first second, willWake first second = true → owner first = owner second)
    (sound : Sound owner executor) {name : ν} {holding : Holding σ} {waker : ω}
    {rest : List (Call ω σ ν)}
    (calls : executor.machine.calls = .polling name holding waker :: rest)
    (response : Response σ) (choice : Nat) {last : Turn ω σ ν}
    (result : last = executor.machine.resume response choice)
    (few : last.machine.events.Few) :
    Sound owner (executor.after owner [] last.machine) ∧
      ∀ state, last.control = .done (.polled .pending state) →
        (executor.after owner [] last.machine).Attended owner name waker := by
  have works := Machine.resume_works calls rfl response choice
  rw [result] at few
  have spares := works.spares (sound.owned.perm (Machine.waits_perm_of_calls calls)) few []
  have leaves := Machine.resume_leaves sound.owned calls response choice few
  rw [← result] at spares leaves
  obtain ⟨polled, held, own, shape, unreserved, watched⟩ :=
    sound.polling _ (calls ▸ List.mem_cons_self)
  cases shape
  have still : ∀ wait, (wait ∈ holding.future.waits ∧ ∀ own,
      wait.RegisteredFor executor.machine.events own →
        wait.RegisteredFor last.machine.events own) →
      (executor.after owner [] last.machine).Watched owner waker wait := by
    rintro wait ⟨inside, keeps⟩
    rcases watched wait inside with scheduled | registered
    · exact .inl (.inl scheduled)
    · exact .inr (keeps waker registered)
  constructor
  · refine sound.after same spares rfl rfl ?_ ?_ ?_
    · intro call member
      exact calls ▸ List.mem_cons_of_mem _ member
    · intro other member
      rw [List.mem_singleton.mp member]
      exact unreserved
    · intro call member
      rcases leaves.calls call member with old | ⟨holding, rfl, keeps⟩
      · exact .inl old
      · exact .inr ⟨name, List.mem_singleton_self name, holding, waker, rfl,
          fun wait inside => still wait (keeps wait inside)⟩
  · intro state pending
    obtain ⟨held, found, keeps⟩ := leaves.pending state pending
    exact ⟨unreserved, held, found, fun wait inside => still wait (keeps wait inside)⟩

/-- A call keeps everything watched; and a poll that is pending has all its waits watched. -/
theorem Sound.makes [LawfulWaker ω]
    (same : ∀ first second, willWake first second = true → owner first = owner second)
    (sound : Sound owner executor) {polled? : Option (ν × ω)} {turn last : Turn ω σ ν}
    {woken : List ω} {told : List (Occurrence ω)} (makes : executor.Makes polled? turn)
    (wakes : Machine.Wakes turn woken told last) (few : last.machine.events.Few) :
    Sound owner (executor.after owner woken last.machine) ∧
      ∀ name waker state, polled? = some (name, waker) →
        last.control = .done (.polled .pending state) →
        (executor.after owner woken last.machine).Attended owner name waker := by
  -- Polls and answers wake nobody on their own, so `last` is where they led to at once; all other
  -- calls are over when they have woken everybody.
  cases makes with
  | call choice action free =>
      cases polls : action.polls? with
      | none =>
          obtain ⟨spares, calls⟩ := Machine.perform_spares sound.owned polls wakes few
          refine ⟨sound.after same spares rfl rfl (List.Subset.refl _) free ?_, nofun⟩
          intro call member
          exact .inl (calls ▸ member)
      | some poll =>
          cases action with
          | poll name waker =>
              cases polls
              have silent : ∀ other, (executor.machine.perform choice
                  (.poll name waker)).control ≠ .wake other :=
                executor.machine.pollFuture_silent name waker
              obtain ⟨rfl, rfl⟩ := wakes.of_silent silent
              obtain ⟨next, opened⟩ :=
                sound.poll same choice (free name (List.mem_singleton_self name)) rfl few
              refine ⟨next, ?_⟩
              intro polled own state given pending
              cases given
              exact opened state pending
          | makeEvent | setEvent | makeWait | drop | race | wake => cases polls
          | makeRegistry | dropRegistry | add | update | remove => cases polls
          | releaseAll | releaseOne | drain => cases polls
  | @answer name holding waker rest calls response choice =>
      have silent : ∀ other, (executor.machine.resume response choice).control ≠ .wake other := by
        rw [Machine.resume_polling calls]
        exact Machine.afterPoll_silent _ name holding.event waker _
      obtain ⟨rfl, rfl⟩ := wakes.of_silent silent
      obtain ⟨next, opened⟩ := sound.answer same calls response choice rfl few
      refine ⟨next, ?_⟩
      intro polled own state given pending
      cases given
      exact opened state pending

end Polls

variable [DecidableEq τ]

/-- What can happen next, wakers being owned by tasks, and what is told of it. -/
inductive Step (owner : ω → τ) :
    Executor ω σ ν τ → List (Occurrence ω) → Executor ω σ ν τ → Prop
  /-- A task is polled, scheduled or not; it is no longer scheduled then. -/
  | poll {executor : Executor ω σ ν τ} (task : τ) (idle : executor.running = none)
      (ended : executor.machine.calls = []) :
      Step owner executor []
        { executor with
          scheduled := fun other => other ≠ task ∧ executor.scheduled other
          running := some task
          suspended := fun other => if other = task then none else executor.suspended other }
  /-- The running task or somebody outside makes a call. -/
  | work {executor : Executor ω σ ν τ} {polled? : Option (ν × ω)} {turn last : Turn ω σ ν}
      {woken : List ω} {told : List (Occurrence ω)} (makes : executor.Makes polled? turn)
      (wakes : Machine.Wakes turn woken told last) :
      Step owner executor told (executor.after owner woken last.machine)
  /-- The running task polls a future with a waker of its own, finds it pending and is suspended. -/
  | suspend {executor : Executor ω σ ν τ} {task : τ} {name : ν} {waker : ω}
      {turn last : Turn ω σ ν} {woken : List ω} {told : List (Occurrence ω)} {state : EventState}
      (running : executor.running = some task) (own : owner waker = task)
      (makes : executor.Makes (some (name, waker)) turn)
      (wakes : Machine.Wakes turn woken told last)
      (pending : last.control = .done (.polled .pending state))
      (ended : last.machine.calls = []) :
      Step owner executor told
        { executor.after owner woken last.machine with
          running := none
          suspended := fun other =>
            if other = task then some (name, waker) else executor.suspended other }
  /-- The running task is finished, or waits for something that is not known here. -/
  | leave {executor : Executor ω σ ν τ} {task : τ} (running : executor.running = some task)
      (ended : executor.machine.calls = []) :
      Step owner executor [] { executor with running := none }
  /-- A suspended task is given up; its future is free to be dropped. -/
  | abandon {executor : Executor ω σ ν τ} (task : τ) :
      Step owner executor []
        { executor with
          suspended := fun other => if other = task then none else executor.suspended other }

/-- An executor came about by steps in any order, none of its tasks having been polled at first; the
history tells what happened meanwhile. -/
inductive Reachable (owner : ω → τ) : List (Occurrence ω) → Executor ω σ ν τ → Prop
  | start : Reachable owner [] {}
  | step {history told : List (Occurrence ω)} {executor next : Executor ω σ ν τ}
      (reached : Reachable owner history executor) (step : Step owner executor told next) :
      Reachable owner (history ++ told) next

/-- The machine of an executor is run. -/
theorem Reachable.run {owner : ω → τ} {history : List (Occurrence ω)}
    {executor : Executor ω σ ν τ} (reached : Reachable owner history executor) :
    Machine.Run history executor.machine := by
  induction reached with
  | start => exact .start
  | step _ step run =>
      cases step with
      | poll | leave | abandon =>
          rw [List.append_nil]
          exact run
      | work makes wakes => exact wakes.run (makes.run run)
      | suspend _ _ makes wakes => exact wakes.run (makes.run run)

/-! ## No wake-up is lost -/

section Steps

variable [LawfulWaker ω] {owner : ω → τ} {executor next : Executor ω σ ν τ}
  {history told : List (Occurrence ω)}

theorem Sound.step
    (same : ∀ first second, willWake first second = true → owner first = owner second)
    (sound : Sound owner executor) (step : Step owner executor told next)
    (few : next.machine.events.Few) : Sound owner next := by
  cases step with
  | poll task idle ended =>
      refine ⟨sound.owned, ?_, ?_⟩
      · intro other name waker waiting
        simp only at waiting
        split at waiting
        · cases waiting
        · next different =>
            obtain ⟨own, holding, found, watched⟩ := sound.suspended other name waker waiting
            refine ⟨own, holding, found, ?_⟩
            intro wait member
            exact (watched wait member).imp_left fun scheduled => ⟨own ▸ different, scheduled⟩
      · intro call member
        simp only [ended] at member
        cases member
  | work makes wakes => exact (sound.makes same makes wakes few).1
  | @suspend task name waker turn last woken told state running own makes wakes pending ended =>
      obtain ⟨⟨owned, suspended, polling⟩, opened⟩ := sound.makes same makes wakes few
      obtain ⟨unreserved, holding, found, watched⟩ := opened name waker state rfl pending
      refine ⟨owned, ?_, ?_⟩
      · intro other place given waiting
        simp only at waiting
        split at waiting
        · next here =>
            cases waiting
            exact ⟨own.trans here.symm, holding, found, watched⟩
        · exact suspended other place given waiting
      · intro call member
        simp only [Executor.after, ended] at member
        cases member
  | leave running ended => exact ⟨sound.owned, sound.suspended, sound.polling⟩
  | abandon task =>
      refine ⟨sound.owned, ?_, ?_⟩
      · intro other name waker waiting
        simp only at waiting
        split at waiting
        · cases waiting
        · exact sound.suspended other name waker waiting
      · intro call member
        obtain ⟨name, holding, waker, shape, unreserved, watched⟩ := sound.polling call member
        refine ⟨name, holding, waker, shape, ?_, watched⟩
        rintro ⟨other, own, waiting⟩
        simp only at waiting
        split at waiting
        · cases waiting
        · exact unreserved ⟨other, own, waiting⟩

theorem Reachable.sound
    (same : ∀ first second, willWake first second = true → owner first = owner second)
    (reached : Reachable owner history executor)
    (few : ∀ event, (registrations event history).length ≤ Token.limit) :
    Sound owner executor := by
  induction reached with
  | start => exact ⟨.empty, nofun, nofun⟩
  | step reached step ih =>
      have next := reached.step step
      refine (ih fun event => ?_).step same step fun id => ?_
      · exact few_of_append (few event)
      · exact next.run.issued_few (few id)

end Steps

/-- In every state that an executor can reach, a suspended task is scheduled or all waits of its
future are registered with unset events, under their own tokens, for wakers that wake the task. So
none is suspended at a set event once no task is scheduled. With no event may more registrations
have been made than there are tokens. -/
theorem no_wakeup_lost [LawfulWaker ω] (owner : ω → τ)
    (same : ∀ first second, willWake first second = true → owner first = owner second)
    {history : List (Occurrence ω)} {executor : Executor ω σ ν τ}
    (reached : Reachable owner history executor)
    (few : ∀ event, (registrations event history).length ≤ Token.limit) :
    (∀ task name waker, executor.suspended task = some (name, waker) →
      owner waker = task ∧ ∃ holding, executor.machine.futures.get? name = some holding ∧
        ∀ wait ∈ holding.future.waits, executor.scheduled task ∨
          (executor.machine.events.get wait.event).isSet = false ∧
            ∃ token stored, wait.token = some token ∧
              (executor.machine.events.get wait.event).registry.get? token = some stored ∧
              willWake stored waker = true ∧ owner stored = task) ∧
    ((∀ task, ¬ executor.scheduled task) → ∀ task name waker holding,
      executor.suspended task = some (name, waker) →
      executor.machine.futures.get? name = some holding →
      ∀ wait ∈ holding.future.waits, (executor.machine.events.get wait.event).isSet = false) := by
  have sound := reached.sound same few
  constructor
  · intro task name waker waiting
    obtain ⟨own, holding, found, watched⟩ := sound.suspended task name waker waiting
    refine ⟨own, holding, found, ?_⟩
    intro wait member
    rcases watched wait member with scheduled | ⟨unset, token, stored, holds, entry, does⟩
    · exact .inl (own ▸ scheduled)
    · exact .inr ⟨unset, token, stored, holds, entry, does, (same stored waker does).trans own⟩
  · intro stalled task name waker holding waiting found wait member
    obtain ⟨own, held, there, watched⟩ := sound.suspended task name waker waiting
    cases found.symm.trans there
    rcases watched wait member with scheduled | registered
    · exact absurd scheduled (stalled _)
    · exact registered.1

/-- Of two tasks, the one that a waker wakes. -/
def ownerOfTwo (waker : Pool.TaskId) : Bool := decide (waker.number = 1)

/-- One task makes two events and is finished, the other one waits for the first event. When that is
set the waiting task is scheduled. It is polled again, and then waits for the second event, which
nobody sets. -/
theorem no_wakeup_lost_stalled :
    (∃ (history : List (Occurrence Pool.TaskId)) (executor : Executor Pool.TaskId Nat Nat Bool),
      Reachable ownerOfTwo history executor ∧ executor.suspended false = some (0, ⟨0⟩) ∧
        (executor.machine.events.get ⟨0⟩).isSet = true ∧ executor.scheduled false) ∧
    ∃ (history : List (Occurrence Pool.TaskId)) (executor : Executor Pool.TaskId Nat Nat Bool),
      Reachable ownerOfTwo history executor ∧ (∀ task, ¬ executor.scheduled task) ∧
        executor.suspended false = some (1, ⟨0⟩) ∧
        ∃ holding wait, executor.machine.futures.get? 1 = some holding ∧
          holding.future.waits = [wait] ∧
          (executor.machine.events.get wait.event).isSet = false ∧
          ∃ token stored, wait.token = some token ∧
            (executor.machine.events.get wait.event).registry.get? token = some stored ∧
            willWake stored (⟨0⟩ : Pool.TaskId) = true := by
  have same : ∀ first second : Pool.TaskId, willWake first second = true →
      ownerOfTwo first = ownerOfTwo second := by
    intro first second equal
    rw [of_decide_eq_true equal]
  have few : ∀ history : List (Occurrence Pool.TaskId), history.length ≤ Token.limit →
      ∀ event, (registrations event history).length ≤ Token.limit :=
    fun history short event => Nat.le_trans (length_registrations_le event history) short
  have fresh : Reachable ownerOfTwo [] ({} : Executor Pool.TaskId Nat Nat Bool) := .start
  have made := (((fresh.step (.poll true rfl rfl)).step
    (.work (.call 0 .makeEvent nofun) (.none nofun))).step
    (.work (.call 0 .makeEvent nofun) (.none nofun))).step (.leave rfl rfl)
  have waits := (made.step (.poll false rfl rfl)).step
    (.work (.call 0 (.makeWait 0 ⟨0⟩ .borrowed) fun name _ => not_reserved (by decide) name)
      (.none nofun))
  have waiting := waits.step (.suspend rfl rfl
    (.call 0 (.poll 0 ⟨0⟩) fun name _ => not_reserved (by decide) name) (.none nofun) rfl rfl)
  have called := waiting.step (.work (.call 0 (.setEvent ⟨0⟩) nofun)
    (.one rfl (show ∀ panic, Response.ready ≠ .panicked panic from nofun) 0 (.none nofun)))
  have again := (called.step (.poll false rfl rfl)).step
    (.work (.call 0 (.poll 0 ⟨0⟩) fun name _ => not_reserved (by decide) name) (.none nofun))
  have renewed := again.step
    (.work (.call 0 (.makeWait 1 ⟨1⟩ .owned) fun name _ => not_reserved (by decide) name)
      (.none nofun))
  have stalls := renewed.step (.suspend rfl rfl
    (.call 0 (.poll 1 ⟨0⟩) fun name _ => not_reserved (by decide) name) (.none nofun) rfl rfl)
  constructor
  · obtain ⟨-, holding, found, watched⟩ :=
      (no_wakeup_lost ownerOfTwo same called (few _ (by decide))).1 false 0 ⟨0⟩ rfl
    refine ⟨_, _, called, rfl, rfl, ?_⟩
    cases found
    rcases watched _ (List.mem_singleton_self _) with scheduled | ⟨unset, -⟩
    · exact scheduled
    · cases unset
  · obtain ⟨-, holding, found, watched⟩ :=
      (no_wakeup_lost ownerOfTwo same stalls (few _ (by decide))).1 false 1 ⟨0⟩ rfl
    refine ⟨_, _, stalls, ?_, rfl, ?_⟩
    · intro task
      cases task <;> simp [Executor.after, ownerOfTwo]
    · cases found
      refine ⟨_, _, rfl, rfl, ?_⟩
      rcases watched _ (List.mem_singleton_self _) with scheduled | ⟨unset, registered⟩
      · simp [Executor.after, ownerOfTwo] at scheduled
      · obtain ⟨token, stored, holds, entry, does, -⟩ := registered
        exact ⟨unset, token, stored, holds, entry, does⟩

end Executor

end Latch
