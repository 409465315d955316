import Latch.Pool.Stage
import Latch.Proofs.Errands

/-!
# Runs of errands

An executor may poll scheduled tasks in any order, and a set event may wake its waiters in any
order. For tasks that only wait for events and set events this makes no difference in the end: every
run ends, and all runs end with the same events set and every task at the same step.
-/

set_option autoImplicit false

namespace Latch.Pool

variable {count : Nat} {programs : List (List (Errand count))} {pool next : Pool} {id : TaskId}

/-! ## Runs -/

/-- The pools differ at most in the order of their schedules and in what they tell. -/
structure Alike (first second : Pool) : Prop where
  events : second.events = first.events
  slots : second.slots = first.slots
  tasks : second.tasks = first.tasks
  queue : second.schedule.queue.Perm first.schedule.queue
  newcomers : second.schedule.newcomers.Perm first.schedule.newcomers

/-- Some scheduled task is polled; those that it wakes are queued in any order. -/
def Polls (before after : Pool) : Prop :=
  ∃ id, before.schedule.contains id = true ∧ Alike (before.poll id) after

/-- Nobody is scheduled. -/
def Idle (pool : Pool) : Prop := ∀ id, pool.schedule.contains id = false

inductive Reaches (first : Pool) : Pool → Prop
  | start : Reaches first first
  | step {before after : Pool} (reached : Reaches first before) (polls : Polls before after) :
      Reaches first after

/-- A pool with an unset event for each slot and a task for each program, all of them scheduled. -/
def launch (programs : List (List (Errand count))) : Pool :=
  start count (programs.map fun program => program.map Errand.step)

theorem Alike.refl (pool : Pool) : Alike pool pool := ⟨rfl, rfl, rfl, .refl _, .refl _⟩

theorem Alike.contains {first second : Pool} (alike : Alike first second) (id : TaskId) :
    second.schedule.contains id = first.schedule.contains id := by
  rw [Bool.eq_iff_iff]
  simp only [Schedule.contains, Bool.or_eq_true, List.contains_iff_mem, alike.queue.mem_iff,
    alike.newcomers.mem_iff]

/-! ## Every run ends -/

theorem Alike.nearer {first second : Pool} (alike : Alike first second) {before : Pool}
    (nearer : Nearer first before) : Nearer second before := by
  have work : second.work = first.work := work_of_tasks alike.tasks
  have size : second.schedule.size = first.schedule.size := by
    simp only [Schedule.size, alike.queue.length_eq, alike.newcomers.length_eq]
  unfold Nearer
  rw [work, size]
  exact nearer

theorem Polls.nearer {before after : Pool} (polls : Polls before after) : Nearer after before := by
  obtain ⟨id, scheduled, alike⟩ := polls
  exact alike.nearer (poll_nearer scheduled)

theorem nearer_wellFounded : WellFounded Nearer :=
  Subrelation.wf Nearer.lex
    (InvImage.wf (fun pool : Pool => (pool.work, pool.schedule.size))
      (Prod.lex Nat.lt_wfRel Nat.lt_wfRel).wf)

theorem no_endless_run (run : Nat → Pool) : ¬ ∀ time, Polls (run time) (run (time + 1)) := by
  have endless : ∀ pool, ∀ run : Nat → Pool, run 0 = pool →
      ¬ ∀ time, Polls (run time) (run (time + 1)) := by
    intro pool
    induction pool using nearer_wellFounded.induction with
    | _ pool ih =>
        intro run first polls
        have nearer : Nearer (run 1) pool := first ▸ (polls 0).nearer
        exact ih (run 1) nearer (fun time => run (time + 1)) rfl fun time => polls (time + 1)
  exact endless (run 0) run rfl

theorem exists_idle (pool : Pool) : ∃ last, Reaches pool last ∧ last.Idle := by
  have onwards : ∀ {first before last : Pool}, Polls first before → Reaches before last →
      Reaches first last := by
    intro first before last polls reached
    induction reached with
    | start => exact .step .start polls
    | step _ next ih => exact .step ih next
  induction pool using nearer_wellFounded.induction with
  | _ pool ih =>
      by_cases idle : pool.Idle
      · exact ⟨pool, .start, idle⟩
      · obtain ⟨id, scheduled⟩ := Classical.not_forall.mp idle
        rw [Bool.not_eq_false] at scheduled
        have polls : Polls pool (pool.poll id) := ⟨id, scheduled, .refl _⟩
        obtain ⟨last, reached, ended⟩ := ih (pool.poll id) polls.nearer
        exact ⟨last, onwards polls reached, ended⟩

/-! ## Every run is faithful -/

theorem make_spec (count : Nat) :
    make count = { events := { next := count }, slots := (List.range count).map EventId.mk } := by
  induction count with
  | zero => rfl
  | succ count ih =>
      simp only [make, ih, Events.create, List.range_succ, List.map_append, List.map_cons,
        List.map_nil]

theorem foldl_spawn_spec (programs : List (List Step)) (pool : Pool) :
    (programs.foldl spawn pool).events = pool.events ∧
      (programs.foldl spawn pool).slots = pool.slots ∧
      (programs.foldl spawn pool).tasks =
        pool.tasks ++ programs.map (fun program => { program := program }) := by
  induction programs generalizing pool with
  | nil => exact ⟨rfl, rfl, (List.append_nil _).symm⟩
  | cons program rest ih =>
      obtain ⟨events, slots, tasks⟩ := ih (pool.spawn program)
      refine ⟨events, slots, ?_⟩
      rw [List.foldl_cons, tasks, spawn, List.append_assoc]
      rfl

theorem contains_foldl_spawn (programs : List (List Step)) (pool : Pool)
    (all : ∀ index < pool.tasks.length, pool.schedule.contains ⟨index⟩ = true) (index : Nat)
    (inside : index < (programs.foldl spawn pool).tasks.length) :
    (programs.foldl spawn pool).schedule.contains ⟨index⟩ = true := by
  induction programs generalizing pool with
  | nil => exact all index inside
  | cons program rest ih =>
      refine ih (pool.spawn program) ?_ inside
      intro other below
      simp only [spawn, List.length_append, List.length_singleton] at below
      simp only [spawn, Schedule.welcome, Schedule.contains, List.contains_append,
        List.contains_cons, List.contains_nil, Bool.or_false]
      rcases Nat.lt_succ_iff_lt_or_eq.mp below with old | rfl
      · have scheduled := all other old
        simp only [Schedule.contains] at scheduled
        rw [← Bool.or_assoc, scheduled, Bool.true_or]
      · rw [BEq.rfl, Bool.or_true, Bool.or_true]

theorem launch_faithful (programs : List (List (Errand count))) :
    Faithful programs (launch programs) := by
  obtain ⟨events, slots, tasks⟩ :=
    foldl_spawn_spec (programs.map fun program => program.map Errand.step) (make count)
  have scheduled := contains_foldl_spawn (programs.map fun program => program.map Errand.step)
    (make count) (by
      intro index below
      rw [make_spec] at below
      cases below)
  have begins : launch programs =
      (programs.map fun program => program.map Errand.step).foldl spawn (make count) := rfl
  rw [← begins] at events slots tasks scheduled
  rw [make_spec] at events slots tasks
  rw [List.nil_append, List.map_map] at tasks
  have unset : ∀ id, ((launch programs).events.get id).isSet = false := by
    intro id
    rw [events]
    rfl
  have none : (launch programs).tasks.flatMap Task.waits = [] := by
    rw [tasks, List.flatMap_map]
    exact List.flatMap_eq_nil_iff.mpr fun program _ => rfl
  refine ⟨?_, ?_, ?_, ?_, ?_, ?_⟩
  · intro slot
    rw [slot?, slots]
    simp
  · rw [none, events]
    exact Owned.empty.of_same (fun _ => rfl) fun _ => rfl
  · rw [none, events]
    exact fun _ _ => Nat.le_refl 0
  · intro set closed slot isSet
    rw [IsSet, unset] at isSet
    cases isSet
  · rw [tasks, List.length_map]
  · intro index program task planned found
    have inside : index < (launch programs).tasks.length :=
      (List.getElem?_eq_some_iff.mp found).1
    rw [tasks, List.getElem?_map, planned] at found
    cases found
    refine ⟨rfl, program, ⟨[], rfl, ?_⟩, .inr ⟨scheduled index inside, rfl, .between rfl rfl⟩⟩
    intro errand member
    cases member

theorem Alike.faithful {first second : Pool} (alike : Alike first second)
    (faithful : Faithful programs first) : Faithful programs second where
  slots slot := by
    rw [slot?, alike.slots]
    exact faithful.slots slot
  owned := by
    rw [alike.events, alike.tasks]
    exact faithful.owned
  counted := by
    rw [alike.events, alike.tasks]
    exact faithful.counted
  least set closed slot isSet := by
    rw [IsSet, alike.events] at isSet
    exact faithful.least set closed slot isSet
  size := by
    rw [alike.tasks]
    exact faithful.size
  follows index program task planned found := by
    rw [alike.tasks] at found
    apply (faithful.follows index program task planned found).mono
    · intro slot isSet
      rw [IsSet, alike.events]
      exact isSet
    · intro scheduled
      rw [alike.contains]
      exact scheduled
    · intro _ wait _ registered
      rw [alike.events]
      exact .inl registered

theorem Reaches.faithful (reached : Reaches (launch programs) pool)
    (few : programs.length ≤ Token.limit) : Faithful programs pool := by
  induction reached with
  | start => exact launch_faithful programs
  | step _ polls ih =>
      obtain ⟨id, -, alike⟩ := polls
      exact alike.faithful (ih.poll few id)

/-! ## How runs end -/

/-- The slot that a task waits for. -/
def Task.awaited? (task : Task) : Option Nat :=
  match task.await? with
  | some (.future slot _) => some slot
  | some (.select ..) | some (.join ..) | some (.yielding _) | none => none

/-- The steps that a task has not performed yet, first of all the one that it waits in. -/
def Task.remaining (task : Task) : List Step :=
  match task.await? with
  | some (.future slot (.plain wait)) => .wait slot wait.hold :: task.program
  | some _ | none => task.program

/-- How a task stands: its status, its remaining steps, and the slot that it waits for. -/
def Task.standing (task : Task) : Status × List Step × Option Nat :=
  (task.status, task.remaining, task.awaited?)

/-- The end of a run. The set events are the least ones that are closed under the programs; a task
is finished, or waits for an event that is not set; and an event counts the tasks that wait for
it. -/
structure Ended (programs : List (List (Errand count))) (pool : Pool) : Prop where
  closed : Closed programs pool.IsSet
  least : ∀ set, Closed programs set → ∀ slot, pool.IsSet slot → set slot
  size : pool.tasks.length = programs.length
  stands : ∀ (index : Nat) (program : List (Errand count)) (task : Task),
    programs[index]? = some program → pool.tasks[index]? = some task →
    ∃ done left, program = done ++ left ∧
      task.remaining = left.map Errand.step ∧ (∀ errand ∈ done, pool.IsSet errand.slot) ∧
      (task.status = .done ∧ task.awaited? = none ∧ left = [] ∨
        task.status = .pending ∧ ∃ slot hold rest, task.awaited? = some slot.val ∧
          left = .await slot hold :: rest ∧ ¬ pool.IsSet slot)
  waiting : ∀ slot : Fin count, (pool.events.get ⟨slot⟩).statistics =
    .ok ⟨(pool.tasks.filter fun task => task.awaited? = some slot.val).length⟩

theorem Faithful.rests (faithful : Faithful programs pool) (idle : pool.Idle) {index : Nat}
    {program : List (Errand count)} {task : Task} (planned : programs[index]? = some program)
    (found : pool.tasks[index]? = some task) :
    ∃ left, pool.HasDone program left ∧ Rests pool.events ⟨index⟩ task left := by
  obtain ⟨-, left, done, rests | ⟨scheduled, -⟩⟩ :=
    faithful.follows index program task planned found
  · exact ⟨left, done, rests⟩
  · rw [idle ⟨index⟩] at scheduled
    cases scheduled

theorem Rests.stands {events : Events TaskId} {task : Task} {left : List (Errand count)}
    (rests : Rests events id task left) :
    task.remaining = left.map Errand.step ∧
      (task.status = .done ∧ task.awaited? = none ∧ left = [] ∨
        task.status = .pending ∧ ∃ slot hold rest, task.awaited? = some slot.val ∧
          left = .await slot hold :: rest ∧ (events.get ⟨slot⟩).isSet = false) := by
  cases rests with
  | finished ended idle program =>
      refine ⟨?_, .inl ⟨ended, ?_, rfl⟩⟩
      · simp only [Task.remaining, idle, program, List.map_nil]
      · simp only [Task.awaited?, idle]
  | @waiting slot hold rest wait pending awaits event held program registered =>
      refine ⟨?_, .inr ⟨pending, slot, hold, rest, ?_, rfl, event ▸ registered.1⟩⟩
      · simp only [Task.remaining, awaits, held, program, List.map_cons, Errand.step]
      · simp only [Task.awaited?, awaits]

theorem Rests.standing {first second : Events TaskId} {one other : Task}
    {left : List (Errand count)} (firstRests : Rests first id one left)
    (secondRests : Rests second id other left) : one.standing = other.standing := by
  have steps := firstRests.stands.1.trans secondRests.stands.1.symm
  unfold Task.standing
  rw [steps]
  cases firstRests with
  | finished ended idle program =>
      cases secondRests with
      | finished overToo idleToo programToo =>
          simp only [ended, overToo, Task.awaited?, idle, idleToo]
  | waiting pending awaits event held program registered =>
      cases secondRests with
      | waiting pendingToo awaitsToo eventToo heldToo programToo registeredToo =>
          simp only [pending, pendingToo, Task.awaited?, awaits, awaitsToo]

/-- A task at rest has got beyond all errands that it can do. -/
theorem Rests.beyond {events : Events TaskId} {task : Task}
    {before left done rest : List (Errand count)} (rests : Rests events id task left)
    (same : done ++ rest = before ++ left)
    (awaited : ∀ (slot : Fin count) (hold : Hold),
      .await slot hold ∈ done → (events.get ⟨slot⟩).isSet = true) :
    ∃ further, before = done ++ further ∧ rest = further ++ left := by
  rcases List.append_eq_append_iff.mp same with ⟨further, ahead, behind⟩ | ⟨missing, behind, ahead⟩
  · exact ⟨further, ahead, behind⟩
  · cases missing with
    | nil =>
        rw [List.append_nil] at behind
        exact ⟨[], by rw [behind, List.append_nil], ahead.symm⟩
    | cons errand missing =>
        -- Otherwise the wait that the task is stuck in would be among the errands in `done`.
        obtain ⟨-, ⟨-, -, ended⟩ | ⟨-, slot, hold, rest, -, waits, unset⟩⟩ := rests.stands
        · rw [ended] at ahead
          cases ahead
        · rw [waits] at ahead
          cases ahead
          have inside : Errand.await slot hold ∈ done := by
            rw [behind]
            exact List.mem_append_right _ List.mem_cons_self
          rw [awaited slot hold inside] at unset
          cases unset

theorem Faithful.closed (faithful : Faithful programs pool) (idle : pool.Idle) :
    Closed programs pool.IsSet := by
  intro program member done slot rest split awaited
  obtain ⟨index, inside, here⟩ := List.mem_iff_getElem.mp member
  have planned : programs[index]? = some program := List.getElem?_eq_some_iff.mpr ⟨inside, here⟩
  obtain ⟨task, found⟩ : ∃ task, pool.tasks[index]? = some task := by
    rw [← faithful.size] at inside
    exact ⟨_, List.getElem?_eq_getElem inside⟩
  obtain ⟨left, ⟨before, whole, all⟩, rests⟩ := faithful.rests idle planned found
  obtain ⟨further, beyond, behind⟩ := rests.beyond (split.symm.trans whole) awaited
  cases further with
  | nil =>
      rw [List.nil_append] at behind
      subst behind
      cases rests
  | cons errand further =>
      cases behind
      apply all (.set slot)
      rw [beyond]
      exact List.mem_append_right _ List.mem_cons_self

theorem Rests.registered {events : Events TaskId} {task : Task} {left : List (Errand count)}
    (rests : Rests events id task left) (slot : Fin count) :
    (task.waits.filter fun wait => wait.event = ⟨slot⟩ ∧ wait.isRegistered = true).length =
      if task.awaited? = some slot.val then 1 else 0 := by
  cases rests with
  | finished ended idle program =>
      simp only [Task.waits, Task.awaited?, idle, Option.toList_none, List.flatMap_nil,
        List.filter_nil, List.length_nil, reduceCtorEq, if_false]
  | @waiting place hold rest wait pending awaits event held program registered =>
      obtain ⟨-, token, stored, holds, -⟩ := registered
      have present : wait.isRegistered = true := by rw [Wait.isRegistered, holds]; rfl
      have waitsFor : task.awaited? = some place.val := by simp only [Task.awaited?, awaits]
      rw [Task.waits_of_plain awaits, waitsFor]
      by_cases same : place.val = slot.val
      · simp [event, same, present]
      · simp [event, same]

theorem length_filter_flatMap {α β : Type} {items : List α} {part : α → List β}
    {here : β → Bool} {counts : α → Bool}
    (each : ∀ item ∈ items, ((part item).filter here).length = if counts item then 1 else 0) :
    ((items.flatMap part).filter here).length = (items.filter counts).length := by
  induction items with
  | nil => rfl
  | cons item rest ih =>
      rw [List.flatMap_cons, List.filter_append, List.length_append, List.filter_cons,
        each item List.mem_cons_self,
        ih fun other member => each other (List.mem_cons_of_mem _ member)]
      split
      · rw [List.length_cons, Nat.add_comm]
      · rw [Nat.zero_add]

theorem Faithful.waiting (faithful : Faithful programs pool) (few : programs.length ≤ Token.limit)
    (idle : pool.Idle) (slot : Fin count) : (pool.events.get ⟨slot⟩).statistics =
      .ok ⟨(pool.tasks.filter fun task => task.awaited? = some slot.val).length⟩ := by
  have rests : ∀ task ∈ pool.tasks, ∃ (id : TaskId) (left : List (Errand count)),
      Rests pool.events id task left := by
    intro task member
    obtain ⟨index, inside, found⟩ := List.mem_iff_getElem.mp member
    have planned := List.getElem?_eq_getElem (faithful.size ▸ inside)
    obtain ⟨left, -, rests⟩ :=
      faithful.rests idle planned (List.getElem?_eq_some_iff.mpr ⟨inside, found⟩)
    exact ⟨_, left, rests⟩
  have waits := length_flatMap_waits_le fun task member => faithful.length_waits_le member
  have bounded := Nat.le_trans waits (faithful.size ▸ few)
  rw [faithful.owned.statistics ⟨slot⟩ fun unset => faithful.counted.few bounded unset]
  congr 2
  cases flag : (pool.events.get ⟨slot⟩).isSet with
  | true =>
      have none : (pool.tasks.filter fun task => task.awaited? = some slot.val) = [] := by
        refine List.filter_eq_nil_iff.mpr fun task member waits => ?_
        obtain ⟨id, left, rests⟩ := rests task member
        obtain ⟨-, ⟨-, nothing, -⟩ | ⟨-, place, -, -, waitsFor, -, unset⟩⟩ := rests.stands
        · cases nothing.symm.trans (of_decide_eq_true waits)
        · have same : place = slot :=
            Fin.ext (Option.some.inj (waitsFor.symm.trans (of_decide_eq_true waits)))
          rw [same, flag] at unset
          cases unset
      rw [none]
      rfl
  | false =>
      refine length_filter_flatMap fun task member => ?_
      obtain ⟨id, left, rests⟩ := rests task member
      rw [rests.registered slot]
      simp only [decide_eq_true_eq]

theorem Faithful.ended (faithful : Faithful programs pool) (few : programs.length ≤ Token.limit)
    (idle : pool.Idle) :
    Ended programs pool where
  closed := faithful.closed idle
  least := faithful.least
  size := faithful.size
  stands index program task planned found := by
    obtain ⟨left, ⟨done, split, all⟩, rests⟩ := faithful.rests idle planned found
    obtain ⟨remaining, stands⟩ := rests.stands
    refine ⟨done, left, split, remaining, all, stands.imp_right ?_⟩
    rintro ⟨pending, slot, hold, rest, awaits, shape, unset⟩
    exact ⟨pending, slot, hold, rest, awaits, shape, Bool.eq_false_iff.mp unset⟩
  waiting := faithful.waiting few idle

theorem Rests.agree {first second : Pool} {one other : Task}
    {program left rest : List (Errand count)}
    (same : ∀ slot : Fin count, first.IsSet slot ↔ second.IsSet slot)
    (firstDone : first.HasDone program left) (firstRests : Rests first.events id one left)
    (secondDone : second.HasDone program rest) (secondRests : Rests second.events id other rest) :
    left = rest := by
  obtain ⟨before, rfl, all⟩ := firstDone
  obtain ⟨done, split, every⟩ := secondDone
  obtain ⟨further, ahead, -⟩ := secondRests.beyond split
    fun slot hold member => (same slot).mp (all _ member)
  obtain ⟨missing, behind, -⟩ := firstRests.beyond split.symm
    fun slot hold member => (same slot).mpr (every _ member)
  have nothing : further = [] := by
    have size := congrArg List.length (ahead.trans (congrArg (· ++ further) behind))
    simp only [List.length_append] at size
    exact List.eq_nil_of_length_eq_zero (by omega)
  rw [nothing, List.append_nil] at ahead
  rw [ahead] at split
  exact List.append_cancel_left split

/-- A run that polls scheduled tasks in any order, and wakes the waiters of a set event in any
order, comes to an end. The events that are set in the end are the least ones such that a task
performs a step once all events are set that it has to wait for before; and any two runs end with
the same events set, the same tasks finished, every task at the same step, and as many tasks waiting
for each event. A task that waits needs a token of its own, so there must not be more tasks than
tokens for what is said of the end; no memory holds so many. -/
theorem runs_end_alike (programs : List (List (Errand count))) :
    (¬ ∃ run : Nat → Pool, run 0 = launch programs ∧ ∀ time, Polls (run time) (run (time + 1))) ∧
    (programs.length ≤ Token.limit →
      (∀ last, Reaches (launch programs) last → last.Idle → Ended programs last) ∧
      ∀ first second, Reaches (launch programs) first → first.Idle →
        Reaches (launch programs) second → second.Idle →
          (∀ slot : Fin count, first.IsSet slot ↔ second.IsSet slot) ∧
          first.tasks.map Task.status = second.tasks.map Task.status ∧
          first.tasks.map Task.remaining = second.tasks.map Task.remaining ∧
          ∀ slot : Fin count, (first.events.get ⟨slot⟩).statistics =
            (second.events.get ⟨slot⟩).statistics) := by
  refine ⟨fun ⟨run, _, polls⟩ => no_endless_run run polls, fun few =>
    ⟨fun last reached idle => (reached.faithful few).ended few idle, ?_⟩⟩
  intro first second reachedFirst idleFirst reachedSecond idleSecond
  have one := reachedFirst.faithful few
  have other := reachedSecond.faithful few
  -- What one run sets is closed in the end, and so contains what the other one sets.
  have same : ∀ slot : Fin count, first.IsSet slot ↔ second.IsSet slot := fun slot =>
    ⟨one.least _ (other.closed idleSecond) slot, other.least _ (one.closed idleFirst) slot⟩
  have tasks : first.tasks.map Task.standing = second.tasks.map Task.standing := by
    apply List.ext_getElem?
    intro index
    rw [List.getElem?_map, List.getElem?_map]
    cases planned : programs[index]? with
    | none =>
        have outside := List.getElem?_eq_none_iff.mp planned
        rw [List.getElem?_eq_none (one.size ▸ outside),
          List.getElem?_eq_none (other.size ▸ outside)]
    | some program =>
        have inside := (List.getElem?_eq_some_iff.mp planned).1
        have found := List.getElem?_eq_getElem (one.size.symm ▸ inside)
        have there := List.getElem?_eq_getElem (other.size.symm ▸ inside)
        obtain ⟨left, firstDone, firstRests⟩ := one.rests idleFirst planned found
        obtain ⟨rest, secondDone, secondRests⟩ := other.rests idleSecond planned there
        cases Rests.agree same firstDone firstRests secondDone secondRests
        rw [found, there, Option.map_some, Option.map_some, firstRests.standing secondRests]
  have statuses := congrArg (List.map (·.1)) tasks
  have steps := congrArg (List.map (·.2.1)) tasks
  have slots := congrArg (List.map (·.2.2)) tasks
  rw [List.map_map, List.map_map] at statuses steps slots
  refine ⟨same, statuses, steps, ?_⟩
  intro slot
  have counts : ∀ tasks : List Task,
      (tasks.filter fun task => task.awaited? = some slot.val).length =
        ((tasks.map Task.awaited?).filter (· = some slot.val)).length := by
    intro tasks
    rw [List.filter_map, List.length_map]
    rfl
  have equal : first.tasks.map Task.awaited? = second.tasks.map Task.awaited? := slots
  rw [one.waiting few idleFirst, other.waiting few idleSecond, counts, counts, equal]

/-- One task sets an event on which two others depend in turn; nobody can set the third event. -/
def chain : List (List (Errand 3)) :=
  [[.await 0 .owned, .set 1], [.set 0], [.await 1 .borrowed], [.await 2 .owned, .set 2]]

theorem runs_end_alike_chain :
    ∃ last, Reaches (launch chain) last ∧ last.Idle ∧ last.IsSet (0 : Fin 3) ∧
      last.IsSet (1 : Fin 3) ∧ ¬ last.IsSet (2 : Fin 3) := by
  obtain ⟨last, reached, idle⟩ := exists_idle (launch chain)
  have ended := ((runs_end_alike chain).2 (by decide)).1 last reached idle
  have zero : last.IsSet (0 : Fin 3) :=
    ended.closed [.set 0] (by simp [chain]) [] 0 [] rfl nofun
  have one : last.IsSet (1 : Fin 3) := by
    refine ended.closed [.await 0 .owned, .set 1] (by simp [chain]) [.await 0 .owned] 1 [] rfl ?_
    intro other hold member
    cases List.mem_singleton.mp member
    exact zero
  refine ⟨last, reached, idle, zero, one, fun two => ?_⟩
  have others : Closed chain (fun slot => slot ≠ 2) := by
    intro program member done slot rest split awaited
    have inside : Errand.set slot ∈ program := by simp [split]
    simp only [chain, List.mem_cons, List.not_mem_nil, or_false] at member
    rcases member with rfl | rfl | rfl | rfl
    · simp only [List.mem_cons, Errand.set.injEq, reduceCtorEq, List.not_mem_nil, false_or,
        or_false] at inside
      rw [inside]
      decide
    · simp only [List.mem_singleton, Errand.set.injEq] at inside
      rw [inside]
      decide
    · simp at inside
    · cases done with
      | nil => cases split
      | cons errand done =>
          obtain ⟨rfl, -⟩ := List.cons.inj split
          exact absurd rfl (awaited 2 .owned List.mem_cons_self)
  exact ended.least _ others 2 two rfl

end Latch.Pool
