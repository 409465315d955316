import Latch.Machine
import Latch.Pool.Work
import Latch.Proofs.Registration
import Mathlib.Data.List.Perm.Basic

/-!
# Errands

Tasks of a pool that only wait for events and set events. A poll takes such a task as far as it
gets: to the first event that it waits for in vain, or to its end. What it did on the way and what
it waits for can be read off its program and the events that are set. Each task registers with an
event once at most, so tokens do not repeat if there are no more tasks than tokens.
-/

set_option autoImplicit false

namespace Latch.Pool

/-! ## Waking tasks -/

theorem contains_wake {pool : Pool} {id other : TaskId}
    (scheduled : pool.schedule.contains other = true) :
    (pool.wake id).schedule.contains other = true := by
  unfold wake
  split
  · unfold Schedule.enqueue
    split
    · exact scheduled
    · simp only [Schedule.contains, List.contains_append, Bool.or_eq_true] at scheduled ⊢
      rcases scheduled with queued | new
      · exact .inl (.inl queued)
      · exact .inr new
  · exact scheduled

theorem contains_wake_self {pool : Pool} {id : TaskId} (pending : pool.isPending id = true) :
    (pool.wake id).schedule.contains id = true := by
  unfold wake
  rw [if_pos pending]
  unfold Schedule.enqueue
  split
  · assumption
  · simp [Schedule.contains]

theorem isPending_wake (pool : Pool) (id other : TaskId) :
    (pool.wake id).isPending other = pool.isPending other := by
  simp only [isPending, task?, tasks_wake]

theorem contains_foldl_wake (ids : List TaskId) (pool : Pool) (other : TaskId)
    (due : pool.schedule.contains other = true ∨ other ∈ ids ∧ pool.isPending other = true) :
    (ids.foldl wake pool).schedule.contains other = true := by
  induction ids generalizing pool with
  | nil =>
      rcases due with scheduled | ⟨member, -⟩
      · exact scheduled
      · cases member
  | cons id rest ih =>
      apply ih
      rcases due with scheduled | ⟨member, pending⟩
      · exact .inl (contains_wake scheduled)
      · rcases List.mem_cons.mp member with rfl | later
        · exact .inl (contains_wake_self pending)
        · exact .inr ⟨later, (pool.isPending_wake id other).trans pending⟩

theorem events_wake (pool : Pool) (id : TaskId) : (pool.wake id).events = pool.events := by
  unfold wake
  split <;> rfl

theorem slots_wake (pool : Pool) (id : TaskId) : (pool.wake id).slots = pool.slots := by
  unfold wake
  split <;> rfl

theorem foldl_wake_same (ids : List TaskId) (pool : Pool) :
    (ids.foldl wake pool).events = pool.events ∧ (ids.foldl wake pool).slots = pool.slots := by
  induction ids generalizing pool with
  | nil => exact ⟨rfl, rfl⟩
  | cons id rest ih =>
      obtain ⟨events, slots⟩ := ih (pool.wake id)
      exact ⟨events.trans (pool.events_wake id), slots.trans (pool.slots_wake id)⟩

/-- Setting an unset event sets it alone, and schedules the tasks whose wakers it held. -/
theorem setEvent_of_unset {pool : Pool} {waits : List Wait} (owned : Owned pool.events waits)
    {id : EventId} (unset : (pool.events.get id).isSet = false) :
    ∃ event, event.isSet = true ∧ Owned (pool.events.put id event) waits ∧
      (pool.setEvent id).events = pool.events.put id event ∧
      (pool.setEvent id).slots = pool.slots ∧
      ∀ other, pool.schedule.contains other = true ∨
        other ∈ (pool.events.get id).registry.members.values ∧ pool.isPending other = true →
        (pool.setEvent id).schedule.contains other = true := by
  obtain ⟨event, tripped, set, kept⟩ := owned.trip unset
  refine ⟨event, set, kept, ?_⟩
  unfold setEvent
  rw [tripped]
  simp only
  generalize told : (.releasingAll (some id) (pool.events.get id).registry.size ::
    (pool.events.get id).registry.entries.map fun entry =>
      Occurrence.woken (some id) entry.1 entry.2) = trace
  obtain ⟨events, slots⟩ := foldl_wake_same (pool.events.get id).registry.members.values
    (pool.record (pool.events.put id event) trace)
  have scheduled := contains_foldl_wake (pool.events.get id).registry.members.values
    (pool.record (pool.events.put id event) trace)
  exact ⟨events, slots, fun other due => scheduled other due⟩

theorem setEvent_of_set {pool : Pool} {id : EventId} (set : (pool.events.get id).isSet = true) :
    pool.setEvent id = pool := by
  simp only [setEvent, Event.trip, set, if_true]

/-! ## Polling plain waits -/

theorem outcome_of_poll {events : Events TaskId} {wait : Wait} {waits : List Wait}
    (owned : Owned events (wait :: waits)) (id : TaskId) :
    (wait.poll id events).outcome = .ok (events.get wait.event).isSet := by
  cases flag : (events.get wait.event).isSet with
  | true => rw [Wait.poll_of_set flag]
  | false =>
      obtain ⟨token, enrolment, registry, enrols, -⟩ := owned.enrols flag id
      rw [Wait.poll_of_unset flag (owned.free _) id enrols]

theorem poll_wait_same (wait : Wait) (id : TaskId) (events : Events TaskId) :
    (wait.poll id events).wait.event = wait.event ∧
      (wait.poll id events).wait.hold = wait.hold := by
  unfold Wait.poll
  simp only
  split
  · exact ⟨rfl, rfl⟩
  · split
    · exact ⟨rfl, rfl⟩
    · exact ⟨rfl, rfl⟩

theorem pollAwait_of_unset (pool : Pool) (id : TaskId) (slot : Nat) {wait : Wait}
    (pending : (wait.poll id pool.events).outcome = .ok false) :
    pool.pollAwait id (.future slot (.plain wait)) =
      (pool.record (wait.poll id pool.events).events (wait.poll id pool.events).trace,
        .pending (.future slot (.plain (wait.poll id pool.events).wait))) := by
  simp only [pollAwait, pollFuture, Future.poll, pending, answered]

theorem pollAwait_of_set (pool : Pool) (id : TaskId) (slot : Nat) {wait : Wait}
    (ready : (wait.poll id pool.events).outcome = .ok true) :
    pool.pollAwait id (.future slot (.plain wait)) =
      ((pool.record (wait.poll id pool.events).events (wait.poll id pool.events).trace).dropFuture
          (.plain (wait.poll id pool.events).wait),
        .ready ["waited " ++ toString slot]) := by
  simp only [pollAwait, pollFuture, Future.poll, ready, answered, note]

/-! ## Programs of errands -/

/-- A step that waits for an event or sets one, there being so many events. -/
inductive Errand (count : Nat) where
  | await (slot : Fin count) (hold : Hold)
  | set (slot : Fin count)

namespace Errand

variable {count : Nat}

def slot : Errand count → Fin count
  | await slot _ | set slot => slot

def step : Errand count → Step
  | await slot hold => .wait slot hold
  | set slot => .set slot

end Errand

def Task.waits (task : Task) : List Wait := task.await?.toList.flatMap Await.waits

variable {count : Nat}

def IsSet (pool : Pool) (slot : Fin count) : Prop := (pool.events.get ⟨slot⟩).isSet = true

/-- These errands are left of a task; it is about to begin the first of them, or waits on its
behalf. -/
inductive Task.At (task : Task) : List (Errand count) → Prop
  | between {left : List (Errand count)} (idle : task.await? = none)
      (program : task.program = left.map Errand.step) : At task left
  | waiting {slot : Fin count} {hold : Hold} {left : List (Errand count)} {wait : Wait}
      (awaits : task.await? = some (.future slot (.plain wait))) (event : wait.event = ⟨slot⟩)
      (held : wait.hold = hold) (program : task.program = left.map Errand.step) :
      At task (.await slot hold :: left)

/-- A task that cannot go on: it is finished, or registered with an unset event. -/
inductive Rests (events : Events TaskId) (id : TaskId) (task : Task) : List (Errand count) → Prop
  | finished (done : task.status = .done) (idle : task.await? = none)
      (program : task.program = []) : Rests events id task []
  | waiting {slot : Fin count} {hold : Hold} {left : List (Errand count)} {wait : Wait}
      (pending : task.status = .pending)
      (awaits : task.await? = some (.future slot (.plain wait))) (event : wait.event = ⟨slot⟩)
      (held : wait.hold = hold) (program : task.program = left.map Errand.step)
      (registered : wait.RegisteredFor events id) :
      Rests events id task (.await slot hold :: left)

/-- The errands that a task has done are those that its program had more; their events are set. -/
def HasDone (pool : Pool) (program left : List (Errand count)) : Prop :=
  ∃ done, program = done ++ left ∧ ∀ errand ∈ done, pool.IsSet errand.slot

/-- A task has followed its program. It rests, or is scheduled and goes on when it is polled. -/
def Follows (pool : Pool) (id : TaskId) (program : List (Errand count)) (task : Task) : Prop :=
  task.marked = false ∧ ∃ left, pool.HasDone program left ∧
    (Rests pool.events id task left ∨
      pool.schedule.contains id = true ∧ task.status = .pending ∧ task.At left)

/-- Events are closed under some programs if they have all those that a task sets after having
waited for events of theirs only. -/
def Closed (programs : List (List (Errand count))) (set : Fin count → Prop) : Prop :=
  ∀ program ∈ programs, ∀ done slot rest, program = done ++ .set slot :: rest →
    (∀ other hold, .await other hold ∈ done → set other) → set slot

variable {programs : List (List (Errand count))} {pool next : Pool} {id : TaskId} {task : Task}

/-- What holds while a task is out of the pool and has some waits in hand. There is a token left for
one wait in hand. -/
structure Around (programs : List (List (Errand count))) (pool : Pool) (id : TaskId)
    (waits : List Wait) : Prop where
  slots : ∀ slot : Fin count, pool.slot? slot = some ⟨slot⟩
  owned : Owned pool.events (waits ++ (pool.tasks.eraseIdx id.number).flatMap Task.waits)
  counted : Counted pool.events (waits ++ (pool.tasks.eraseIdx id.number).flatMap Task.waits)
  few : ((pool.tasks.eraseIdx id.number).flatMap Task.waits).length < Token.limit
  least : ∀ set, Closed programs set → ∀ slot, pool.IsSet slot → set slot
  size : pool.tasks.length = programs.length
  others : ∀ index program other, index ≠ id.number → programs[index]? = some program →
    pool.tasks[index]? = some other → pool.Follows ⟨index⟩ program other

theorem Task.waits_of_plain {slot : Nat} {wait : Wait}
    (awaits : task.await? = some (.future slot (.plain wait))) : task.waits = [wait] := by
  simp only [waits, awaits, Option.toList_some, List.flatMap_cons, List.flatMap_nil,
    Await.waits, Await.futures, Future.waits, List.append_nil]

theorem Task.waits_of_idle (idle : task.await? = none) : task.waits = [] := by
  simp only [waits, idle, Option.toList_none, List.flatMap_nil]

theorem Follows.length_waits_le {program : List (Errand count)}
    (follows : pool.Follows id program task) : task.waits.length ≤ 1 := by
  have plain : ∀ {slot : Nat} {wait : Wait}, task.await? = some (.future slot (.plain wait)) →
      task.waits.length ≤ 1 := by
    intro slot wait awaits
    rw [Task.waits_of_plain awaits]
    exact Nat.le_refl 1
  have idle : task.await? = none → task.waits.length ≤ 1 := by
    intro idle
    rw [Task.waits_of_idle idle]
    exact Nat.zero_le 1
  obtain ⟨-, left, -, rests | ⟨-, -, here⟩⟩ := follows
  · cases rests with
    | finished _ nothing => exact idle nothing
    | waiting _ awaits => exact plain awaits
  · cases here with
    | between nothing => exact idle nothing
    | waiting awaits => exact plain awaits

theorem length_flatMap_waits_le {tasks : List Task}
    (each : ∀ task ∈ tasks, task.waits.length ≤ 1) :
    (tasks.flatMap Task.waits).length ≤ tasks.length := by
  induction tasks with
  | nil => exact Nat.le_refl 0
  | cons task rest ih =>
      have first := each task List.mem_cons_self
      have others := ih fun other member => each other (List.mem_cons_of_mem _ member)
      rw [List.flatMap_cons, List.length_append, List.length_cons]
      omega

theorem mem_waits_eraseIdx {tasks : List Task} {index : Nat} (other : index ≠ id.number)
    (found : tasks[index]? = some task) {wait : Wait} (member : wait ∈ task.waits) :
    wait ∈ (tasks.eraseIdx id.number).flatMap Task.waits := by
  have there : task ∈ tasks.eraseIdx id.number :=
    List.mem_eraseIdx_iff_getElem?.mpr ⟨index, other, found⟩
  exact List.mem_flatMap.mpr ⟨task, there, member⟩

/-- A task keeps following its program if it is scheduled whenever its registration ends. -/
theorem Follows.mono {program : List (Errand count)} (follows : pool.Follows id program task)
    (sets : ∀ slot : Fin count, pool.IsSet slot → next.IsSet slot)
    (scheduled : pool.schedule.contains id = true → next.schedule.contains id = true)
    (registered : task.status = .pending → ∀ wait ∈ task.waits,
      wait.RegisteredFor pool.events id →
        wait.RegisteredFor next.events id ∨ next.schedule.contains id = true) :
    next.Follows id program task := by
  obtain ⟨unmarked, left, ⟨done, split, all⟩, stands⟩ := follows
  refine ⟨unmarked, left, ⟨done, split, fun errand member => sets _ (all errand member)⟩, ?_⟩
  rcases stands with rests | ⟨waiting, pending, here⟩
  · cases rests with
    | finished done idle program => exact .inl (.finished done idle program)
    | @waiting slot hold left wait pending awaits event held program before =>
        have member : wait ∈ task.waits := by
          rw [Task.waits_of_plain awaits]
          exact List.mem_singleton_self wait
        rcases registered pending wait member before with still | due
        · exact .inl (.waiting pending awaits event held program still)
        · exact .inr ⟨due, pending, .waiting awaits event held program⟩
  · exact .inr ⟨scheduled waiting, pending, here⟩

theorem HasDone.handled {program rest : List (Errand count)} {waits left : List Wait}
    {trace : List (Occurrence TaskId)} (done : pool.HasDone program rest)
    (handles : Handles pool.events waits trace next.events left) : next.HasDone program rest := by
  obtain ⟨before, split, all⟩ := done
  exact ⟨before, split, fun errand member => (handles.isSet _).trans (all errand member)⟩

theorem HasDone.further {program left : List (Errand count)} {errand : Errand count}
    (done : pool.HasDone program (errand :: left)) (isSet : pool.IsSet errand.slot) :
    pool.HasDone program left := by
  obtain ⟨before, rfl, all⟩ := done
  refine ⟨before ++ [errand], by simp, ?_⟩
  intro other member
  rcases List.mem_append.mp member with early | here
  · exact all other early
  · rw [List.mem_singleton.mp here]
    exact isSet

theorem Around.handled {waits left : List Wait} {trace : List (Occurrence TaskId)}
    (around : Around programs pool id waits)
    (handles : Handles pool.events waits trace next.events left)
    (counted : Counted next.events (left ++ (pool.tasks.eraseIdx id.number).flatMap Task.waits))
    (single : left.length ≤ 1) (tasks : next.tasks = pool.tasks) (slots : next.slots = pool.slots)
    (schedule : next.schedule = pool.schedule) : Around programs next id left where
  slots slot := by
    rw [slot?, slots]
    exact around.slots slot
  owned := by
    rw [tasks]
    exact around.owned.handled (handles.append _)
  counted := by
    rw [tasks]
    exact counted
  few := by
    rw [tasks]
    exact around.few
  least set closed slot isSet := by
    rw [IsSet, handles.isSet] at isSet
    exact around.least set closed slot isSet
  size := by
    rw [tasks]
    exact around.size
  others index program other different planned found := by
    rw [tasks] at found
    apply (around.others index program other different planned found).mono
    · intro slot isSet
      exact (handles.isSet _).trans isSet
    · intro scheduled
      rw [schedule]
      exact scheduled
    · intro _ wait member registered
      have few := counted.few ?_ ((handles.isSet wait.event).trans registered.1)
      · exact .inl (handles.registeredFor around.owned (mem_waits_eraseIdx different found member)
          registered few)
      · have others := around.few
        rw [List.length_append]
        omega

theorem isSet_setEvent {waits : List Wait} (owned : Owned pool.events waits) {slot : Fin count}
    (unset : (pool.events.get ⟨slot⟩).isSet = false) (other : Fin count) :
    (pool.setEvent ⟨slot⟩).IsSet other ↔ other = slot ∨ pool.IsSet other := by
  obtain ⟨event, set, -, events, -⟩ := setEvent_of_unset owned unset
  rw [IsSet, events, Events.get_put]
  split
  · next here =>
      have equal : other = slot := Fin.ext (congrArg EventId.number here)
      exact ⟨fun _ => .inl equal, fun _ => set⟩
  · next there =>
      have different : other ≠ slot := fun equal => there (by rw [equal])
      exact ⟨.inr, fun reached => reached.resolve_left different⟩

/-- Whoever is registered with the event that is set is woken; other registrations stay. -/
theorem setEvent_registeredFor {waits : List Wait} (owned : Owned pool.events waits)
    {event : EventId} (unset : (pool.events.get event).isSet = false)
    (pending : pool.isPending id = true) {wait : Wait}
    (registered : wait.RegisteredFor pool.events id) :
    wait.RegisteredFor (pool.setEvent event).events id ∨
      (pool.setEvent event).schedule.contains id = true := by
  obtain ⟨tripped, -, -, events, -, scheduled⟩ := setEvent_of_unset owned unset
  rw [events]
  rcases registered.put event tripped with still | ⟨stored, member, does⟩
  · exact .inl still
  · have owner : stored = id := of_decide_eq_true does
    exact .inr (scheduled id (.inr ⟨owner ▸ member, pending⟩))

/-- A task that comes to set an event leaves the others where they are, or schedules them. -/
theorem Around.set {program left : List (Errand count)} {slot : Fin count}
    (around : Around programs pool id []) (planned : programs[id.number]? = some program)
    (done : pool.HasDone program (.set slot :: left)) :
    Around programs (pool.setSlot slot) id [] ∧ (pool.setSlot slot).HasDone program left := by
  have same : pool.setSlot slot = pool.setEvent ⟨slot⟩ := by
    unfold setSlot
    rw [around.slots slot]
  rw [same]
  cases flag : (pool.events.get ⟨slot⟩).isSet with
  | true =>
      rw [setEvent_of_set flag]
      exact ⟨around, done.further flag⟩
  | false =>
      obtain ⟨event, set, kept, events, slots, scheduled⟩ := setEvent_of_unset around.owned flag
      have isSet : ∀ other : Fin count,
          (pool.setEvent ⟨slot⟩).IsSet other ↔ other = slot ∨ pool.IsSet other :=
        isSet_setEvent around.owned flag
      obtain ⟨before, split, all⟩ := done
      have still : (pool.setEvent ⟨slot⟩).HasDone program (.set slot :: left) :=
        ⟨before, split, fun errand member => (isSet _).mpr (.inr (all errand member))⟩
      refine ⟨⟨?_, ?_, ?_, ?_, ?_, ?_, ?_⟩, still.further ((isSet slot).mpr (.inl rfl))⟩
      · intro other
        rw [slot?, slots]
        exact around.slots other
      · rw [events, tasks_setEvent]
        exact kept
      · rw [events, tasks_setEvent]
        exact around.counted.put _ set
      · rw [tasks_setEvent]
        exact around.few
      · intro set closed other reached
        rcases (isSet other).mp reached with rfl | old
        · refine closed program (List.mem_of_getElem? planned) before other left split ?_
          intro awaited hold member
          exact around.least set closed awaited (all _ member)
        · exact around.least set closed other old
      · rw [tasks_setEvent]
        exact around.size
      · intro index program other different planned found
        rw [tasks_setEvent] at found
        apply (around.others index program other different planned found).mono
        · exact fun other old => (isSet other).mpr (.inr old)
        · exact fun old => scheduled _ (.inl old)
        · intro pending wait member registered
          have waiting : pool.isPending ⟨index⟩ = true := by
            rw [isPending, task?, found]
            exact decide_eq_true pending
          exact setEvent_registeredFor around.owned flag waiting registered

/-! ## Polling a task -/

theorem begin_wait {slot : Nat} {event : EventId} (there : pool.slot? slot = some event)
    (hold : Hold) :
    pool.begin (.wait slot hold) =
      { pool := { pool with events := (Wait.make pool.events event hold).2 }
        await? := some (.future slot (.plain (Wait.make pool.events event hold).1)) } := by
  simp only [begin, makeAwait?, makeWait?, there, Option.map_some]

/-- What the poll of a task leads to: the task rests, and the others are where they were. -/
structure Settled (programs : List (List (Errand count))) (program : List (Errand count))
    (tasks : List Task) (id : TaskId) (result : Pool × Task) : Prop where
  tasks : result.1.tasks = tasks
  around : Around programs result.1 id result.2.waits
  unmarked : result.2.marked = false
  rests : ∃ left, result.1.HasDone program left ∧ Rests result.1.events id result.2 left

theorem run_settled (pool : Pool) (id : TaskId) (task : Task) {program : List (Errand count)}
    (planned : programs[id.number]? = some program) (around : Around programs pool id task.waits)
    (here : ∃ left, pool.HasDone program left ∧ task.At left) (pending : task.status = .pending)
    (unmarked : task.marked = false) :
    Settled programs program pool.tasks id (pool.run id task) := by
  -- By the recursion of the run: `Around` carries the other tasks through each step of this one.
  fun_induction run pool id task with
  | case1 pool task await awaited polled next result =>
      obtain ⟨left, done, here⟩ := here
      cases here with
      | between idle => cases idle.symm.trans awaited
      | @waiting slot hold left wait awaits event held rest =>
          cases awaits.symm.trans awaited
          rw [Task.waits_of_plain awaits] at around
          have outcome := outcome_of_poll around.owned id
          obtain ⟨sameEvent, sameHold⟩ := poll_wait_same wait id pool.events
          cases flag : (pool.events.get wait.event).isSet with
          | true =>
              rw [flag] at outcome
              cases (pool.pollAwait_of_set id slot outcome).symm.trans result
          | false =>
              rw [flag] at outcome
              cases (pool.pollAwait_of_unset id slot outcome).symm.trans result
              have registered := Wait.registeredFor_of_poll around.owned outcome
              have handles : Handles pool.events [wait] _ _ [_] := .poll id wait
              have counted := around.counted.poll around.owned around.few id
              refine ⟨rfl, around.handled handles counted (Nat.le_refl 1) rfl rfl rfl, unmarked, _,
                done.handled handles, ?_⟩
              exact .waiting pending rfl (sameEvent.trans event) (sameHold.trans held) rest
                registered
  | case2 pool task await awaited polled log result ih =>
      obtain ⟨left, done, here⟩ := here
      cases here with
      | between idle => cases idle.symm.trans awaited
      | @waiting slot hold left wait awaits event held rest =>
          cases awaits.symm.trans awaited
          rw [Task.waits_of_plain awaits] at around
          have outcome := outcome_of_poll around.owned id
          cases flag : (pool.events.get wait.event).isSet with
          | false =>
              rw [flag] at outcome
              cases (pool.pollAwait_of_unset id slot outcome).symm.trans result
          | true =>
              rw [flag] at outcome
              cases (pool.pollAwait_of_set id slot outcome).symm.trans result
              have handles : Handles pool.events [wait] _ _ [] :=
                (Handles.poll id wait).trans (.drop (wait.poll id pool.events).wait)
              have isSet : pool.IsSet slot := by
                rw [IsSet, ← event]
                exact flag
              have unheld : (wait.poll id pool.events).wait.token = none := by
                rw [Wait.poll_of_set flag]
              have counted := (around.counted.poll around.owned around.few id).drop unheld
              exact ih (around.handled handles counted (Nat.zero_le 1) rfl rfl rfl)
                ⟨left, (done.further isSet).handled handles, .between rfl rest⟩ pending unmarked
  | case3 pool task awaited finished =>
      obtain ⟨left, done, here⟩ := here
      cases here with
      | waiting awaits => cases awaits.symm.trans awaited
      | between idle rest =>
          rw [finished] at rest
          cases List.map_eq_nil_iff.mp rest.symm
          rw [Task.waits_of_idle idle] at around
          exact ⟨rfl, around, unmarked, [], done, .finished rfl rfl rfl⟩
  | case4 pool task awaited step rest coming begun ih =>
      obtain ⟨left, done, here⟩ := here
      cases here with
      | waiting awaits => cases awaits.symm.trans awaited
      | @between left idle shape =>
          rw [coming] at shape
          rw [Task.waits_of_idle idle] at around
          cases left with
          | nil => cases shape
          | cons errand left =>
              obtain ⟨rfl, rfl⟩ := List.cons.inj shape
              cases errand with
              | await slot hold =>
                  have begins : begun = _ := begin_wait (around.slots slot) hold
                  clear_value begun
                  subst begins
                  have handles : Handles pool.events [] _ _ [_] := .make ⟨slot⟩ hold
                  have counted := around.counted.make ⟨slot⟩ hold
                  exact ih (around.handled handles counted (Nat.le_refl 1) rfl rfl rfl)
                    ⟨_, done.handled handles, .waiting rfl rfl rfl rfl⟩ pending unmarked
              | set slot =>
                  obtain ⟨around, done⟩ := around.set planned done
                  have settled := ih around ⟨left, done, .between rfl rfl⟩ pending unmarked
                  exact { settled with tasks := settled.tasks.trans (pool.tasks_setSlot slot) }

/-- All tasks of a pool have followed their programs, and no more events are set than have to be. -/
structure Faithful (programs : List (List (Errand count))) (pool : Pool) : Prop where
  slots : ∀ slot : Fin count, pool.slot? slot = some ⟨slot⟩
  owned : Owned pool.events (pool.tasks.flatMap Task.waits)
  counted : Counted pool.events (pool.tasks.flatMap Task.waits)
  least : ∀ set, Closed programs set → ∀ slot, pool.IsSet slot → set slot
  size : pool.tasks.length = programs.length
  follows : ∀ index program task, programs[index]? = some program →
    pool.tasks[index]? = some task → pool.Follows ⟨index⟩ program task

theorem contains_unschedule {other : TaskId} (different : other ≠ id)
    (scheduled : pool.schedule.contains other = true) :
    (pool.unschedule id).schedule.contains other = true := by
  simp only [unschedule, Schedule.erase, Schedule.contains, Bool.or_eq_true, List.contains_iff_mem,
    List.mem_erase_of_ne different] at scheduled ⊢
  exact scheduled

theorem Follows.unschedule {program : List (Errand count)} {other : TaskId}
    (follows : pool.Follows other program task) (different : other ≠ id) :
    (pool.unschedule id).Follows other program task :=
  follows.mono (fun _ isSet => isSet) (contains_unschedule different)
    fun _ _ _ registered => .inl registered

theorem Faithful.length_waits_le (faithful : Faithful programs pool)
    (member : task ∈ pool.tasks) : task.waits.length ≤ 1 := by
  obtain ⟨index, inside, found⟩ := List.mem_iff_getElem.mp member
  have planned := List.getElem?_eq_getElem (faithful.size ▸ inside)
  exact (faithful.follows index _ _ planned
    (List.getElem?_eq_some_iff.mpr ⟨inside, found⟩)).length_waits_le

theorem waits_perm_eraseIdx {tasks : List Task} (found : tasks[id.number]? = some task) :
    (tasks.flatMap Task.waits).Perm
      (task.waits ++ (tasks.eraseIdx id.number).flatMap Task.waits) := by
  obtain ⟨inside, rfl⟩ := List.getElem?_eq_some_iff.mp found
  exact (List.getElem_cons_eraseIdx_perm inside).symm.flatMap_right _

theorem waits_perm_setTask (inside : id.number < pool.tasks.length) (task : Task) :
    ((pool.setTask id task).tasks.flatMap Task.waits).Perm
      (task.waits ++ (pool.tasks.eraseIdx id.number).flatMap Task.waits) := by
  have split := waits_perm_eraseIdx (List.getElem?_set_self (a := task) inside)
  rwa [List.eraseIdx_set_eq] at split

theorem Faithful.around (faithful : Faithful programs pool) (few : programs.length ≤ Token.limit)
    (found : pool.tasks[id.number]? = some task) :
    Around programs (pool.unschedule id) id task.waits where
  slots := faithful.slots
  owned := faithful.owned.perm (waits_perm_eraseIdx found)
  counted := faithful.counted.perm (waits_perm_eraseIdx found)
  few := by
    have inside := (List.getElem?_eq_some_iff.mp found).1
    have erased := List.length_eraseIdx_of_lt inside
    have waits : ((pool.tasks.eraseIdx id.number).flatMap Task.waits).length ≤ _ :=
      length_flatMap_waits_le fun other member =>
        faithful.length_waits_le (List.mem_of_mem_eraseIdx member)
    have size := faithful.size
    simp only [unschedule]
    omega
  least := faithful.least
  size := faithful.size
  others index program other different planned there :=
    (faithful.follows index program other planned there).unschedule fun same =>
      different (congrArg TaskId.number same)

theorem Around.faithful {program : List (Errand count)}
    (around : Around programs pool id task.waits)
    (planned : programs[id.number]? = some program)
    (own : (pool.setTask id task).Follows id program task) :
    Faithful programs (pool.setTask id task) where
  slots := around.slots
  owned := by
    have inside := (List.getElem?_eq_some_iff.mp planned).1
    exact around.owned.perm (waits_perm_setTask (around.size ▸ inside) task).symm
  counted := by
    have inside := (List.getElem?_eq_some_iff.mp planned).1
    exact around.counted.perm (waits_perm_setTask (around.size ▸ inside) task).symm
  least := around.least
  size := by
    rw [setTask, List.length_set]
    exact around.size
  follows index other given coming found := by
    by_cases here : index = id.number
    · subst here
      cases planned.symm.trans coming
      have inside : id.number < pool.tasks.length := by
        rw [around.size]
        exact (List.getElem?_eq_some_iff.mp planned).1
      cases (List.getElem?_set_self inside).symm.trans found
      exact own
    · rw [setTask, List.getElem?_set_ne (Ne.symm here)] at found
      exact (around.others index other given here coming found).mono (fun _ isSet => isSet)
        (fun scheduled => scheduled) fun _ _ _ registered => .inl registered

theorem Faithful.poll (faithful : Faithful programs pool) (few : programs.length ≤ Token.limit)
    (id : TaskId) : Faithful programs (pool.poll id) := by
  have unscheduled : (∀ program task, programs[id.number]? = some program →
      pool.tasks[id.number]? = some task → (pool.unschedule id).Follows id program task) →
      Faithful programs (pool.unschedule id) := by
    intro own
    refine ⟨faithful.slots, faithful.owned, faithful.counted, faithful.least, faithful.size, ?_⟩
    intro index program task planned found
    by_cases here : index = id.number
    · subst here
      exact own program task planned found
    · exact (faithful.follows index program task planned found).unschedule fun same =>
        here (congrArg TaskId.number same)
  unfold Pool.poll
  simp only
  split
  · next absent =>
      apply unscheduled
      intro program task planned found
      cases found.symm.trans absent
  · next task found =>
      have inside : id.number < programs.length := by
        rw [← faithful.size]
        exact (List.getElem?_eq_some_iff.mp found).1
      have planned := List.getElem?_eq_getElem inside
      obtain ⟨unmarked, left, done, stands⟩ := faithful.follows _ _ _ planned found
      split
      · next pending =>
          have here : task.At left := by
            rcases stands with rests | ⟨-, -, here⟩
            · cases rests with
              | finished ended => cases pending.symm.trans ended
              | waiting _ awaits event held program => exact .waiting awaits event held program
            · exact here
          rw [if_neg (Bool.eq_false_iff.mp unmarked)]
          have settled := run_settled (pool.unschedule id) id task planned
            (faithful.around few found) ⟨left, done, here⟩ pending unmarked
          generalize (pool.unschedule id).run id task = result at settled
          obtain ⟨ran, after⟩ := result
          obtain ⟨tasks, around, unmarkedToo, left, done, rests⟩ := settled
          have nobody : (ran.task? id).any Task.marked = false := by
            have same : ran.task? id = some task := (congrArg (·[id.number]?) tasks).trans found
            rw [same]
            exact unmarked
          simp only [nobody, Bool.and_false, Bool.false_eq_true, if_false]
          exact around.faithful planned ⟨unmarkedToo, left, done, .inl rests⟩
      all_goals
        next ended =>
          apply unscheduled
          intro program other coming there
          cases planned.symm.trans coming
          cases found.symm.trans there
          refine ⟨unmarked, left, done, ?_⟩
          rcases stands with rests | ⟨-, pending, -⟩
          · exact .inl rests
          · cases pending.symm.trans ended

end Latch.Pool
