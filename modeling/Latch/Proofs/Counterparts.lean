import Latch.Future.Asking
import Latch.Proofs.Accounts
import Latch.Proofs.Callbacks
import Latch.Proofs.Likeness
import Latch.Proofs.Release

/-!
# Calls in two runs

A call on events and waits, taken to its end: wakers only come back, and an external signal that is
asked gives a response. Made in two machines that differ in one hidden wait, such a call comes to
the same, whichever way the wakers are picked.
-/

set_option autoImplicit false

namespace Latch

variable {ω σ ν : Type}

/-! ## Calls taken to their end -/

/-- What a call that is over has answered. The number of waiters that a poll saw is left out. -/
def Control.answer? : Control ω σ → Option (Except Panic Reply)
  | .done (.polled answer state) => some (.ok (.polled answer { state with waiting := 0 }))
  | .done reply => some (.ok reply)
  | .panicked panic => some (.error panic)
  | .wake _ | .ask _ => none

/-- A call that is about events and waits. -/
def Action.ofWaits : Action ω σ ν → Bool
  | .makeEvent | .setEvent _ | .makeWait .. | .poll .. | .drop _ | .race .. => true
  | .wake .. | .makeRegistry .. | .dropRegistry _ | .add .. | .update .. | .remove .. => false
  | .releaseAll _ | .releaseOne _ | .drain _ => false

namespace Future

/-- A poll taken to its end: the external signal that it asks for, if any, gives the response. -/
def Polled.finish (polled : Polled σ ω) (response : Response σ) : Polled σ ω :=
  match polled.progress with
  | .asks _ =>
      let resumed := polled.future.resume response polled.events
      { resumed with trace := polled.trace ++ resumed.trace }
  | .answered _ | .panicked _ => polled

theorem Polled.finish_ne_asks (polled : Polled σ ω) (response : Response σ) (signal : σ) :
    (polled.finish response).progress ≠ .asks signal := by
  unfold Polled.finish
  split
  · exact resume_ne_asks response polled.future polled.events signal
  · next answered => rw [answered]; nofun
  · next panicked => rw [panicked]; nofun

theorem Polled.finish_handles [Waker ω] {events : Events ω} {waits : List Wait}
    {polled : Polled σ ω}
    (handled : Handles events waits polled.trace polled.events polled.future.waits)
    (response : Response σ) :
    Handles events waits (polled.finish response).trace (polled.finish response).events
      (polled.finish response).future.waits := by
  unfold Polled.finish
  split
  · exact handled.trans (resume_handles response polled.future polled.events)
  · exact handled
  · exact handled

theorem Polled.issued_le_finish [Waker ω] (polled : Polled σ ω) (response : Response σ)
    (id : EventId) :
    (polled.events.get id).registry.issued ≤
      ((polled.finish response).events.get id).registry.issued := by
  unfold Polled.finish
  split
  · exact (resume_handles response polled.future polled.events).issued_le id
  · exact Nat.le_refl _
  · exact Nat.le_refl _

theorem Polled.Alike.finish {gap : Gap} {polled other : Polled σ ω} (alike : polled.Alike gap other)
    (response : Response σ) : (polled.finish response).Alike gap (other.finish response) := by
  have same := alike.progress
  have resumed : (polled.future.resume response polled.events).Alike gap
      ((polled.future.renumber gap).resume response other.events) :=
    resume_alike alike.events alike.clear
  rw [← alike.future] at resumed
  cases reached : polled.progress with
  | asks =>
      rw [reached] at same
      simpa only [Polled.finish, reached, same] using resumed.after alike.trace
  | answered | panicked =>
      rw [reached] at same
      simpa only [Polled.finish, reached, same] using alike

end Future

namespace Machine

variable [DecidableEq ν]

/-- A call is taken to its end: wakers only come back, and the external signal that is asked gives
the response. -/
inductive Ends (response : Response σ) :
    Turn ω σ ν → List ω → List (Occurrence ω) → Turn ω σ ν → Prop
  | finished {turn : Turn ω σ ν} (finished : turn.control.answer?.isSome = true) :
      Ends response turn [] turn.trace turn
  | woken {turn last : Turn ω σ ν} {waker : ω} {woken : List ω} {trace : List (Occurrence ω)}
      (wakes : turn.control = .wake waker) (choice : Nat)
      (later : Ends response (turn.machine.resume .ready choice) woken trace last) :
      Ends response turn (waker :: woken) (turn.trace ++ trace) last
  | asked {turn last : Turn ω σ ν} {signal : σ} {woken : List ω} {trace : List (Occurrence ω)}
      (asks : turn.control = .ask signal) (choice : Nat)
      (later : Ends response (turn.machine.resume response choice) woken trace last) :
      Ends response turn woken (turn.trace ++ trace) last

variable {response : Response σ} {machine : Machine ω σ ν} {woken : List ω}
  {trace : List (Occurrence ω)} {turn last : Turn ω σ ν}

theorem Ends.of_over (ends : Ends response turn woken trace last)
    (finished : turn.control.answer?.isSome = true) :
    woken = [] ∧ trace = turn.trace ∧ last = turn := by
  cases ends with
  | finished => exact ⟨rfl, rfl, rfl⟩
  | woken wakes =>
      rw [wakes] at finished
      cases finished
  | asked asks =>
      rw [asks] at finished
      cases finished

theorem Ends.told (ends : Ends response turn woken trace last) (told : Occurrence ω) :
    ∃ final, Ends response { turn with trace := told :: turn.trace } woken (told :: trace)
      final := by
  cases ends with
  | finished finished => exact ⟨_, .finished finished⟩
  | woken wakes choice later => exact ⟨last, .woken wakes choice later⟩
  | asked asks choice later => exact ⟨last, .asked asks choice later⟩

theorem Ends.of_told {told : Occurrence ω}
    (ends : Ends response { turn with trace := told :: turn.trace } woken trace last) :
    ∃ rest final, Ends response turn woken rest final ∧ trace = told :: rest ∧
      last.machine = final.machine ∧ last.control = final.control := by
  cases ends with
  | finished finished => exact ⟨_, turn, .finished finished, rfl, rfl, rfl⟩
  | woken wakes choice later => exact ⟨_, last, .woken wakes choice later, rfl, rfl, rfl⟩
  | asked asks choice later => exact ⟨_, last, .asked asks choice later, rfl, rfl, rfl⟩

theorem Ends.of_continueSet {event : EventId} {released choice : Nat}
    {remaining : List (Token × ω)}
    (ends : Ends response (machine.continueSet event released remaining choice) woken trace last) :
    ∃ order : List (Token × ω), order.Perm remaining ∧ woken = order.map Prod.snd ∧
      trace = order.map (wakeOf event) ++ [.eventSet event released] ∧
      last.machine = machine ∧ last.control = .done .nothing := by
  -- Each waker that comes back leaves a call of the same kind with one waiter less.
  generalize start : machine.continueSet event released remaining choice = turn at ends
  induction ends generalizing remaining choice with
  | @finished turn finished =>
      subst start
      by_cases waiting : remaining = []
      · subst waiting
        exact ⟨[], .refl _, rfl, rfl, rfl, rfl⟩
      · obtain ⟨entry, rest, all, same⟩ :=
          machine.continueSet_of_ne_nil event released choice waiting
        rw [same] at finished
        cases finished
  | @woken turn last waker woken trace wakes pick later ih =>
      subst start
      by_cases waiting : remaining = []
      · subst waiting
        cases wakes
      · obtain ⟨entry, rest, all, same⟩ :=
          machine.continueSet_of_ne_nil event released choice waiting
        rw [same] at wakes later ih ⊢
        cases wakes
        have goesOn : (machine.push (.setting event released rest)).resume .ready pick =
            machine.continueSet event released rest pick := rfl
        obtain ⟨order, perm, names, told, ended, control⟩ := ih goesOn.symm
        refine ⟨entry :: order, (perm.cons entry).trans all.symm, ?_, ?_, ended, control⟩
        · rw [names]
          rfl
        · rw [told]
          rfl
  | @asked turn last signal woken trace asks pick later ih =>
      subst start
      by_cases waiting : remaining = []
      · subst waiting
        cases asks
      · obtain ⟨entry, rest, all, same⟩ :=
          machine.continueSet_of_ne_nil event released choice waiting
        rw [same] at asks
        cases asks

theorem exists_ends_continueSet (machine : Machine ω σ ν) (response : Response σ)
    (event : EventId) (released choice : Nat) (remaining : List (Token × ω)) :
    ∃ woken trace last,
      Ends response (machine.continueSet event released remaining choice) woken trace last := by
  induction size : remaining.length generalizing remaining choice with
  | zero =>
      cases List.eq_nil_of_length_eq_zero size
      exact ⟨[], _, _, .finished rfl⟩
  | succ count ih =>
      have waiting : remaining ≠ [] := List.ne_nil_of_length_eq_add_one size
      obtain ⟨entry, rest, all, same⟩ := machine.continueSet_of_ne_nil event released choice waiting
      have shorter : rest.length = count := by
        have longer := all.length_eq.symm.trans size
        exact Nat.succ.inj longer
      obtain ⟨woken, trace, last, later⟩ := ih 0 rest shorter
      rw [same]
      exact ⟨_, _, _, .woken rfl 0 later⟩

theorem afterPoll_over (name : ν) (event : EventId) (waker : ω) {polled : Future.Polled σ ω}
    (unasked : ∀ signal, polled.progress ≠ .asks signal) :
    (machine.afterPoll name event waker polled).control.answer?.isSome = true := by
  have stored := store_spec { machine with events := polled.events } name ⟨event, polled.future⟩
  unfold afterPoll
  cases reached : polled.progress with
  | answered answer =>
      obtain ⟨-, -, same | ⟨panic, same⟩⟩ :=
        stored (.done (.polled answer (polled.events.state event)))
      · simp only [same, Control.answer?, Option.isSome_some]
      · simp only [same, Control.answer?, Option.isSome_some]
  | panicked panic =>
      obtain ⟨-, -, same | ⟨other, same⟩⟩ := stored (.panicked panic)
      · simp only [same, Control.answer?, Option.isSome_some]
      · simp only [same, Control.answer?, Option.isSome_some]
  | asks signal => exact absurd reached (unasked signal)

/-- A poll is over at once, unless it asks for a signal. -/
theorem exists_ends_afterPoll (machine : Machine ω σ ν) (response : Response σ) (name : ν)
    (event : EventId) (waker : ω) (polled : Future.Polled σ ω) :
    ∃ woken trace last,
      Ends response (machine.afterPoll name event waker polled) woken trace last := by
  cases reached : polled.progress with
  | asks signal =>
      have asks : (machine.afterPoll name event waker polled).control = .ask signal := by
        simp only [afterPoll, reached]
      have calls : (machine.afterPoll name event waker polled).machine.calls =
          .polling name ⟨event, polled.future⟩ waker :: machine.calls := by
        simp only [afterPoll, reached, push]
      refine ⟨[], _, _, .asked asks 0 (.finished ?_)⟩
      rw [resume_polling calls]
      exact afterPoll_over name event waker (Future.resume_ne_asks response _ _)
  | answered | panicked =>
      refine ⟨[], _, _, .finished (afterPoll_over name event waker ?_)⟩
      intro signal asks
      rw [reached] at asks
      cases asks

/-- A poll that asks for a signal goes on with its response, and is over then. -/
theorem Ends.of_afterPoll {name : ν} {event : EventId} {waker : ω} {polled : Future.Polled σ ω}
    (ends : Ends response (machine.afterPoll name event waker polled) woken trace last) :
    woken = [] ∧
      trace = (machine.afterPoll name event waker (polled.finish response)).trace ∧
      last.machine = (machine.afterPoll name event waker (polled.finish response)).machine ∧
      last.control = (machine.afterPoll name event waker (polled.finish response)).control := by
  have finished := machine.afterPoll_over name event waker (polled.finish_ne_asks response)
  cases reached : polled.progress with
  | answered | panicked =>
      have same : polled.finish response = polled := by simp only [Future.Polled.finish, reached]
      rw [same] at finished ⊢
      obtain ⟨woken, told, ended⟩ := ends.of_over finished
      exact ⟨woken, told, by rw [ended], by rw [ended]⟩
  | asks signal =>
      have asked : machine.afterPoll name event waker polled =
          { machine := push { machine with events := polled.events }
              (.polling name ⟨event, polled.future⟩ waker)
            trace := polled.trace ++ [], control := .ask signal } := by
        simp only [afterPoll, reached]
      have goesOn : polled.finish response =
          { polled.future.resume response polled.events with
            trace := polled.trace ++ (polled.future.resume response polled.events).trace } := by
        simp only [Future.Polled.finish, reached]
      rw [asked] at ends
      rw [goesOn] at finished ⊢
      cases ends with
      | finished none => cases none
      | woken wakes => cases wakes
      | asked _ choice later =>
          rw [resume_polling rfl] at later
          obtain ⟨woken, told, ended⟩ := later.of_over finished
          refine ⟨woken, ?_, by rw [ended]; rfl, by rw [ended]; rfl⟩
          rw [told, List.append_nil]
          exact (List.append_assoc _ _ _).symm

variable [Waker ω]

theorem Ends.runs (ends : Ends response turn woken trace last) {history : List (Occurrence ω)}
    (run : Run (history ++ turn.trace) turn.machine) : Run (history ++ trace) last.machine := by
  induction ends generalizing history with
  | finished => exact run
  | woken _ choice _ ih =>
      rw [← List.append_assoc]
      exact ih (run.step (.resume .ready choice))
  | asked _ choice _ ih =>
      rw [← List.append_assoc]
      exact ih (run.step (.resume response choice))

theorem Ends.run {history : List (Occurrence ω)} {action : Action ω σ ν} {choice : Nat}
    (ends : Ends response (machine.perform choice action) woken trace last)
    (run : Run history machine) : Run (history ++ trace) last.machine :=
  ends.runs (run.step (.perform choice action))

/-- A poll taken to its end in one step. -/
def completePoll (machine : Machine ω σ ν) (response : Response σ) (name : ν) (waker : ω) :
    Turn ω σ ν :=
  match machine.futures.get? name with
  | none => machine.idle
  | some holding =>
      { machine with futures := machine.futures.erase name }.afterPoll name holding.event waker
        ((holding.future.poll waker machine.events).finish response)

/-- A call that sets no event, taken to its end in one step. -/
def complete (machine : Machine ω σ ν) (response : Response σ) (choice : Nat)
    (action : Action ω σ ν) : Turn ω σ ν :=
  match action with
  | .poll name waker => machine.completePoll response name waker
  | action => machine.perform choice action

section

variable {choice : Nat} {action : Action ω σ ν}

theorem complete_over (ofWaits : action.ofWaits = true)
    (unset : ∀ event, action ≠ .setEvent event) :
    (machine.complete response choice action).control.answer?.isSome = true := by
  cases action with
  | makeEvent => rfl
  | setEvent event => exact absurd rfl (unset event)
  | makeWait name event hold =>
      obtain ⟨-, -, same | ⟨panic, same⟩⟩ :=
        store_spec { machine with events := (Wait.make machine.events event hold).2 } name
          ⟨event, .plain (Wait.make machine.events event hold).1⟩ (.done .nothing)
      · simp only [complete, perform, makeWait, same, Control.answer?, Option.isSome_some]
      · simp only [complete, perform, makeWait, same, Control.answer?, Option.isSome_some]
  | poll name waker =>
      simp only [complete, completePoll]
      cases machine.futures.get? name with
      | none => rfl
      | some holding =>
          exact afterPoll_over name holding.event waker (Future.Polled.finish_ne_asks _ response)
  | drop name =>
      simp only [complete, perform, dropFuture]
      cases machine.futures.get? name with
      | none => rfl
      | some holding =>
          simp only [discard]
          split <;> rfl
  | race name signal =>
      simp only [complete, perform, raceFuture]
      split
      · split <;> rfl
      · rfl
  | wake | makeRegistry | dropRegistry | add | update | remove | releaseAll | releaseOne | drain =>
      cases ofWaits

theorem complete_works (ofWaits : action.ofWaits = true)
    (unset : ∀ event, action ≠ .setEvent event) :
    Works machine action.names [] (machine.complete response choice action) := by
  cases action with
  | poll name waker =>
      simp only [complete, completePoll]
      cases found : machine.futures.get? name with
      | none => exact machine.idle_works [name]
      | some holding =>
          have polled := holding.future.poll_handles waker machine.events
          apply Works.of_erase found
          exact afterPoll_works { machine with futures := machine.futures.erase name } name
            holding.event waker (Future.Polled.finish_handles polled response)
  | makeEvent | setEvent | makeWait | drop | race => exact machine.perform_works choice unset
  | wake | makeRegistry | dropRegistry | add | update | remove | releaseAll | releaseOne | drain =>
      cases ofWaits

theorem Ends.of_complete (ends : Ends response (machine.perform choice action) woken trace last)
    (ofWaits : action.ofWaits = true) (unset : ∀ event, action ≠ .setEvent event) :
    woken = [] ∧ trace = (machine.complete response choice action).trace ∧
      last.machine = (machine.complete response choice action).machine ∧
      last.control = (machine.complete response choice action).control := by
  have finished : (machine.complete response choice action).control.answer?.isSome = true :=
    complete_over ofWaits unset
  cases action with
  | poll name waker =>
      simp only [perform, pollFuture] at ends
      simp only [complete, completePoll] at finished ⊢
      cases found : machine.futures.get? name with
      | none =>
          simp only [found] at ends finished ⊢
          obtain ⟨rfl, rfl, rfl⟩ := ends.of_over finished
          exact ⟨rfl, rfl, rfl, rfl⟩
      | some holding =>
          simp only [found] at ends
          exact ends.of_afterPoll
  | makeEvent | setEvent | makeWait | drop | race =>
      obtain ⟨rfl, rfl, rfl⟩ := ends.of_over finished
      exact ⟨rfl, rfl, rfl, rfl⟩
  | wake | makeRegistry | dropRegistry | add | update | remove | releaseAll | releaseOne | drain =>
      cases ofWaits

end

/-- Every call on events and waits comes to its end. -/
theorem exists_ends (machine : Machine ω σ ν) {action : Action ω σ ν}
    (ofWaits : action.ofWaits = true) (response : Response σ) (choice : Nat) :
    ∃ woken trace last, Ends response (machine.perform choice action) woken trace last := by
  have atOnce : (∀ event, action ≠ .setEvent event) →
      (machine.complete response choice action).control.answer?.isSome = true :=
    complete_over ofWaits
  cases action with
  | setEvent event =>
      simp only [perform, setEvent]
      obtain ⟨taken, tripped⟩ := (machine.events.get event).trip
      cases taken with
      | error => exact ⟨[], _, _, .finished rfl⟩
      | ok taken? =>
          cases taken? with
          | none => exact ⟨[], _, _, .finished rfl⟩
          | some registry =>
              obtain ⟨woken, trace, last, ends⟩ := exists_ends_continueSet
                { machine with events := machine.events.put event tripped } response event
                registry.size choice registry.entries
              obtain ⟨final, ends⟩ := ends.told (.releasingAll (some event) registry.size)
              exact ⟨woken, _, final, ends⟩
  | poll name waker =>
      simp only [perform, pollFuture]
      cases machine.futures.get? name with
      | none => exact ⟨[], _, _, .finished rfl⟩
      | some holding =>
          exact exists_ends_afterPoll _ response name holding.event waker _
  | makeEvent | makeWait | drop | race =>
      refine ⟨[], _, _, .finished (atOnce ?_)⟩
      intro event same
      cases same
  | wake | makeRegistry | dropRegistry | add | update | remove | releaseAll | releaseOne | drain =>
      cases ofWaits

end Machine

/-! ## Machines that differ in a hidden wait -/

def Holding.renumber (gap : Gap) (holding : Holding σ) : Holding σ :=
  { holding with future := holding.future.renumber gap }

section

variable [DecidableEq ν]

/-- Between calls, the futures under the names that can be seen are the same in both machines, and
so are the events, but for the hidden wait. -/
structure Machine.Alike (gap : Gap) (seen : ν → Prop) (machine other : Machine ω σ ν) :
    Prop where
  idle : machine.calls = []
  otherIdle : other.calls = []
  events : machine.events.Alike gap other.events
  futures : ∀ name, seen name →
    other.futures.get? name = (machine.futures.get? name).map (Holding.renumber gap)
  clear : ∀ name holding, seen name → machine.futures.get? name = some holding →
    ∀ wait ∈ holding.future.waits, gap.Clear wait

/-- Two calls that are over have come to the same. -/
structure Turn.Alike (gap : Gap) (seen : ν → Prop) (turn other : Turn ω σ ν) : Prop where
  machine : turn.machine.Alike gap seen other.machine
  trace : other.trace = turn.trace.map (Occurrence.renumber gap)
  answer : other.control.answer? = turn.control.answer?
  finished : turn.control.answer?.isSome = true

end

namespace Machine

variable [DecidableEq ν] {gap : Gap} {seen : ν → Prop} {machine other : Machine ω σ ν}

namespace Alike

theorem erase (alike : machine.Alike gap seen other) (name : ν) :
    Alike gap seen { machine with futures := machine.futures.erase name }
      { other with futures := other.futures.erase name } := by
  refine ⟨alike.idle, alike.otherIdle, alike.events, ?_, ?_⟩
  · intro own visible
    simp only [Table.get?_erase]
    split
    · rfl
    · exact alike.futures own visible
  · intro own holding visible found
    simp only [Table.get?_erase] at found
    split at found
    · cases found
    · exact alike.clear own holding visible found

theorem insert (alike : machine.Alike gap seen other) (name : ν) {holding : Holding σ}
    (clear : ∀ wait ∈ holding.future.waits, gap.Clear wait) :
    Alike gap seen { machine with futures := machine.futures.insert name holding }
      { other with futures := other.futures.insert name (holding.renumber gap) } := by
  refine ⟨alike.idle, alike.otherIdle, alike.events, ?_, ?_⟩
  · intro own visible
    simp only [Table.get?_insert]
    split
    · rfl
    · exact alike.futures own visible
  · intro own found visible there
    simp only [Table.get?_insert] at there
    split at there
    · cases there
      exact clear
    · exact alike.clear own found visible there

theorem reach (alike : machine.Alike gap seen other) {events otherEvents : Events ω}
    (reached : events.Alike gap otherEvents) :
    Alike gap seen { machine with events } { other with events := otherEvents } :=
  ⟨alike.idle, alike.otherIdle, reached, alike.futures, alike.clear⟩

theorem discard (alike : machine.Alike gap seen other) {future : Future σ}
    (clear : ∀ wait ∈ future.waits, gap.Clear wait) {control otherControl : Control ω σ}
    (answer : otherControl.answer? = control.answer?) (finished : control.answer?.isSome = true) :
    (machine.discard future control).Alike gap seen
      (other.discard (future.renumber gap) otherControl) := by
  have dropped := Future.drop_alike alike.events clear
  refine ⟨alike.reach dropped.events, dropped.trace, ?_, ?_⟩
  · simp only [Machine.discard, dropped.panic?]
    split
    · rfl
    · exact answer
  · simp only [Machine.discard]
    split
    · rfl
    · exact finished

theorem store (alike : machine.Alike gap seen other) {name : ν} (visible : seen name)
    {holding : Holding σ} (clear : ∀ wait ∈ holding.future.waits, gap.Clear wait)
    {control otherControl : Control ω σ} (answer : otherControl.answer? = control.answer?)
    (finished : control.answer?.isSome = true) :
    (machine.store name holding control).Alike gap seen
      (other.store name (holding.renumber gap) otherControl) := by
  have stored := alike.insert name clear
  have same := alike.futures name visible
  unfold Machine.store
  cases found : machine.futures.get? name with
  | none =>
      rw [found] at same
      simp only [same, Option.map_none]
      exact ⟨stored, rfl, answer, finished⟩
  | some previous =>
      rw [found] at same
      simp only [same, Option.map_some]
      exact stored.discard (alike.clear name previous visible found) answer finished

theorem afterPoll (alike : machine.Alike gap seen other) {name : ν} (visible : seen name)
    (event : EventId) (waker : ω) {polled otherPolled : Future.Polled σ ω}
    (same : polled.Alike gap otherPolled) (unasked : ∀ signal, polled.progress ≠ .asks signal) :
    (machine.afterPoll name event waker polled).Alike gap seen
      (other.afterPoll name event waker otherPolled) := by
  have state : (otherPolled.events.state event).isSet = (polled.events.state event).isSet :=
    same.events.flags event
  have stored : ∀ control otherControl : Control ω σ,
      otherControl.answer? = control.answer? → control.answer?.isSome = true →
        Turn.Alike gap seen
          (let turn := { machine with events := polled.events }.store name
            ⟨event, polled.future⟩ control
          { turn with trace := polled.trace ++ turn.trace })
          (let turn := { other with events := otherPolled.events }.store name
            ⟨event, otherPolled.future⟩ otherControl
          { turn with trace := otherPolled.trace ++ turn.trace }) := by
    intro control otherControl answer finished
    have holding : Holding.renumber gap ⟨event, polled.future⟩ = ⟨event, otherPolled.future⟩ := by
      rw [Holding.renumber, same.future]
    have clear : ∀ wait ∈ (Holding.mk event polled.future).future.waits, gap.Clear wait :=
      same.clear
    have ended := (alike.reach same.events).store visible clear answer finished
    rw [holding] at ended
    refine ⟨ended.machine, ?_, ended.answer, ended.finished⟩
    simp only [same.trace, ended.trace, List.map_append]
  have progress := same.progress
  cases reached : polled.progress with
  | answered answer =>
      rw [reached] at progress
      simp only [Machine.afterPoll, reached, progress]
      exact stored _ _ (by simp only [Control.answer?, state]) rfl
  | panicked panic =>
      rw [reached] at progress
      simp only [Machine.afterPoll, reached, progress]
      exact stored _ _ rfl rfl
  | asks signal => exact absurd reached (unasked signal)

theorem makeWait [Waker ω] (alike : machine.Alike gap seen other) {name : ν} (visible : seen name)
    (event : EventId) (hold : Hold) :
    (machine.makeWait name event hold).Alike gap seen (other.makeWait name event hold) := by
  obtain ⟨same, clear, events⟩ := Wait.make_alike alike.events event hold
  have single : ∀ wait ∈ (Holding.mk (σ := σ) event
      (.plain (Wait.make machine.events event hold).1)).future.waits, gap.Clear wait := by
    intro wait member
    rw [List.mem_singleton.mp member]
    exact clear
  exact (alike.reach events).store visible single rfl rfl

theorem dropFuture [Waker ω] (alike : machine.Alike gap seen other) {name : ν}
    (visible : seen name) :
    (machine.dropFuture name).Alike gap seen (other.dropFuture name) := by
  have same := alike.futures name visible
  unfold Machine.dropFuture
  cases found : machine.futures.get? name with
  | none =>
      rw [found] at same
      simp only [same, Option.map_none]
      exact ⟨alike, rfl, rfl, rfl⟩
  | some holding =>
      rw [found] at same
      simp only [same, Option.map_some]
      exact (alike.erase name).discard (alike.clear name holding visible found) rfl rfl

theorem makeEvent [Waker ω] (alike : machine.Alike gap seen other) :
    machine.makeEvent.Alike gap seen other.makeEvent := by
  have same := alike.events.next
  have created : machine.events.create.2.Alike gap other.events.create.2 := by
    refine ⟨?_, alike.events.flags, alike.events.free, alike.events.otherFree,
      alike.events.elsewhere, alike.events.hides⟩
    simp only [Events.create, same]
  refine ⟨alike.reach created, rfl, ?_, rfl⟩
  simp only [Machine.makeEvent, Events.create, Control.answer?, same]

theorem takeSignal? (alike : machine.Alike gap seen other) {signal : Signal σ ν}
    (visible : ∀ name ∈ signal.names, seen name) :
    (Machine.takeSignal? machine.futures signal = none ∧
      Machine.takeSignal? other.futures signal = none) ∨
    ∃ future rest otherRest,
      Machine.takeSignal? machine.futures signal = some (future, rest) ∧
        Machine.takeSignal? other.futures signal = some (future.renumber gap, otherRest) ∧
        (∀ wait ∈ future.waits, gap.Clear wait) ∧
        Alike gap seen { machine with futures := rest } { other with futures := otherRest } := by
  cases signal with
  | ready | never | external => exact .inr ⟨_, _, _, rfl, rfl, nofun, alike⟩
  | future name =>
      have there := visible name (List.mem_singleton_self name)
      have same := alike.futures name there
      cases found : machine.futures.get? name with
      | none =>
          rw [found] at same
          exact .inl ⟨by simp only [Machine.takeSignal?, found, Option.map_none],
            by simp only [Machine.takeSignal?, same, Option.map_none]⟩
      | some holding =>
          rw [found] at same
          simp only [Machine.takeSignal?, found, same, Option.map_some]
          exact .inr ⟨_, _, _, rfl, rfl, alike.clear name holding there found, alike.erase name⟩

theorem raceFuture [Waker ω] (alike : machine.Alike gap seen other) {name : ν}
    {signal : Signal σ ν} (visible : ∀ own ∈ name :: signal.names, seen own) :
    (machine.raceFuture name signal).Alike gap seen (other.raceFuture name signal) := by
  have there := visible name List.mem_cons_self
  have same := alike.futures name there
  have idle : Turn.Alike gap seen machine.idle other.idle := ⟨alike, rfl, rfl, rfl⟩
  unfold Machine.raceFuture
  cases found : machine.futures.get? name with
  | none =>
      rw [found] at same
      simp only [same, Option.map_none]
      exact idle
  | some holding =>
      rw [found] at same
      obtain ⟨event, future⟩ := holding
      have clear := alike.clear name _ there found
      cases future with
      | plain wait =>
          simp only [same, Option.map_some, Holding.renumber, Future.renumber]
          have others : ∀ own ∈ signal.names, seen own :=
            fun own member => visible own (List.mem_cons_of_mem _ member)
          rcases (alike.erase name).takeSignal? others with
            ⟨none, otherNone⟩ | ⟨inner, rest, otherRest, takes, otherTakes, inside, left⟩
          · simp only at none otherNone
            simp only [none, otherNone]
            exact idle
          · simp only at takes otherTakes
            simp only [takes, otherTakes]
            have both : ∀ own ∈ (Holding.mk event (.race (some wait) inner)).future.waits,
                gap.Clear own := by
              intro own member
              rcases List.mem_cons.mp member with rfl | member
              · exact clear _ List.mem_cons_self
              · exact inside own member
            exact ⟨left.insert name both, rfl, rfl, rfl⟩
      | race | ready | never | external =>
          simp only [same, Option.map_some, Holding.renumber, Future.renumber]
          exact idle

end Alike

theorem Alike.complete [Waker ω] (alike : machine.Alike gap seen other) {action : Action ω σ ν}
    (ofWaits : action.ofWaits = true) (unset : ∀ event, action ≠ .setEvent event)
    (visible : ∀ name ∈ action.names, seen name) (response : Response σ)
    (choice otherChoice : Nat)
    (few : ((machine.complete response choice action).machine.events.get
      gap.event).registry.issued ≤ Token.limit) :
    (machine.complete response choice action).Alike gap seen
      (other.complete response otherChoice action) := by
  cases action with
  | makeEvent => exact alike.makeEvent
  | setEvent event => exact absurd rfl (unset event)
  | makeWait name event hold => exact alike.makeWait (visible name List.mem_cons_self) event hold
  | drop name => exact alike.dropFuture (visible name List.mem_cons_self)
  | race name signal => exact alike.raceFuture visible
  | poll name waker =>
      have there := visible name List.mem_cons_self
      have same := alike.futures name there
      simp only [Machine.complete, completePoll] at few ⊢
      cases found : machine.futures.get? name with
      | none =>
          rw [found] at same
          simp only [same, Option.map_none]
          exact ⟨alike, rfl, rfl, rfl⟩
      | some holding =>
          rw [found] at same
          simp only [same, Option.map_some]
          simp only [found] at few
          have finished := issued_le_afterPoll
            { machine with futures := machine.futures.erase name } name holding.event waker
            ((holding.future.poll waker machine.events).finish response) gap.event
          have before :=
            (holding.future.poll waker machine.events).issued_le_finish response gap.event
          have polled : (holding.future.poll waker machine.events).Alike gap
              ((holding.future.renumber gap).poll waker other.events) :=
            Future.poll_alike alike.events (alike.clear name holding there found)
              (Nat.le_trans before (Nat.le_trans finished few))
          exact (alike.erase name).afterPoll there holding.event waker (polled.finish response)
            (Future.Polled.finish_ne_asks _ response)
  | wake | makeRegistry | dropRegistry | add | update | remove | releaseAll | releaseOne | drain =>
      cases ofWaits

/-! ## Setting an event -/

theorem Ends.of_setEvent [Waker ω] {id : EventId} {response : Response σ} {choice : Nat}
    {woken : List ω} {trace : List (Occurrence ω)} {last : Turn ω σ ν}
    (ends : Ends response (machine.setEvent id choice) woken trace last)
    (unset : (machine.events.get id).isSet = false)
    (free : (machine.events.get id).waiters.inUse = false) :
    ∃ order : List (Token × ω), order.Perm (machine.events.get id).registry.entries ∧
      woken = order.map Prod.snd ∧
      trace = .releasingAll (some id) (machine.events.get id).registry.size ::
        order.map (wakeOf id) ++ [.eventSet id (machine.events.get id).registry.size] ∧
      last.control = .done .nothing ∧
      last.machine =
        { machine with events := machine.events.put id (machine.events.get id).tripped } := by
  simp only [Machine.setEvent, Event.trip_of_unset unset free] at ends
  obtain ⟨rest, final, ended, rfl, reached, control⟩ := ends.of_told
  obtain ⟨order, perm, names, told, same, done⟩ := ended.of_continueSet
  refine ⟨order, perm, names, ?_, control.trans done, reached.trans same⟩
  rw [told]
  rfl

end Machine

namespace Occurrence

theorem message?_renumber (gap : Gap) {occurrence : Occurrence ω}
    (early : ∀ token, occurrence = .withdrawn gap.event token → token.skip gap.hidden = token) :
    (occurrence.renumber gap).message? tokenText = occurrence.message? tokenText := by
  cases occurrence with
  | withdrawn event token =>
      by_cases here : event = gap.event
      · subst here
        simp only [renumber, Gap.renumber, if_true, early token rfl]
      · simp only [renumber, Gap.renumber, if_neg here]
  | woken event? token waker => cases event? <;> rfl
  | registered | refreshed | exchanged | cancelled | releasingAll | releasingOne | eventSet => rfl

/-- Renumbering makes no difference to messages that tell of no renumbered token. -/
theorem messages_renumber (gap : Gap) {trace : List (Occurrence ω)}
    (early : ∀ token, .withdrawn gap.event token ∈ trace → token.skip gap.hidden = token) :
    messages (trace.map (renumber gap)) = messages trace := by
  induction trace with
  | nil => rfl
  | cons occurrence rest ih =>
      have first := message?_renumber gap fun token (same : occurrence = _) =>
        early token (same ▸ List.mem_cons_self)
      have others := ih fun token member => early token (List.mem_cons_of_mem _ member)
      unfold messages at others ⊢
      rw [List.map_cons, List.filterMap_cons, List.filterMap_cons, first, others]

end Occurrence

namespace Machine

variable [DecidableEq ν] {gap : Gap} {seen : ν → Prop} {machine other : Machine ω σ ν}

/-- Setting an event wakes the same waiters if the hidden wait is not registered with it. -/
theorem Alike.setEvent [Waker ω] (alike : machine.Alike gap seen other) {id : EventId}
    (absent : id = gap.event → ∀ token, gap.hidden = some token →
      token ∉ (machine.events.get id).registry.members.keys)
    {response : Response σ} {choice otherChoice : Nat} {woken otherWoken : List ω}
    {trace otherTrace : List (Occurrence ω)} {last otherLast : Turn ω σ ν}
    (ends : Ends response (machine.setEvent id choice) woken trace last)
    (otherEnds : Ends response (other.setEvent id otherChoice) otherWoken otherTrace otherLast) :
    last.machine.Alike gap seen otherLast.machine ∧ otherWoken.Perm woken ∧
      Occurrence.messages otherTrace =
        Occurrence.messages (trace.map (Occurrence.renumber gap)) ∧
      otherLast.control.answer? = last.control.answer? := by
  have flag := alike.events.flags id
  cases set : (machine.events.get id).isSet with
  | true =>
      rw [set] at flag
      rw [setEvent_of_set set] at ends
      rw [setEvent_of_set flag] at otherEnds
      obtain ⟨rfl, rfl, rfl⟩ := ends.of_over rfl
      obtain ⟨rfl, rfl, rfl⟩ := otherEnds.of_over rfl
      exact ⟨alike, .refl _, rfl, rfl⟩
  | false =>
      rw [set] at flag
      have values : (other.events.get id).registry.members.values =
          (machine.events.get id).registry.members.values := by
        by_cases here : id = gap.event
        · have hides := alike.events.hides
          rw [← here] at hides
          exact hides.values_of_not_mem (absent here)
        · rw [alike.events.elsewhere id here]
      have size : (other.events.get id).registry.size = (machine.events.get id).registry.size :=
        alike.events.size_of_not_mem absent
      obtain ⟨order, perm, rfl, rfl, control, reached⟩ :=
        ends.of_setEvent set (alike.events.free id)
      obtain ⟨otherOrder, otherPerm, rfl, rfl, otherControl, otherReached⟩ :=
        otherEnds.of_setEvent flag (alike.events.otherFree id)
      refine ⟨?_, ?_, ?_, by rw [control, otherControl]⟩
      · rw [reached, otherReached]
        exact alike.reach (alike.events.trip id)
      · have same : (otherOrder.map Prod.snd).Perm (other.events.get id).registry.members.values :=
          otherPerm.map Prod.snd
        rw [values] at same
        exact same.trans (perm.map Prod.snd).symm
      · rw [Occurrence.messages_renumber, messages_release, messages_release, size]
        intro token told
        rcases List.mem_cons.mp told with equal | told
        · cases equal
        · rcases List.mem_append.mp told with told | told
          · obtain ⟨entry, -, equal⟩ := List.mem_map.mp told
            cases equal
          · cases List.mem_singleton.mp told

/-- A common call comes to the same, unless it sets the event of a hidden wait that is registered
with it. -/
theorem Alike.ends [Waker ω] (alike : machine.Alike gap seen other) {action : Action ω σ ν}
    (ofWaits : action.ofWaits = true) (visible : ∀ name ∈ action.names, seen name)
    (absent : action = .setEvent gap.event → ∀ token, gap.hidden = some token →
      token ∉ (machine.events.get gap.event).registry.members.keys)
    {response : Response σ} {choice otherChoice : Nat} {woken otherWoken : List ω}
    {trace otherTrace : List (Occurrence ω)} {last otherLast : Turn ω σ ν}
    (ends : Ends response (machine.perform choice action) woken trace last)
    (otherEnds : Ends response (other.perform otherChoice action) otherWoken otherTrace otherLast)
    (few : (last.machine.events.get gap.event).registry.issued ≤ Token.limit) :
    last.machine.Alike gap seen otherLast.machine ∧ otherWoken.Perm woken ∧
      Occurrence.messages otherTrace =
        Occurrence.messages (trace.map (Occurrence.renumber gap)) ∧
      otherLast.control.answer? = last.control.answer? := by
  by_cases sets : ∃ event, action = .setEvent event
  · obtain ⟨id, rfl⟩ := sets
    refine alike.setEvent ?_ ends otherEnds
    rintro rfl
    exact absent rfl
  · have unset : ∀ event, action ≠ .setEvent event := fun event same => sets ⟨event, same⟩
    obtain ⟨rfl, rfl, reached, control⟩ := ends.of_complete ofWaits unset
    rw [reached] at few
    have same := alike.complete ofWaits unset visible response choice otherChoice few
    obtain ⟨rfl, rfl, otherReached, otherControl⟩ := otherEnds.of_complete ofWaits unset
    rw [reached, otherReached, control, otherControl, same.trace]
    exact ⟨same.machine, .refl _, rfl, same.answer⟩

/-- A call leaves alone what it does not name, and the flags of events that it does not set. -/
theorem Ends.keeps [Waker ω] {action : Action ω σ ν} (ofWaits : action.ofWaits = true)
    (free : ∀ id, (machine.events.get id).waiters.inUse = false) {response : Response σ}
    {choice : Nat} {woken : List ω} {trace : List (Occurrence ω)} {last : Turn ω σ ν}
    (ends : Ends response (machine.perform choice action) woken trace last) :
    (∀ name, name ∉ action.names →
      last.machine.futures.get? name = machine.futures.get? name) ∧
      ∀ id, action ≠ .setEvent id →
        (last.machine.events.get id).isSet = (machine.events.get id).isSet := by
  by_cases sets : ∃ event, action = .setEvent event
  · obtain ⟨event, rfl⟩ := sets
    change Ends response (machine.setEvent event choice) woken trace last at ends
    cases set : (machine.events.get event).isSet with
    | true =>
        rw [setEvent_of_set set] at ends
        obtain ⟨rfl, rfl, rfl⟩ := ends.of_over rfl
        exact ⟨fun _ _ => rfl, fun _ _ => rfl⟩
    | false =>
        obtain ⟨-, -, -, -, -, reached⟩ := ends.of_setEvent set (free event)
        rw [reached]
        refine ⟨fun _ _ => rfl, fun id other => ?_⟩
        have different : id ≠ event := fun same => other (congrArg Action.setEvent same.symm)
        simp only [Events.get_put, if_neg different]
  · have unset : ∀ event, action ≠ .setEvent event := fun event same => sets ⟨event, same⟩
    have works : Works machine action.names [] (machine.complete response choice action) :=
      complete_works ofWaits unset
    obtain ⟨-, -, reached, -⟩ := ends.of_complete ofWaits unset
    rw [reached]
    exact ⟨works.kept, fun id _ => (works.handled (.refl _)).isSet id⟩

end Machine

end Latch
