import Latch.Inspection
import Latch.Proofs.Incidents

/-!
# Guards

A step of a machine comes down to incidents, and every guard that could stop one of them lets it
pass, whatever the callbacks do: no wait is registered with a set event, none is registered a second
time, and nobody finds a registry in use.
-/

set_option autoImplicit false

namespace Latch

variable {ω σ ν : Type}

/-- The call of foreign code that a step stops at. -/
def Control.callback? : Control ω σ → Option (Incident ω σ)
  | wake waker => some (.wake waker)
  | ask signal => some (.ask signal)
  | done _ | panicked _ => none

/-- A step comes down to incidents that all pass. A callback is the last of them, and if the step
breaks off, that has an excuse. -/
structure Turn.Unhindered [Waker ω] (events : Events ω) (incidents : List (Incident ω σ))
    (excuses : Panic → Prop) (turn : Turn ω σ ν) : Prop where
  passes : Passes events incidents turn.trace turn.machine.events
  callback : ∀ callback, turn.control.callback? = some callback →
    ∃ before, incidents = before ++ [callback]
  excused : ∀ panic, turn.control = .panicked panic → excuses panic

/-- What was done before a step does not stop it either. -/
theorem Turn.Unhindered.after [Waker ω] {events middle : Events ω}
    {first second : List (Incident ω σ)} {before : List (Occurrence ω)} {excuses : Panic → Prop}
    {turn : Turn ω σ ν} (rest : turn.Unhindered middle second excuses)
    (head : Passes events first before middle) :
    Turn.Unhindered events (first ++ second) excuses
      { turn with trace := before ++ turn.trace } where
  passes := head.append rest.passes
  callback callback calls := by
    obtain ⟨earlier, same⟩ := rest.callback callback calls
    exact ⟨first ++ earlier, by rw [same, List.append_assoc]⟩
  excused := rest.excused

/-! ## Steps that leave the events alone -/

namespace Turn

/-- What a step comes to besides what it does to the events. -/
def asides (turn : Turn ω σ ν) : List (Incident ω σ) :=
  turn.trace.map .tell ++ turn.control.callback?.toList

/-- A step that does nothing to the events and tells of no registration. -/
structure Apart (events : Events ω) (excuses : Panic → Prop) (turn : Turn ω σ ν) : Prop where
  same : turn.machine.events = events
  silent : ∀ occurrence ∈ turn.trace, ∀ id, occurrence.enrols id = false
  excused : ∀ panic, turn.control = .panicked panic → excuses panic

variable {events : Events ω} {excuses : Panic → Prop} {turn : Turn ω σ ν}

theorem Apart.unhindered [Waker ω] {waits : List Wait} (apart : turn.Apart events excuses)
    (owned : Owned events waits) : turn.Unhindered events turn.asides excuses where
  passes := by
    have calls : Passes events turn.control.callback?.toList [] events := by
      cases turn.control with
      | wake waker => exact .single owned trivial rfl
      | ask signal => exact .single owned trivial rfl
      | done | panicked => exact .nothing
    have whole := (Passes.telling owned apart.silent).append calls
    rw [List.append_nil] at whole
    rw [apart.same]
    exact whole
  callback callback calls := ⟨turn.trace.map .tell, by rw [asides, calls]; rfl⟩
  excused := apart.excused

end Turn

namespace Machine

open Occurrence

/-- A call of its own accord breaks off for two reasons only: a race is polled that was settled, or
a registry is to have too much room. A call that goes on breaks off along with its callback. -/
def Move.excuses : Move ω σ ν → Panic → Prop
  | .perform _ _, panic => panic = .polledAfterCompletion ∨ panic = .capacityOverflow
  | .resume response _, panic => response = .panicked panic

variable {machine : Machine ω σ ν} {excuses : Panic → Prop}

theorem idle_apart (machine : Machine ω σ ν) : machine.idle.Apart machine.events excuses :=
  ⟨rfl, nofun, nofun⟩

theorem continueSet_apart (machine : Machine ω σ ν) (event : EventId) (released : Nat)
    (remaining : List (Token × ω)) (choice : Nat) :
    (machine.continueSet event released remaining choice).Apart machine.events excuses := by
  unfold continueSet
  split <;> exact ⟨rfl, by simp [enrols], by simp⟩

variable [DecidableEq ν]

theorem continueReleaseAll_apart (machine : Machine ω σ ν) (name : ν) (registry : Registry ω)
    (released : Nat) (remaining : List (Token × ω)) (choice : Nat) :
    (machine.continueReleaseAll name registry released remaining choice).Apart machine.events
      excuses := by
  unfold continueReleaseAll
  split <;> exact ⟨rfl, by simp [enrols], by simp⟩

theorem continueDrain_apart (machine : Machine ω σ ν) (name : ν) (registry : Registry ω)
    (released : List Token) (choice : Nat) :
    (machine.continueDrain name registry released choice).Apart machine.events excuses := by
  unfold continueDrain
  split <;> exact ⟨rfl, by simp [enrols], by simp⟩

theorem raceFuture_apart (machine : Machine ω σ ν) (name : ν) (signal : Signal σ ν) :
    (machine.raceFuture name signal).Apart machine.events excuses := by
  unfold raceFuture
  split
  · split
    · exact ⟨rfl, nofun, nofun⟩
    · exact machine.idle_apart
  · exact machine.idle_apart

/-- Of all calls on registries only one can break off, as it asks for too much room. -/
theorem makeRegistry_apart (machine : Machine ω σ ν) (name : ν) (capacity? : Option Nat)
    (full : excuses .capacityOverflow) :
    (machine.makeRegistry name capacity?).Apart machine.events excuses := by
  unfold makeRegistry
  split
  · exact ⟨rfl, nofun, nofun⟩
  · next capacity =>
      by_cases room : capacity < Registry.capacityLimit
      · simp only [Registry.withCapacity, if_pos room]
        exact ⟨rfl, nofun, nofun⟩
      · simp only [Registry.withCapacity, if_neg room]
        refine ⟨rfl, nofun, ?_⟩
        intro panic broken
        cases broken
        exact full

theorem addMember_apart (machine : Machine ω σ ν) (name : ν) (waker : ω) :
    (machine.addMember name waker).Apart machine.events excuses := by
  unfold addMember
  split
  · exact machine.idle_apart
  · exact ⟨rfl, nofun, nofun⟩

theorem removeMember_apart (machine : Machine ω σ ν) (name : ν) (token : Token) :
    (machine.removeMember name token).Apart machine.events excuses := by
  unfold removeMember
  split
  · exact machine.idle_apart
  · exact ⟨rfl, nofun, nofun⟩

theorem releaseAll_apart (machine : Machine ω σ ν) (name : ν) (choice : Nat) :
    (machine.releaseAll name choice).Apart machine.events excuses := by
  unfold releaseAll
  split
  · exact machine.idle_apart
  · next registry found =>
      have goesOn : Turn.Apart machine.events excuses _ :=
        (machine.withoutRegistry name).continueReleaseAll_apart name registry.emptied registry.size
          registry.entries choice
      refine ⟨goesOn.same, ?_, goesOn.excused⟩
      intro occurrence member
      rcases List.mem_cons.mp member with rfl | later
      · exact fun _ => rfl
      · exact goesOn.silent occurrence later

theorem releaseOne_apart (machine : Machine ω σ ν) (name : ν) (choice : Nat) :
    (machine.releaseOne name choice).Apart machine.events excuses := by
  unfold releaseOne
  split
  · exact machine.idle_apart
  · split
    · exact ⟨rfl, nofun, nofun⟩
    · exact ⟨rfl, by simp [enrols], nofun⟩

theorem drain_apart (machine : Machine ω σ ν) (name : ν) (choice : Nat) :
    (machine.drain name choice).Apart machine.events excuses := by
  unfold drain
  split
  · exact machine.idle_apart
  · next registry found =>
      exact (machine.withoutRegistry name).continueDrain_apart name registry [] choice

theorem updateMember_apart [Waker ω] (machine : Machine ω σ ν) (name : ν) (token : Token)
    (waker : ω) : (machine.updateMember name token waker).Apart machine.events excuses := by
  unfold updateMember
  split
  · exact machine.idle_apart
  · refine ⟨rfl, ?_, nofun⟩
    simp only
    split <;> simp [enrols]

/-! ## The incidents of a step

What a step comes to until it ends or stops at a callback. Only events and waits are followed; of a
call that concerns neither, what it tells and the callback that it stops at are all there is. -/

/-- The future under the name is dropped. -/
def clearing (machine : Machine ω σ ν) (name : ν) : List (Incident ω σ) :=
  match machine.futures.get? name with
  | none => []
  | some previous => previous.future.dropping

def setting (machine : Machine ω σ ν) (id : EventId) (choice : Nat) : List (Incident ω σ) :=
  if (machine.events.get id).isSet then [] else .trip id :: (machine.setEvent id choice).asides

def making (machine : Machine ω σ ν) (name : ν) (event : EventId) (hold : Hold) :
    List (Incident ω σ) :=
  match hold with
  | .borrowed => machine.clearing name
  | .owned => .hold event :: machine.clearing name

variable [Waker ω]

def polling (machine : Machine ω σ ν) (name : ν) (waker : ω) : List (Incident ω σ) :=
  match machine.futures.get? name with
  | none => []
  | some holding => holding.future.polling waker machine.events

def performing (machine : Machine ω σ ν) (choice : Nat) : Action ω σ ν → List (Incident ω σ)
  | .makeEvent => [.create]
  | .setEvent id => machine.setting id choice
  | .makeWait name event hold => machine.making name event hold
  | .poll name waker => machine.polling name waker
  | .drop name => machine.clearing name
  | action => (machine.perform choice action).asides

def resuming (machine : Machine ω σ ν) (response : Response σ) (choice : Nat) :
    List (Incident ω σ) :=
  match machine.calls with
  | .polling name holding _ :: _ =>
      holding.future.resuming response machine.events ++ machine.clearing name
  | _ => (machine.resume response choice).asides

def incidents (machine : Machine ω σ ν) : Move ω σ ν → List (Incident ω σ)
  | .perform choice action => machine.performing choice action
  | .resume response choice => machine.resuming response choice

/-! ## Futures -/

theorem store_unhindered (machine : Machine ω σ ν) (name : ν) (holding : Holding σ)
    {control : Control ω σ} {hand : List Wait}
    (owned : Owned machine.events (hand ++ machine.waits)) (quiet : control.callback? = none)
    (excused : ∀ panic, control = .panicked panic → excuses panic) :
    (machine.store name holding control).Unhindered machine.events (machine.clearing name)
      excuses := by
  have unbroken := store_unbroken machine name holding control owned
  refine ⟨?_, ?_, ?_⟩
  · unfold clearing store
    cases found : machine.futures.get? name with
    | none => exact .nothing
    | some previous =>
        have split := (waits_perm_of_get? found).append_left hand
        have front := owned.perm (split.trans (List.perm_append_comm_assoc _ _ _))
        exact Future.dropping_passes front
  · rw [unbroken, quiet]
    exact nofun
  · rw [unbroken]
    exact excused

/-- A poll that stops at a signal has nothing to put back, and finds nothing under the name. -/
theorem afterPoll_unhindered {events : Events ω} {incidents : List (Incident ω σ)} {name : ν}
    {event : EventId} {waker : ω} {polled : Future.Polled σ ω}
    (owned : Owned polled.events (polled.future.waits ++ machine.waits))
    (passes : Passes events incidents polled.trace polled.events)
    (asks : ∀ signal, polled.progress = .asks signal →
      machine.futures.get? name = none ∧ ∃ before, incidents = before ++ [.ask signal])
    (excused : ∀ panic, polled.progress = .panicked panic → excuses panic) :
    (machine.afterPoll name event waker polled).Unhindered events
      (incidents ++ machine.clearing name) excuses := by
  unfold afterPoll
  cases progress : polled.progress with
  | answered answer =>
      exact (store_unhindered { machine with events := polled.events } name ⟨event, polled.future⟩
        owned rfl (by simp)).after passes
  | panicked panic =>
      refine (store_unhindered { machine with events := polled.events } name ⟨event, polled.future⟩
        owned rfl ?_).after passes
      intro other broken
      cases broken
      exact excused panic progress
  | asks signal =>
      obtain ⟨gone, before, last⟩ := asks signal progress
      simp only [clearing, gone, List.append_nil]
      refine ⟨passes, ?_, by simp⟩
      intro callback calls
      cases calls
      exact ⟨before, last⟩

/-! ## Steps -/

omit [DecidableEq ν] in
theorem setEvent_unhindered (owned : Owned machine.events machine.waits) (id : EventId)
    (choice : Nat) :
    (machine.setEvent id choice).Unhindered machine.events (machine.setting id choice)
      excuses := by
  cases flag : (machine.events.get id).isSet with
  | true =>
      rw [setEvent_of_set flag]
      simp only [setting, flag, if_true]
      exact ⟨.nothing, nofun, nofun⟩
  | false =>
      have turn := setEvent_eq_of_unset (owned.free id) flag choice
      -- Whoever is woken finds the event set and its registry handed back already.
      have apart : (machine.setEvent id choice).Apart
          (machine.events.put id (machine.events.get id).tripped) excuses := by
        have goesOn : Turn.Apart (machine.events.put id (machine.events.get id).tripped) excuses
            _ := continueSet_apart
              { machine with events := machine.events.put id (machine.events.get id).tripped } id
              (machine.events.get id).registry.size (machine.events.get id).registry.entries choice
        rw [turn]
        refine ⟨goesOn.same, ?_, goesOn.excused⟩
        intro occurrence member
        rcases List.mem_cons.mp member with rfl | later
        · exact fun _ => rfl
        · exact goesOn.silent occurrence later
      have trips : Passes machine.events [(.trip id : Incident ω σ)] []
          (machine.events.put id (machine.events.get id).tripped) := by
        refine .single owned flag ?_
        simp only [Incident.happen, Event.trip_of_unset flag (owned.free id)]
      simp only [setting, flag, Bool.false_eq_true, if_false]
      exact (apart.unhindered (owned.tripped id)).after trips

theorem makeWait_unhindered (owned : Owned machine.events machine.waits) (name : ν)
    (event : EventId) (hold : Hold) :
    (machine.makeWait name event hold).Unhindered machine.events (machine.making name event hold)
      excuses := by
  have made : Owned (Wait.make machine.events event hold).2
      ([(Wait.make machine.events event hold).1] ++ machine.waits) := owned.make event hold
  have stored : (machine.makeWait name event hold).Unhindered
      (Wait.make machine.events event hold).2 (machine.clearing name) excuses :=
    store_unhindered { machine with events := (Wait.make machine.events event hold).2 } name _
      made rfl nofun
  cases hold with
  | borrowed => exact stored
  | owned =>
      have holds : Passes machine.events [(.hold event : Incident ω σ)] []
          (machine.events.modify event Event.hold) := .single owned trivial rfl
      exact stored.after holds

theorem pollFuture_unhindered (owned : Owned machine.events machine.waits) (name : ν) (waker : ω)
    (settled : excuses .polledAfterCompletion) :
    (machine.pollFuture name waker).Unhindered machine.events (machine.polling name waker)
      excuses := by
  unfold pollFuture polling
  cases found : machine.futures.get? name with
  | none => exact ⟨.nothing, nofun, nofun⟩
  | some holding =>
      have split := owned.perm (waits_perm_of_get? found)
      have after := split.handled ((holding.future.poll_handles waker machine.events).append _)
      have gone : (machine.futures.erase name).get? name = none := by
        rw [Table.get?_erase, if_pos rfl]
      have polled : ({ machine with futures := machine.futures.erase name }.afterPoll name
          holding.event waker (holding.future.poll waker machine.events)).Unhindered machine.events
          (holding.future.polling waker machine.events ++
            clearing { machine with futures := machine.futures.erase name } name) excuses := by
        refine afterPoll_unhindered after (Future.polling_passes split waker) ?_ ?_
        · exact fun signal asks => ⟨gone, Future.polling_of_asks asks⟩
        · intro panic broken
          rw [Future.poll_panicked split broken]
          exact settled
      rw [clearing, gone, List.append_nil] at polled
      exact polled

theorem dropFuture_unhindered (owned : Owned machine.events machine.waits) (name : ν) :
    (machine.dropFuture name).Unhindered machine.events (machine.clearing name) excuses := by
  unfold dropFuture clearing
  cases found : machine.futures.get? name with
  | none => exact ⟨.nothing, nofun, nofun⟩
  | some holding =>
      have split := owned.perm (waits_perm_of_get? found)
      have control := discard_unbroken { machine with futures := machine.futures.erase name }
        (.done .nothing : Control ω σ) split
      refine ⟨Future.dropping_passes split, ?_, ?_⟩
      · simp only [control]
        exact nofun
      · simp only [control]
        exact nofun

theorem perform_unhindered (owned : Owned machine.events machine.waits) (choice : Nat)
    (action : Action ω σ ν) :
    (machine.perform choice action).Unhindered machine.events (machine.performing choice action)
      (Move.excuses (.perform choice action)) := by
  cases action with
  | makeEvent => exact ⟨.single owned trivial rfl, nofun, nofun⟩
  | setEvent id => exact setEvent_unhindered owned id choice
  | makeWait name event hold => exact makeWait_unhindered owned name event hold
  | poll name waker => exact pollFuture_unhindered owned name waker (.inl rfl)
  | drop name => exact dropFuture_unhindered owned name
  | race name signal => exact (machine.raceFuture_apart name signal).unhindered owned
  | wake waker kept => exact Turn.Apart.unhindered ⟨rfl, nofun, nofun⟩ owned
  | makeRegistry name capacity? =>
      exact (machine.makeRegistry_apart name capacity? (.inr rfl)).unhindered owned
  | dropRegistry name => exact Turn.Apart.unhindered ⟨rfl, nofun, nofun⟩ owned
  | add name waker => exact (machine.addMember_apart name waker).unhindered owned
  | update name token waker => exact (machine.updateMember_apart name token waker).unhindered owned
  | remove name token => exact (machine.removeMember_apart name token).unhindered owned
  | releaseAll name => exact (machine.releaseAll_apart name choice).unhindered owned
  | releaseOne name => exact (machine.releaseOne_apart name choice).unhindered owned
  | drain name => exact (machine.drain_apart name choice).unhindered owned

theorem resume_polling_unhindered {name : ν} {holding : Holding σ} {waker : ω}
    {rest : List (Call ω σ ν)} (owned : Owned machine.events machine.waits)
    (calls : machine.calls = .polling name holding waker :: rest) (response : Response σ)
    (choice : Nat) :
    (machine.resume response choice).Unhindered machine.events (machine.resuming response choice)
      (Move.excuses (.resume response choice : Move ω σ ν)) := by
  have split := owned.perm (waits_perm_of_calls calls)
  have after := split.handled ((holding.future.resume_handles response machine.events).append _)
  rw [resume_polling calls, resuming, calls]
  refine afterPoll_unhindered after (Future.resuming_passes split response) ?_ ?_
  · exact fun signal asks => absurd asks (Future.resume_ne_asks response _ _ signal)
  · exact fun panic broken => Future.resume_panicked split broken

omit [Waker ω] in
/-- A call that polls no future does nothing to the events when it goes on. -/
theorem resume_apart {call : Call ω σ ν} {rest : List (Call ω σ ν)}
    (calls : machine.calls = call :: rest) (noPoll : call.polls? = none) (response : Response σ)
    (choice : Nat) :
    (machine.resume response choice).Apart machine.events
      (Move.excuses (.resume response choice : Move ω σ ν)) := by
  have breaks : ∀ {after : Machine ω σ ν} {panic : Panic}, after.events = machine.events →
      Turn.Apart machine.events (Move.excuses (.resume (.panicked panic) choice : Move ω σ ν))
        { machine := after, control := .panicked panic } := by
    intro after panic same
    refine ⟨same, nofun, ?_⟩
    intro other broken
    cases broken
    rfl
  unfold resume
  rw [calls]
  cases call with
  | polling => cases noPoll
  | setting event released remaining =>
      cases response with
      | panicked panic => exact breaks rfl
      | ready | pending => exact continueSet_apart { machine with calls := rest } _ _ _ _
  | releasingAll name registry released remaining =>
      cases response with
      | panicked panic => exact breaks rfl
      | ready | pending => exact continueReleaseAll_apart { machine with calls := rest } _ _ _ _ _
  | releasingOne name registry token =>
      cases response with
      | panicked panic => exact breaks rfl
      | ready | pending => exact ⟨rfl, nofun, nofun⟩
  | draining name registry released =>
      cases response with
      | panicked panic => exact breaks rfl
      | ready | pending => exact continueDrain_apart { machine with calls := rest } _ _ _ _
  | waking waker kept =>
      cases response with
      | panicked panic => exact breaks rfl
      | ready | pending => exact ⟨rfl, nofun, nofun⟩

theorem resume_unhindered (owned : Owned machine.events machine.waits) (response : Response σ)
    (choice : Nat) :
    (machine.resume response choice).Unhindered machine.events (machine.resuming response choice)
      (Move.excuses (.resume response choice : Move ω σ ν)) := by
  cases calls : machine.calls with
  | nil =>
      have idle : machine.resume response choice = machine.idle := by simp only [resume, calls]
      rw [resuming, calls, idle]
      exact machine.idle_apart.unhindered owned
  | cons call rest =>
      cases polls : call.polls? with
      | some =>
          cases call with
          | polling => exact resume_polling_unhindered owned calls response choice
          | setting | releasingAll | releasingOne | draining | waking => cases polls
      | none =>
          have apart := (resume_apart calls polls response choice).unhindered owned
          have same : machine.resuming response choice =
              (machine.resume response choice).asides := by
            unfold resuming
            cases call with
            | polling => cases polls
            | setting | releasingAll | releasingOne | draining | waking => simp only [calls]
          rw [same]
          exact apart

/-- No guard ever stops a step of a run, also while callbacks are under way and after some have
broken off. The step comes down to incidents that lead to its events and its trace. All registries
are free whenever one of them happens, so that events are set, and waits registered and withdrawn,
without anybody finding a registry in use. Waits are registered with unset events only; and as long
as the event has not handed out more tokens than there are, a wait becomes a new member just if it
has no token. Wakers are woken and signals polled among the incidents, and a callback that the step
stops at is the last of them. Whoever looks at an event in between sees its registry. -/
theorem guards_never_stop_a_step {history : List (Occurrence ω)} (run : Run history machine)
    (next : Move ω σ ν) :
    (machine.move next).Unhindered machine.events (machine.incidents next) next.excuses ∧
    ∀ id, (machine.events.get id).statistics = .ok ⟨(machine.events.get id).registry.size⟩ ∧
      (machine.events.get id).document =
        .record "Event"
          [("is_set", .flag (machine.events.get id).isSet),
            ("waiters",
              .record "RefCell" [("value", (machine.events.get id).registry.document)] false)]
          false := by
  constructor
  · cases next with
    | perform choice action => exact perform_unhindered run.owned choice action
    | resume response choice => exact resume_unhindered run.owned response choice
  · intro id
    have free := run.owned.free id
    have read : (machine.events.get id).waiters.read = .ok (machine.events.get id).registry :=
      Guarded.read_eq_ok_iff.mpr ⟨free, rfl⟩
    constructor
    · simp only [Event.statistics, read]
    · simp only [Event.document, Guarded.document, free, Bool.false_eq_true, if_false]
      rfl

/-- A wait on the second event is registered, and the waiter of the first is being woken. -/
def refreshingMoves : List (Move Pool.TaskId Nat Nat) :=
  [.perform 0 .makeEvent, .perform 0 .makeEvent, .perform 0 (.makeWait 0 ⟨0⟩ .borrowed),
    .perform 0 (.makeWait 1 ⟨1⟩ .owned), .perform 0 (.poll 0 ⟨0⟩), .perform 0 (.poll 1 ⟨1⟩),
    .perform 0 (.race 1 (.external 7)), .perform 0 (.setEvent ⟨0⟩)]

/-- The waiter polls the wait once more, which does not register it twice, and the signal of the
wait is asked after that. -/
theorem guards_never_stop_a_step_reentrant :
    Run (follow refreshingMoves).1 (follow refreshingMoves).2 ∧
      (follow refreshingMoves).2.calls.length = 1 ∧
      Passes (follow refreshingMoves).2.events
        [.register ⟨1⟩ (some ⟨0⟩) ⟨5⟩, .poll (.external 7), .ask 7]
        [.refreshed ⟨1⟩ ⟨0⟩ ⟨5⟩ true]
        ((follow refreshingMoves).2.move (.perform 0 (.poll 1 ⟨5⟩))).machine.events ∧
      ((follow refreshingMoves).2.events.get ⟨1⟩).statistics = .ok ⟨1⟩ := by
  have run := run_follow refreshingMoves
  obtain ⟨unhindered, seen⟩ := guards_never_stop_a_step run (.perform 0 (.poll 1 ⟨5⟩))
  exact ⟨run, rfl, unhindered.passes, (seen ⟨1⟩).1⟩

end Machine

end Latch
