import Latch.Proofs.Enrolment
import Latch.Proofs.Runs

/-!
# Steps as one event sees them

To a single event few things can happen in a step: waits on it are handled, its release begins, goes
on or breaks off, or the step is about something else. The releases in progress are those of the
suspended calls that set the event.
-/

set_option autoImplicit false

namespace Latch

variable {ω σ ν : Type}

/-- How many waiters of an event a call released, and those that it has still to wake. -/
def Call.release? (event : EventId) : Call ω σ ν → Option (Nat × List (Token × ω))
  | .setting id released remaining => if id = event then some (released, remaining) else none
  | .releasingAll .. | .releasingOne .. | .draining .. | .polling .. | .waking .. => none

theorem Call.release?_of_sets? {call : Call ω σ ν} {event : EventId}
    (other : call.sets? ≠ some event) : call.release? event = none := by
  cases call with
  | setting id released remaining => exact if_neg fun same => other (congrArg some same)
  | releasingAll | releasingOne | draining | polling | waking => rfl

namespace Machine

/-- The releases of an event's waiters that are in progress, innermost first. -/
def releases (event : EventId) (machine : Machine ω σ ν) : List (Nat × List (Token × ω)) :=
  machine.calls.filterMap (Call.release? event)

theorem releases_of_calls {machine : Machine ω σ ν} {call : Call ω σ ν}
    {rest : List (Call ω σ ν)} (calls : machine.calls = call :: rest) (event : EventId) :
    machine.releases event =
      (call.release? event).toList ++ rest.filterMap (Call.release? event) := by
  rw [releases, calls, List.filterMap_cons]
  cases call.release? event <;> rfl

theorem mem_releases {machine : Machine ω σ ν} {event : EventId} {released : Nat}
    {remaining : List (Token × ω)} :
    (released, remaining) ∈ machine.releases event ↔
      .setting event released remaining ∈ machine.calls := by
  constructor
  · intro member
    obtain ⟨call, inside, found⟩ := List.mem_filterMap.mp member
    cases call with
    | setting id count others =>
        by_cases here : id = event
        · rw [Call.release?, if_pos here] at found
          cases found
          exact here ▸ inside
        · rw [Call.release?, if_neg here] at found
          cases found
    | releasingAll | releasingOne | draining | polling | waking => cases found
  · intro member
    exact List.mem_filterMap.mpr ⟨_, member, if_pos rfl⟩

theorem sets?_ne_of_releases {machine : Machine ω σ ν} {event : EventId}
    (none : machine.releases event = []) :
    ∀ call ∈ machine.calls, call.sets? ≠ some event := by
  intro call member sets
  have unreleased := List.filterMap_eq_nil_iff.mp none call member
  cases call with
  | setting id released remaining =>
      cases sets
      simp [Call.release?] at unreleased
  | releasingAll | releasingOne | draining | polling | waking => cases sets

/-- The release of an event's waiters goes on: the next one is called, or all were called. -/
inductive Continues (event : EventId) (released : Nat) (remaining : List (Token × ω))
    (others : List (Nat × List (Token × ω))) :
    List (Occurrence ω) → List (Nat × List (Token × ω)) → Prop
  | wakes (entry : Token × ω) (rest : List (Token × ω))
      (all : remaining.Perm (entry :: rest)) :
      Continues event released remaining others [.woken (some event) entry.1 entry.2]
        ((released, rest) :: others)
  | ends (none : remaining = []) :
      Continues event released remaining others [.eventSet event released] others

theorem Continues.unenrolled {event : EventId} {released : Nat} {remaining : List (Token × ω)}
    {others releases : List (Nat × List (Token × ω))} {told : List (Occurrence ω)}
    (continues : Continues event released remaining others told releases) :
    ∀ occurrence ∈ told, occurrence.enrols event = false := by
  cases continues with
  | wakes | ends =>
      intro occurrence member
      rw [List.mem_singleton.mp member]
      rfl

theorem continueSet_continues (machine : Machine ω σ ν) (event : EventId)
    (released choice : Nat) (remaining : List (Token × ω)) :
    Continues event released remaining (machine.releases event)
      (machine.continueSet event released remaining choice).trace
      ((machine.continueSet event released remaining choice).machine.releases event) := by
  by_cases waiting : remaining = []
  · subst waiting
    exact .ends rfl
  · obtain ⟨entry, rest, all, same⟩ :=
      machine.continueSet_of_ne_nil event released choice waiting
    have pushed : (machine.push (.setting event released rest)).releases event =
        (released, rest) :: machine.releases event := by
      simp [push, releases, Call.release?]
    rw [same]
    exact pushed ▸ .wakes entry rest all

theorem continueSet_elsewhere (machine : Machine ω σ ν) {event other : EventId}
    (different : other ≠ event) (released choice : Nat) (remaining : List (Token × ω)) :
    (machine.continueSet other released remaining choice).machine.releases event =
        machine.releases event ∧
      ∀ occurrence ∈ (machine.continueSet other released remaining choice).trace,
        occurrence.enrols event = false ∧ occurrence.releases event = false := by
  by_cases waiting : remaining = []
  · subst waiting
    refine ⟨rfl, ?_⟩
    intro occurrence member
    rw [List.mem_singleton.mp member]
    exact ⟨rfl, decide_eq_false different⟩
  · obtain ⟨entry, rest, -, same⟩ :=
      machine.continueSet_of_ne_nil other released choice waiting
    rw [same]
    constructor
    · simp [push, releases, Call.release?, different]
    · intro occurrence member
      rw [List.mem_singleton.mp member]
      exact ⟨rfl, decide_eq_false different⟩

variable [Waker ω] [DecidableEq ν]

/-- What an event sees of a step. -/
inductive Sees (event : EventId) (machine : Machine ω σ ν) (next : Move ω σ ν) : Prop
  /-- The step neither sets the event nor wakes its waiters. Only registrations may change, and only
  if the event is unset. -/
  | aside
      (flag : ((machine.move next).machine.events.get event).isSet =
        (machine.events.get event).isSet)
      (changes : Registry.Changes event (machine.events.get event).registry
        (machine.move next).trace ((machine.move next).machine.events.get event).registry)
      (still : (machine.events.get event).isSet = true →
        (∀ occurrence ∈ (machine.move next).trace, occurrence.enrols event = false) ∧
          Wait.tokensOn event (machine.move next).machine.waits ⊆
            Wait.tokensOn event machine.waits)
      (quiet : ∀ occurrence ∈ (machine.move next).trace, occurrence.releases event = false)
      (same : (machine.move next).machine.releases event = machine.releases event)
  /-- The event is set and its registry is taken out. -/
  | begins (unset : (machine.events.get event).isSet = false)
      (set : ((machine.move next).machine.events.get event).isSet = true)
      (waits : (machine.move next).machine.waits = machine.waits) {told : List (Occurrence ω)}
      (trace : (machine.move next).trace =
        .releasingAll (some event) (machine.events.get event).registry.size :: told)
      (continues : Continues event (machine.events.get event).registry.size
        (machine.events.get event).registry.entries (machine.releases event) told
        ((machine.move next).machine.releases event))
  /-- A waiter came back. -/
  | goesOn {released : Nat} {remaining : List (Token × ω)}
      {others : List (Nat × List (Token × ω))}
      (running : machine.releases event = (released, remaining) :: others)
      (events : (machine.move next).machine.events = machine.events)
      (waits : machine.waits.Perm (machine.move next).machine.waits)
      (continues : Continues event released remaining others (machine.move next).trace
        ((machine.move next).machine.releases event))
  /-- A waiter broke off, and the remaining ones are given up. -/
  | breaks {released : Nat} {remaining : List (Token × ω)} {rest : List (Call ω σ ν)}
      (calls : machine.calls = .setting event released remaining :: rest) {panic : Panic}
      {choice : Nat} (panics : next = .resume (.panicked panic) choice)
      (events : (machine.move next).machine.events = machine.events)
      (waits : machine.waits.Perm (machine.move next).machine.waits)
      (trace : (machine.move next).trace = [])
      (left : (machine.move next).machine.releases event =
        rest.filterMap (Call.release? event))

section

variable {machine : Machine ω σ ν} {event : EventId} {next : Move ω σ ν}

theorem Works.releases_eq {names : List ν} {hand : List Wait} {turn : Turn ω σ ν}
    (works : Works machine names hand turn) (event : EventId) :
    turn.machine.releases event = machine.releases event := by
  have pushed : ∀ call, turn.machine.calls = call :: machine.calls →
      turn.machine.releases event = machine.releases event := by
    intro call calls
    have other : call.sets? ≠ some event := by
      rw [works.unset call calls]
      exact nofun
    rw [releases_of_calls calls, Call.release?_of_sets? other]
    rfl
  have ended := works.ended
  unfold Turn.Over at ended
  split at ended
  · obtain ⟨call, calls, -⟩ := ended
    exact pushed call calls
  · obtain ⟨name, holding, waker, calls⟩ := ended
    exact pushed _ calls
  · rw [releases, ended, releases]
  · rw [releases, ended, releases]

theorem Works.sees {names : List ν} {hand waits : List Wait} {stage : Machine ω σ ν}
    (works : Works stage names hand (machine.move next)) (same : waits.Perm (hand ++ stage.waits))
    (owned : Owned machine.events waits) (events : stage.events = machine.events)
    (tokens : Wait.tokensOn event waits ⊆ Wait.tokensOn event machine.waits)
    (releases : stage.releases event = machine.releases event) : Sees event machine next := by
  have handles := works.handled same
  rw [events] at handles
  refine .aside (handles.isSet event) (handles.changes owned event) ?_
    (handles.trace_not_releases event) ((works.releases_eq event).trans releases)
  intro set
  obtain ⟨silent, kept⟩ := handles.still owned set
  exact ⟨silent, List.Subset.trans kept tokens⟩

theorem Sees.of_elsewhere
    (same : (machine.move next).machine.events.get event = machine.events.get event)
    (waits : machine.waits.Perm (machine.move next).machine.waits)
    (releases : (machine.move next).machine.releases event = machine.releases event)
    (silent : ∀ occurrence ∈ (machine.move next).trace,
      occurrence.enrols event = false ∧ occurrence.releases event = false) :
    Sees event machine next := by
  have unchanged : ∀ (trace : List (Occurrence ω)) (registry : Registry ω),
      (∀ occurrence ∈ trace, occurrence.enrols event = false) →
        Registry.Changes event registry trace registry := by
    intro trace registry apart
    induction trace with
    | nil => exact .nothing
    | cons occurrence rest ih =>
        exact (Registry.Changes.other (apart occurrence List.mem_cons_self)).trans
          (ih fun other member => apart other (List.mem_cons_of_mem _ member))
  refine .aside (by rw [same]) ?_ ?_ (fun occurrence member => (silent occurrence member).2)
    releases
  · rw [same]
    exact unchanged _ _ fun occurrence member => (silent occurrence member).1
  · intro _
    exact ⟨fun occurrence member => (silent occurrence member).1,
      (Wait.tokensOn_perm waits).symm.subset⟩

theorem perform_sees (owned : Owned machine.events machine.waits) (event : EventId)
    (choice : Nat) (action : Action ω σ ν) : Sees event machine (.perform choice action) := by
  by_cases sets : ∃ id, action = .setEvent id
  · obtain ⟨id, rfl⟩ := sets
    have turn : machine.move (.perform choice (.setEvent id)) = machine.setEvent id choice := rfl
    cases flag : (machine.events.get id).isSet with
    | true =>
        rw [setEvent_of_set flag] at turn
        apply Sees.of_elsewhere
        · rw [turn]; rfl
        · rw [turn]; exact .refl _
        · rw [turn]; rfl
        · rw [turn]; exact nofun
    | false =>
        obtain ⟨tripped, set, -, same⟩ := setEvent_of_unset owned flag choice
        obtain ⟨events, -, waits⟩ := continueSet_same
          { machine with events := machine.events.put id tripped } id
          (machine.events.get id).registry.size choice (machine.events.get id).registry.entries
        rw [same] at turn
        by_cases here : id = event
        · subst here
          refine .begins flag ?_ ?_ (by rw [turn]) (by
            rw [turn]
            exact continueSet_continues { machine with events := machine.events.put id tripped }
              id _ choice _)
          · rw [turn]
            simp only [events, Events.get_put_self, set]
          · rw [turn]
            exact waits
        · obtain ⟨kept, silent⟩ := continueSet_elsewhere
            { machine with events := machine.events.put id tripped } here
            (machine.events.get id).registry.size choice (machine.events.get id).registry.entries
          apply Sees.of_elsewhere
          · rw [turn]
            simp only [events, Events.get_put]
            exact if_neg fun same => here same.symm
          · rw [turn]
            exact .of_eq waits.symm
          · rw [turn]
            exact kept
          · rw [turn]
            intro occurrence member
            rcases List.mem_cons.mp member with rfl | member
            · exact ⟨rfl, decide_eq_false here⟩
            · exact silent occurrence member
  · have works : Works machine action.names [] (machine.move (.perform choice action)) :=
      machine.perform_works choice fun event same => sets ⟨event, same⟩
    exact works.sees (.refl _) owned rfl (List.Subset.refl _) rfl

theorem resume_sees_of_panicked {id : EventId} {released : Nat} {remaining : List (Token × ω)}
    {rest : List (Call ω σ ν)} (calls : machine.calls = .setting id released remaining :: rest)
    (event : EventId) (panic : Panic) (choice : Nat) :
    Sees event machine (.resume (.panicked panic) choice) := by
  have taken : machine.waits.Perm (Machine.waits { machine with calls := rest }) :=
    waits_perm_of_calls calls
  have running := releases_of_calls calls event
  have turn : machine.move (.resume (.panicked panic) choice) =
      { machine := { machine with calls := rest }, control := .panicked panic } :=
    resume_of_setting_panicked calls panic choice
  by_cases here : id = event
  · subst here
    exact .breaks calls rfl (by rw [turn]) (by rw [turn]; exact taken) (by rw [turn])
      (by rw [turn]; rfl)
  · rw [Call.release?, if_neg here] at running
    apply Sees.of_elsewhere
    · rw [turn]
    · rw [turn]
      exact taken
    · rw [turn, running]
      rfl
    · rw [turn]
      intro occurrence member
      cases member

theorem resume_sees_of_continues {id : EventId} {released : Nat} {remaining : List (Token × ω)}
    {rest : List (Call ω σ ν)} (calls : machine.calls = .setting id released remaining :: rest)
    (event : EventId) {response : Response σ} (unbroken : ∀ panic, response ≠ .panicked panic)
    (choice : Nat) : Sees event machine (.resume response choice) := by
  have taken : machine.waits.Perm (Machine.waits { machine with calls := rest }) :=
    waits_perm_of_calls calls
  have running := releases_of_calls calls event
  have turn : machine.move (.resume response choice) =
      { machine with calls := rest }.continueSet id released remaining choice := by
    cases response with
    | panicked panic => exact absurd rfl (unbroken panic)
    | ready | pending => simp only [move, resume, calls]
  obtain ⟨events, -, waits⟩ :=
    continueSet_same { machine with calls := rest } id released choice remaining
  by_cases here : id = event
  · subst here
    rw [Call.release?, if_pos rfl] at running
    refine .goesOn running ?_ ?_ ?_
    · rw [turn]
      exact events
    · rw [turn, waits]
      exact taken
    · rw [turn]
      exact continueSet_continues { machine with calls := rest } id released choice remaining
  · rw [Call.release?, if_neg here] at running
    obtain ⟨kept, silent⟩ :=
      continueSet_elsewhere { machine with calls := rest } here released choice remaining
    apply Sees.of_elsewhere
    · rw [turn, events]
    · rw [turn, waits]
      exact taken
    · rw [turn, kept, running]
      rfl
    · rw [turn]
      exact silent

theorem resume_sees (owned : Owned machine.events machine.waits) (event : EventId)
    (response : Response σ) (choice : Nat) : Sees event machine (.resume response choice) := by
  cases calls : machine.calls with
  | nil =>
      have idle : machine.move (.resume response choice) = machine.idle := by
        simp only [move, resume, calls]
      apply Sees.of_elsewhere
      · rw [idle]
        rfl
      · rw [idle]
        exact .refl _
      · rw [idle]
        rfl
      · rw [idle]
        intro occurrence member
        cases member
  | cons call rest =>
      cases sets : call.sets? with
      | none =>
          have works : Works { machine with calls := rest } call.names call.waits
              (machine.move (.resume response choice)) := resume_works calls sets response choice
          refine works.sees (waits_perm_of_calls calls) owned rfl (List.Subset.refl _) ?_
          rw [releases_of_calls calls, Call.release?_of_sets? (by simp [sets])]
          rfl
      | some id =>
          cases call with
          | polling | releasingAll | releasingOne | draining | waking => cases sets
          | setting id released remaining =>
              by_cases panics : ∃ panic, response = .panicked panic
              · obtain ⟨panic, rfl⟩ := panics
                exact resume_sees_of_panicked calls event panic choice
              · exact resume_sees_of_continues calls event
                  (fun panic same => panics ⟨panic, same⟩) choice

theorem move_sees (owned : Owned machine.events machine.waits) (event : EventId)
    (next : Move ω σ ν) : Sees event machine next := by
  cases next with
  | perform choice action => exact perform_sees owned event choice action
  | resume response choice => exact resume_sees owned event response choice

end

end Machine

end Latch
