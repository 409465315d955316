import Latch.Proofs.Breaking

/-!
# Set events

Nothing reopens an event. Whatever a program and its callbacks do once it is set, it takes no
waiters and hands out no tokens; its waits complete as soon as they are polled and go without
notice.
-/

set_option autoImplicit false

namespace Latch

variable {ω σ ν : Type}

namespace Machine

variable [Waker ω] [DecidableEq ν] {machine later : Machine ω σ ν}
  {history trace : List (Occurrence ω)} {event : EventId}

/-! ## The moment of setting -/

theorem isSet_of_resume (response : Response σ) (choice : Nat) (event : EventId) :
    ((machine.resume response choice).machine.events.get event).isSet =
      (machine.events.get event).isSet := by
  cases calls : machine.calls with
  | nil => simp only [resume, calls, idle]
  | cons call rest =>
      cases sets : call.sets? with
      | none =>
          have works := resume_works calls sets response choice
          exact (works.handled (.refl _)).isSet event
      | some id =>
          cases call with
          | setting other released remaining =>
              obtain ⟨events, -⟩ := continueSet_same { machine with calls := rest } other released
                choice remaining
              cases response with
              | panicked panic => rw [resume_of_setting_panicked calls]
              | ready | pending =>
                  simp only [resume, calls]
                  rw [events]
          | polling | releasingAll | releasingOne | draining | waking => cases sets

/-- The move that sets an event leaves a registry behind that never had a member. -/
theorem registry_of_tripping (owned : Owned machine.events machine.waits) {next : Move ω σ ν}
    (unset : (machine.events.get event).isSet = false)
    (set : ((machine.move next).machine.events.get event).isSet = true) :
    ((machine.move next).machine.events.get event).registry = ∅ := by
  have unchanged : ((machine.move next).machine.events.get event).isSet ≠
      (machine.events.get event).isSet := by
    rw [set, unset]
    exact nofun
  cases next with
  | resume response choice => exact absurd (isSet_of_resume response choice event) unchanged
  | perform choice action =>
      by_cases sets : ∃ id, action = .setEvent id
      · obtain ⟨id, rfl⟩ := sets
        change ((machine.setEvent id choice).machine.events.get event).isSet ≠ _ at unchanged
        change ((machine.setEvent id choice).machine.events.get event).registry = ∅
        cases flag : (machine.events.get id).isSet with
        | true =>
            rw [setEvent_of_set flag] at unchanged
            exact absurd rfl unchanged
        | false =>
            obtain ⟨events, -⟩ := continueSet_same
              { machine with events := machine.events.put id (machine.events.get id).tripped } id
              (machine.events.get id).registry.size choice (machine.events.get id).registry.entries
            rw [setEvent_eq_of_unset (owned.free id) flag] at unchanged ⊢
            simp only [events, Events.get_put] at unchanged ⊢
            split at unchanged
            · next here => rw [if_pos here]; rfl
            · exact absurd rfl unchanged
      · have works := machine.perform_works choice fun id same => sets ⟨id, same⟩
        exact absurd ((works.handled (.refl _)).isSet event) unchanged

/-! ## What is left of an event -/

/-- An event that is set, and the registry that it has from then on. -/
structure Shut (event : EventId) (machine : Machine ω σ ν) : Prop where
  set : (machine.events.get event).isSet = true
  empty : (machine.events.get event).registry = ∅

theorem Shut.move (shut : Shut event machine) (owned : Owned machine.events machine.waits)
    (next : Move ω σ ν) :
    Shut event (machine.move next).machine ∧
      ∀ occurrence ∈ (machine.move next).trace, occurrence.enrols event = false := by
  cases move_sees owned event next with
  | aside flag changes still =>
      obtain ⟨silent, -⟩ := still shut.set
      exact ⟨⟨flag.trans shut.set, (changes.unchanged silent).trans shut.empty⟩, silent⟩
  | begins unset =>
      rw [shut.set] at unset
      cases unset
  | goesOn _ events _ continues =>
      exact ⟨⟨by rw [events]; exact shut.set, by rw [events]; exact shut.empty⟩,
        continues.unenrolled⟩
  | breaks _ _ events _ trace =>
      refine ⟨⟨by rw [events]; exact shut.set, by rw [events]; exact shut.empty⟩, ?_⟩
      rw [trace]
      exact nofun

/-- In a run, whoever finds an event set finds a registry there that never had a member. -/
theorem Run.shut (run : Run history machine) (set : (machine.events.get event).isSet = true) :
    Shut event machine := by
  induction run with
  | start => cases set
  | @step history machine run next ih =>
      cases flag : (machine.events.get event).isSet with
      | true => exact ((ih flag).move run.owned next).1
      | false => exact ⟨set, registry_of_tripping run.owned flag set⟩

theorem Shut.within {base : List (Call ω σ ν)} (shut : Shut event machine)
    (within : Within base machine trace later) (run : Run history machine) :
    Shut event later ∧ ∀ occurrence ∈ trace, occurrence.enrols event = false := by
  induction within generalizing history with
  | refl => exact ⟨shut, nofun⟩
  | perform choice action _ ih =>
      obtain ⟨next, silent⟩ := shut.move run.owned (.perform choice action)
      obtain ⟨last, quiet⟩ := ih next (run.step (.perform choice action))
      exact ⟨last, fun occurrence member =>
        (List.mem_append.mp member).elim (silent occurrence) (quiet occurrence)⟩
  | resume _ response choice _ ih =>
      obtain ⟨next, silent⟩ := shut.move run.owned (.resume response choice)
      obtain ⟨last, quiet⟩ := ih next (run.step (.resume response choice))
      exact ⟨last, fun occurrence member =>
        (List.mem_append.mp member).elim (silent occurrence) (quiet occurrence)⟩

/-! ## Waits on the event -/

/-- A released wait is ready when its owner polls it, and that is all. -/
theorem perform_poll_of_released {name : ν} {own : EventId} {wait : Wait}
    (found : machine.futures.get? name = some ⟨own, .plain wait⟩)
    (released : wait.Released machine.events) (choice : Nat) (waker : ω) :
    machine.perform choice (.poll name waker) =
      { machine := { machine with
          futures := (machine.futures.erase name).insert name
            ⟨own, .plain { wait with token := none, completed := true }⟩ }
        control := .done (.polled .completed (machine.events.state own)) } := by
  have polled : (Future.plain wait : Future σ).poll waker machine.events =
      { progress := .answered .completed
        future := .plain { wait with token := none, completed := true }
        events := machine.events } := by
    simp only [Future.poll, released.completes waker]
  have answered : ((Future.plain wait : Future σ).poll waker machine.events).progress =
      .answered .completed := by rw [polled]
  rw [perform_poll_of_answered found answered, polled]

theorem perform_drop_of_released {name : ν} {own : EventId} {wait : Wait}
    (found : machine.futures.get? name = some ⟨own, .plain wait⟩)
    (released : wait.Released machine.events) (choice : Nat) :
    (machine.perform choice (.drop name)).trace = [] ∧
      (machine.perform choice (.drop name)).control = .done .nothing ∧
      ∀ id, ((machine.perform choice (.drop name)).machine.events.get id).registry =
        (machine.events.get id).registry := by
  simp only [perform, dropFuture, found, discard, Future.drop, released.silent, released.whole]
  exact ⟨trivial, trivial, released.kept⟩

/-- Once anybody can see that an event is set, it is set in every later state of the run, whatever
is called meanwhile and however calls break off. Its registry is one that never had a member, and
the trace tells of no registration with it that is made, refreshed or withdrawn. Its waits, old and
new ones, complete when they are polled and hold no token then, and nothing comes of dropping
them. -/
theorem set_is_permanent (run : Run history machine)
    (set : (machine.events.get event).isSet = true) {trace : List (Occurrence ω)}
    {later : Machine ω σ ν} (within : Within [] machine trace later) :
    (later.events.get event).isSet = true ∧
    (later.events.get event).registry = ∅ ∧
    (∀ occurrence ∈ trace, occurrence.enrols event = false) ∧
    (∀ wait ∈ later.waits, wait.event = event → wait.Released later.events) ∧
    ∀ name own wait, later.futures.get? name = some ⟨own, .plain wait⟩ → wait.event = event →
      (∀ choice waker, later.perform choice (.poll name waker) =
        { machine := { later with
            futures := (later.futures.erase name).insert name
              ⟨own, .plain { wait with token := none, completed := true }⟩ }
          control := .done (.polled .completed (later.events.state own)) }) ∧
      ∀ choice, (later.perform choice (.drop name)).trace = [] ∧
        (later.perform choice (.drop name)).control = .done .nothing ∧
        ∀ id, ((later.perform choice (.drop name)).machine.events.get id).registry =
          (later.events.get id).registry := by
  have shut := run.shut set
  obtain ⟨⟨stays, empty⟩, silent⟩ := shut.within within run
  have released : ∀ wait ∈ later.waits, wait.event = event → wait.Released later.events :=
    fun wait live here => (within.run run).owned.released_of_set live (here ▸ stays)
  refine ⟨stays, empty, silent, released, ?_⟩
  intro name own wait found here
  have live : wait ∈ later.waits :=
    (waits_perm_of_get? found).mem_iff.mpr (List.mem_append_left _ (List.mem_singleton_self wait))
  have gone := released wait live here
  exact ⟨perform_poll_of_released found gone, perform_drop_of_released found gone⟩

/-- Two waits on an event are registered; the event is being set, and one of its wakers called. -/
def staleMoves : List (Move Pool.TaskId Nat Nat) :=
  [.perform 0 (.makeWait 0 ⟨0⟩ .owned), .perform 0 (.makeWait 1 ⟨0⟩ .borrowed),
    .perform 0 (.poll 0 ⟨4⟩), .perform 0 (.poll 1 ⟨5⟩), .perform 0 (.setEvent ⟨0⟩)]

/-- The waker makes and polls a new wait and breaks off; the old wait still has its token then. -/
theorem set_is_permanent_for_stale_token :
    ∃ trace later, Within [] (follow staleMoves).2 trace later ∧ later.calls = [] ∧
      later.futures.get? 1 = some ⟨⟨0⟩, .plain ⟨⟨0⟩, .borrowed, some ⟨1⟩, false⟩⟩ ∧
      (later.events.get ⟨0⟩).registry = ∅ ∧
      (∀ occurrence ∈ trace, occurrence.enrols ⟨0⟩ = false) ∧
      (later.perform 0 (.poll 1 ⟨6⟩)).control = .done (.polled .completed ⟨true, 0⟩) ∧
      (later.perform 0 (.drop 1)).trace = [] := by
  have set : ((follow staleMoves).2.events.get ⟨0⟩).isSet = true := by decide
  have within : Within [] (follow staleMoves).2 _ _ :=
    .perform 0 (.makeWait 2 ⟨0⟩ .owned) (.perform 0 (.poll 2 ⟨6⟩)
      (.resume (show _ = _ :: ([] ++ []) from rfl) (.panicked (.raised "gone")) 0 .refl))
  obtain ⟨-, empty, silent, -, waits⟩ := set_is_permanent (run_follow staleMoves) set within
  obtain ⟨polls, drops⟩ := waits 1 ⟨0⟩ ⟨⟨0⟩, .borrowed, some ⟨1⟩, false⟩ rfl rfl
  exact ⟨_, _, within, rfl, rfl, empty, silent, by rw [polls]; rfl, (drops 0).1⟩

end Machine

end Latch
