import Latch.Proofs.Registration
import Latch.Proofs.Runs

/-!
# Calls whose wakers only come back

A call that stops at a waker is taken to its end here, for wakers that do nothing to the library
before they come back. Waits that the call does not work on stay registered, unless it sets their
event: then it wakes the wakers that were stored for them.
-/

set_option autoImplicit false

namespace Latch

variable {ω σ ν : Type}

/-- The future that a call polls, by name, and the waker that it is given. -/
def Action.polls? : Action ω σ ν → Option (ν × ω)
  | .poll name waker => some (name, waker)
  | .makeEvent | .setEvent _ | .makeWait .. | .drop _ | .race .. | .wake .. => none
  | .makeRegistry .. | .dropRegistry _ | .add .. | .update .. | .remove .. => none
  | .releaseAll _ | .releaseOne _ | .drain _ => none

/-- The wakers of the waiters that a call has still to wake once it goes on. -/
def Call.outstanding : Call ω σ ν → List ω
  | .setting _ _ remaining => remaining.map Prod.snd
  | .releasingAll .. | .releasingOne .. | .draining .. | .polling .. | .waking .. => []

namespace Turn

/-- A call that stopped, if at all, at a waker. -/
def Quiet (base : List (Call ω σ ν)) (turn : Turn ω σ ν) : Prop :=
  match turn.control with
  | .wake _ => ∃ call, turn.machine.calls = call :: base ∧ call.polls? = none
  | .ask _ => False
  | .done _ | .panicked _ => turn.machine.calls = base

theorem Quiet.waits {base : List (Call ω σ ν)} {turn : Turn ω σ ν} (quiet : turn.Quiet base) :
    turn.machine.calls.flatMap Call.waits = base.flatMap Call.waits := by
  unfold Quiet at quiet
  split at quiet
  · obtain ⟨call, calls, noPoll⟩ := quiet
    rw [calls, List.flatMap_cons, Call.waits_eq_nil noPoll, List.nil_append]
  · exact quiet.elim
  · rw [quiet]
  · rw [quiet]

/-- The waker that is being woken and those that follow. -/
def due (turn : Turn ω σ ν) : List ω :=
  match turn.control with
  | .wake waker => waker :: (turn.machine.calls.take 1).flatMap Call.outstanding
  | .ask _ | .done _ | .panicked _ => []

end Turn

namespace Machine

theorem continueSet_quiet (machine : Machine ω σ ν) (event : EventId) (released choice : Nat)
    (remaining : List (Token × ω)) :
    (machine.continueSet event released remaining choice).Quiet machine.calls ∧
      ∀ entry ∈ remaining,
        entry.2 ∈ (machine.continueSet event released remaining choice).due := by
  by_cases waiting : remaining = []
  · subst waiting
    exact ⟨rfl, by simp⟩
  · obtain ⟨first, rest, all, same⟩ := machine.continueSet_of_ne_nil event released choice waiting
    rw [same]
    refine ⟨⟨_, rfl, rfl⟩, ?_⟩
    intro entry member
    rcases List.mem_cons.mp (all.mem_iff.mp member) with rfl | later
    · exact List.mem_cons_self
    · simp only [Turn.due, push, List.take_succ_cons, List.take_zero, List.flatMap_cons,
        List.flatMap_nil, List.append_nil, Call.outstanding]
      exact List.mem_cons_of_mem _ (List.mem_map_of_mem later)

theorem setEvent_futures (machine : Machine ω σ ν) (id : EventId) (choice : Nat) :
    (machine.setEvent id choice).machine.futures = machine.futures := by
  unfold setEvent
  split
  · rfl
  · rfl
  · next registry event tripped =>
      exact (continueSet_same { machine with events := machine.events.put id event } id
        registry.size choice registry.entries).2.1

theorem setEvent_registeredFor [Waker ω] {machine : Machine ω σ ν}
    (owned : Owned machine.events machine.waits) (id : EventId) (choice : Nat) {wait : Wait}
    {waker : ω} (registered : wait.RegisteredFor machine.events waker) :
    wait.RegisteredFor (machine.setEvent id choice).machine.events waker ∨
      ∃ stored ∈ (machine.setEvent id choice).due, willWake stored waker = true := by
  cases flag : (machine.events.get id).isSet with
  | true =>
      rw [setEvent_of_set flag]
      exact .inl registered
  | false =>
      obtain ⟨event, -, -, same⟩ := setEvent_of_unset owned flag choice
      obtain ⟨events, -⟩ := continueSet_same
        { machine with events := machine.events.put id event } id
        (machine.events.get id).registry.size choice (machine.events.get id).registry.entries
      obtain ⟨-, due⟩ := continueSet_quiet
        { machine with events := machine.events.put id event } id
        (machine.events.get id).registry.size choice (machine.events.get id).registry.entries
      rw [same]
      rcases registered.put id event with still | ⟨stored, member, does⟩
      · simp only [events]
        exact .inl still
      · obtain ⟨entry, inside, rfl⟩ := List.mem_map.mp member
        exact .inr ⟨entry.2, due entry inside, does⟩

theorem discard_quiet (machine : Machine ω σ ν) (future : Future σ) (reply : Reply) :
    (machine.discard future (.done reply)).Quiet machine.calls := by
  cases broken : (future.drop machine.events).panic? with
  | none | some => simp only [Turn.Quiet, discard, broken]

variable [DecidableEq ν]

/-- A future that is put under a name is there afterwards, also if dropping its predecessor broke
off. -/
theorem store_spec (machine : Machine ω σ ν) (name : ν) (holding : Holding σ)
    (control : Control ω σ) :
    (machine.store name holding control).machine.futures.get? name = some holding ∧
      (machine.store name holding control).machine.calls = machine.calls ∧
      ((machine.store name holding control).control = control ∨
        ∃ panic, (machine.store name holding control).control = .panicked panic) := by
  have there := machine.futures.get?_insert_self name holding
  unfold store
  simp only
  split
  · exact ⟨there, rfl, .inl rfl⟩
  · refine ⟨there, rfl, ?_⟩
    unfold discard
    simp only
    split
    · next panic _ => exact .inr ⟨panic, rfl⟩
    · exact .inl rfl

theorem store_quiet (machine : Machine ω σ ν) (name : ν) (holding : Holding σ) (reply : Reply) :
    (machine.store name holding (.done reply)).Quiet machine.calls := by
  obtain ⟨-, calls, done | ⟨panic, panicked⟩⟩ := machine.store_spec name holding (.done reply)
  · simp only [Turn.Quiet, done, calls]
  · simp only [Turn.Quiet, panicked, calls]

theorem resume_quiet {machine : Machine ω σ ν} {call : Call ω σ ν} {rest : List (Call ω σ ν)}
    (calls : machine.calls = call :: rest) (noPoll : call.polls? = none) {response : Response σ}
    (unbroken : ∀ panic, response ≠ .panicked panic) (choice : Nat) :
    (machine.resume response choice).machine.events = machine.events ∧
      (machine.resume response choice).machine.futures = machine.futures ∧
      (machine.resume response choice).Quiet rest ∧
      ∀ waker ∈ call.outstanding, waker ∈ (machine.resume response choice).due := by
  unfold resume
  rw [calls]
  cases response with
  | panicked panic => exact absurd rfl (unbroken panic)
  | ready | pending =>
      cases call with
      | polling => cases noPoll
      | setting event released remaining =>
          obtain ⟨events, futures, -⟩ :=
            continueSet_same { machine with calls := rest } event released choice remaining
          obtain ⟨quiet, due⟩ :=
            continueSet_quiet { machine with calls := rest } event released choice remaining
          refine ⟨events, futures, quiet, ?_⟩
          intro waker member
          obtain ⟨entry, inside, rfl⟩ := List.mem_map.mp member
          exact due entry inside
      | releasingAll name registry released remaining =>
          simp only [continueReleaseAll]
          split
          · exact ⟨rfl, rfl, ⟨_, rfl, rfl⟩, List.forall_mem_nil _⟩
          · exact ⟨rfl, rfl, rfl, List.forall_mem_nil _⟩
      | releasingOne name registry token => exact ⟨rfl, rfl, rfl, List.forall_mem_nil _⟩
      | draining name registry released =>
          simp only [continueDrain]
          split
          · exact ⟨rfl, rfl, rfl, List.forall_mem_nil _⟩
          · exact ⟨rfl, rfl, ⟨_, rfl, rfl⟩, List.forall_mem_nil _⟩
      | waking waker kept => exact ⟨rfl, rfl, rfl, List.forall_mem_nil _⟩

/-! ## Calls taken to their end -/

/-- The wakers that a call wakes until it is over or asks for a signal, and what is told meanwhile.
None of them calls the library or breaks off. -/
inductive Wakes : Turn ω σ ν → List ω → List (Occurrence ω) → Turn ω σ ν → Prop
  | none {turn : Turn ω σ ν} (silent : ∀ waker, turn.control ≠ .wake waker) :
      Wakes turn [] turn.trace turn
  | one {turn last : Turn ω σ ν} {waker : ω} {woken : List ω} {told : List (Occurrence ω)}
      (wakes : turn.control = .wake waker) {response : Response σ}
      (unbroken : ∀ panic, response ≠ .panicked panic) (choice : Nat)
      (later : Wakes (turn.machine.resume response choice) woken told last) :
      Wakes turn (waker :: woken) (turn.trace ++ told) last

/-- Being woken changes nothing, and everybody is woken who is due. -/
theorem Wakes.of_quiet {turn last : Turn ω σ ν} {woken : List ω} {told : List (Occurrence ω)}
    (wakes : Wakes turn woken told last) {base : List (Call ω σ ν)} (quiet : turn.Quiet base) :
    last.machine.events = turn.machine.events ∧ last.machine.futures = turn.machine.futures ∧
      last.machine.calls = base ∧ ∀ waker ∈ turn.due, waker ∈ woken := by
  induction wakes with
  | @none turn silent =>
      refine ⟨rfl, rfl, ?_, ?_⟩
      · unfold Turn.Quiet at quiet
        split at quiet
        · next waker control => exact absurd control (silent waker)
        · exact quiet.elim
        · exact quiet
        · exact quiet
      · intro waker member
        unfold Turn.due at member
        split at member
        · next waker control => exact absurd control (silent waker)
        · cases member
        · cases member
        · cases member
  | @one turn last waker woken told control response unbroken choice later ih =>
      simp only [Turn.Quiet, control] at quiet
      obtain ⟨call, calls, noPoll⟩ := quiet
      obtain ⟨events, futures, still, due⟩ := resume_quiet calls noPoll unbroken choice
      obtain ⟨sameEvents, sameFutures, ended, all⟩ := ih still
      refine ⟨sameEvents.trans events, sameFutures.trans futures, ended, ?_⟩
      intro other member
      simp only [Turn.due, control, calls, List.take_succ_cons, List.take_zero, List.flatMap_cons,
        List.flatMap_nil, List.append_nil] at member
      rcases List.mem_cons.mp member with rfl | member
      · exact List.mem_cons_self
      · exact List.mem_cons_of_mem _ (all other (due other member))

theorem Wakes.run [Waker ω] {turn last : Turn ω σ ν} {woken : List ω}
    {told history : List (Occurrence ω)} (wakes : Wakes turn woken told last)
    (run : Run (history ++ turn.trace) turn.machine) : Run (history ++ told) last.machine := by
  induction wakes generalizing history with
  | none => exact run
  | @one turn _ _ _ _ _ response _ choice _ ih =>
      rw [← List.append_assoc]
      exact ih (run.step (.resume response choice))

/-! ## Where a poll leads to -/

theorem afterPoll_calls (machine : Machine ω σ ν) (name : ν) (event : EventId) (waker : ω)
    (polled : Future.Polled σ ω) :
    (machine.afterPoll name event waker polled).machine.calls = machine.calls ∨
      (∃ signal, polled.progress = .asks signal) ∧
        (machine.afterPoll name event waker polled).machine.calls =
          .polling name ⟨event, polled.future⟩ waker :: machine.calls := by
  have stored := fun control : Control ω σ =>
    (store_spec { machine with events := polled.events } name ⟨event, polled.future⟩ control).2.1
  unfold afterPoll
  cases progress : polled.progress with
  | answered answer => exact .inl (stored _)
  | panicked panic => exact .inl (stored _)
  | asks signal => exact .inr ⟨⟨signal, rfl⟩, rfl⟩

theorem afterPoll_silent (machine : Machine ω σ ν) (name : ν) (event : EventId) (waker : ω)
    (polled : Future.Polled σ ω) (other : ω) :
    (machine.afterPoll name event waker polled).control ≠ .wake other := by
  have stored := fun control : Control ω σ =>
    (store_spec { machine with events := polled.events } name ⟨event, polled.future⟩ control).2.2
  intro wakes
  unfold afterPoll at wakes
  cases progress : polled.progress with
  | answered answer =>
      simp only [progress] at wakes
      rcases stored _ with same | ⟨panic, same⟩
      · cases same.symm.trans wakes
      · cases same.symm.trans wakes
  | panicked panic =>
      simp only [progress] at wakes
      rcases stored _ with same | ⟨panic, same⟩
      · cases same.symm.trans wakes
      · cases same.symm.trans wakes
  | asks signal =>
      simp only [progress] at wakes
      cases wakes

theorem afterPoll_pending {machine : Machine ω σ ν} {name : ν} {event : EventId} {waker : ω}
    {polled : Future.Polled σ ω} {state : EventState}
    (pending : (machine.afterPoll name event waker polled).control =
      .done (.polled .pending state)) :
    polled.progress = .answered .pending ∧
      (machine.afterPoll name event waker polled).machine.futures.get? name =
        some ⟨event, polled.future⟩ := by
  have stored := store_spec { machine with events := polled.events } name ⟨event, polled.future⟩
  unfold afterPoll at pending ⊢
  cases progress : polled.progress with
  | answered answer =>
      simp only [progress] at pending ⊢
      obtain ⟨there, -, same | ⟨panic, same⟩⟩ :=
        stored (.done (.polled answer (polled.events.state event)))
      · cases same.symm.trans pending
        exact ⟨rfl, there⟩
      · cases same.symm.trans pending
  | panicked panic =>
      simp only [progress] at pending
      obtain ⟨-, -, same | ⟨panic, same⟩⟩ := stored (.panicked panic)
      · cases same.symm.trans pending
      · cases same.symm.trans pending
  | asks signal =>
      simp only [progress] at pending
      cases pending

/-- What a poll leaves open is watched: a future that is pending under its name, and a future whose
signal is asked in the call that asks it. -/
structure Leaves (base : List (Call ω σ ν)) (name : ν) (waker : ω) (watched : Wait → Prop)
    (turn : Turn ω σ ν) : Prop where
  calls : ∀ call ∈ turn.machine.calls, call ∈ base ∨
    ∃ holding, call = .polling name holding waker ∧ ∀ wait ∈ holding.future.waits, watched wait
  pending : ∀ state, turn.control = .done (.polled .pending state) →
    ∃ holding, turn.machine.futures.get? name = some holding ∧
      ∀ wait ∈ holding.future.waits, watched wait

theorem afterPoll_leaves (machine : Machine ω σ ν) {name : ν} {event : EventId} {waker : ω}
    {polled : Future.Polled σ ω} {watched : Wait → Prop}
    (opened : Future.Progress.isOpen polled.progress = true →
      ∀ wait ∈ polled.future.waits, watched wait) :
    Leaves machine.calls name waker watched (machine.afterPoll name event waker polled) where
  calls := by
    intro call member
    rcases machine.afterPoll_calls name event waker polled with same | ⟨⟨signal, asks⟩, same⟩
    · rw [same] at member
      exact .inl member
    · rw [same] at member
      rcases List.mem_cons.mp member with rfl | member
      · exact .inr ⟨_, rfl, opened (by rw [asks]; rfl)⟩
      · exact .inl member
  pending := by
    intro state pending
    obtain ⟨progress, there⟩ := afterPoll_pending pending
    exact ⟨_, there, opened (by rw [progress]; rfl)⟩

theorem resume_polling {machine : Machine ω σ ν} {name : ν} {holding : Holding σ} {waker : ω}
    {rest : List (Call ω σ ν)} (calls : machine.calls = .polling name holding waker :: rest)
    (response : Response σ) (choice : Nat) :
    machine.resume response choice =
      { machine with calls := rest }.afterPoll name holding.event waker
        (holding.future.resume response machine.events) := by
  unfold resume
  rw [calls]

theorem Wakes.of_silent {turn last : Turn ω σ ν} {woken : List ω} {told : List (Occurrence ω)}
    (wakes : Wakes turn woken told last) (silent : ∀ waker, turn.control ≠ .wake waker) :
    last = turn ∧ woken = [] := by
  cases wakes with
  | none => exact ⟨rfl, rfl⟩
  | one wakes => exact absurd wakes (silent _)

/-! ## What a call leaves alone -/

variable [Waker ω]

theorem perform_quiet (machine : Machine ω σ ν) (choice : Nat) {action : Action ω σ ν}
    (noPoll : action.polls? = none) :
    (machine.perform choice action).Quiet machine.calls := by
  cases action with
  | poll => cases noPoll
  | makeEvent => exact rfl
  | setEvent id =>
      change (machine.setEvent id choice).Quiet machine.calls
      unfold setEvent
      split
      · exact rfl
      · exact rfl
      · next registry event tripped =>
          exact (continueSet_quiet { machine with events := machine.events.put id event } id
            registry.size choice registry.entries).1
  | makeWait name event hold => exact store_quiet _ name _ .nothing
  | drop name =>
      change (machine.dropFuture name).Quiet machine.calls
      unfold dropFuture
      split
      · exact rfl
      · exact discard_quiet _ _ .nothing
  | race name signal =>
      change (machine.raceFuture name signal).Quiet machine.calls
      unfold raceFuture
      split
      · split
        · exact rfl
        · exact rfl
      · exact rfl
  | wake waker kept => exact ⟨_, rfl, rfl⟩
  | makeRegistry name capacity? =>
      change (machine.makeRegistry name capacity?).Quiet machine.calls
      unfold makeRegistry
      split
      · exact rfl
      · split
        · exact rfl
        · exact rfl
  | dropRegistry name => exact rfl
  | add name waker =>
      change (machine.addMember name waker).Quiet machine.calls
      unfold addMember
      split
      · exact rfl
      · exact rfl
  | update name token waker =>
      change (machine.updateMember name token waker).Quiet machine.calls
      unfold updateMember
      split
      · exact rfl
      · exact rfl
  | remove name token =>
      change (machine.removeMember name token).Quiet machine.calls
      unfold removeMember
      split
      · exact rfl
      · exact rfl
  | releaseAll name =>
      change (machine.releaseAll name choice).Quiet machine.calls
      unfold releaseAll
      split
      · exact rfl
      · simp only [continueReleaseAll]
        split
        · exact ⟨_, rfl, rfl⟩
        · exact rfl
  | releaseOne name =>
      change (machine.releaseOne name choice).Quiet machine.calls
      unfold releaseOne
      split
      · exact rfl
      · split
        · exact rfl
        · exact ⟨_, rfl, rfl⟩
  | drain name =>
      change (machine.drain name choice).Quiet machine.calls
      unfold drain
      split
      · exact rfl
      · simp only [continueDrain]
        split
        · exact rfl
        · exact ⟨_, rfl, rfl⟩

/-- Futures and registrations that a call does not work on are as they were, except that waiters
whose event was set were woken. -/
structure Spares (machine : Machine ω σ ν) (names : List ν) (woken : List ω)
    (after : Machine ω σ ν) : Prop where
  owned : Owned after.events after.waits
  kept : ∀ name, name ∉ names → after.futures.get? name = machine.futures.get? name
  registered : ∀ wait ∈ machine.apart names, ∀ waker, wait.RegisteredFor machine.events waker →
    wait.RegisteredFor after.events waker ∨ ∃ stored ∈ woken, willWake stored waker = true

theorem Works.registeredFor {machine : Machine ω σ ν} {names : List ν} {hand : List Wait}
    {turn : Turn ω σ ν} (works : Works machine names hand turn)
    (owned : Owned machine.events (hand ++ machine.waits)) {wait : Wait}
    (live : wait ∈ machine.apart names) {waker : ω}
    (registered : wait.RegisteredFor machine.events waker)
    (few : (turn.machine.events.get wait.event).registry.issued ≤ Token.limit) :
    wait.RegisteredFor turn.machine.events waker := by
  obtain ⟨worked, left, before, -, handles⟩ := works.handles
  have split : (hand ++ machine.waits).Perm (hand ++ worked ++ machine.apart names) := by
    rw [List.append_assoc]
    exact before.append_left hand
  exact handles.registeredFor (owned.perm split) live registered few

theorem Works.spares {machine : Machine ω σ ν} {names : List ν} {hand : List Wait}
    {turn : Turn ω σ ν} (works : Works machine names hand turn)
    (owned : Owned machine.events (hand ++ machine.waits)) (few : turn.machine.events.Few)
    (woken : List ω) : Spares machine names woken turn.machine where
  owned := owned.handled (works.handled (.refl _))
  kept := works.kept
  registered _ live _ registered := .inl (works.registeredFor owned live registered (few _))

/-- A call that polls no future leaves the waits registered that it does not work on, and wakes the
waiters of the event that it sets. -/
theorem perform_spares {machine : Machine ω σ ν} (owned : Owned machine.events machine.waits)
    {choice : Nat} {action : Action ω σ ν} (noPoll : action.polls? = none) {woken : List ω}
    {told : List (Occurrence ω)} {last : Turn ω σ ν}
    (wakes : Wakes (machine.perform choice action) woken told last)
    (few : last.machine.events.Few) :
    Spares machine action.names woken last.machine ∧ last.machine.calls = machine.calls := by
  have quiet := machine.perform_quiet choice noPoll
  obtain ⟨events, futures, calls, due⟩ := wakes.of_quiet quiet
  have waits : last.machine.waits = (machine.perform choice action).machine.waits := by
    rw [Machine.waits, Machine.waits, futures, calls, quiet.waits]
  have after : Owned last.machine.events last.machine.waits := by
    rw [events, waits]
    exact perform_owned owned choice action
  refine ⟨⟨after, ?_, ?_⟩, calls⟩
  · intro name other
    rw [futures]
    by_cases sets : ∃ id, action = .setEvent id
    · obtain ⟨id, rfl⟩ := sets
      exact congrArg (Table.get? · name) (machine.setEvent_futures id choice)
    · have works := machine.perform_works choice fun id same => sets ⟨id, same⟩
      exact works.kept name other
  · intro wait live waker registered
    rw [events] at few ⊢
    by_cases sets : ∃ id, action = .setEvent id
    · obtain ⟨id, rfl⟩ := sets
      rcases setEvent_registeredFor owned id choice registered with still | ⟨stored, all, does⟩
      · exact .inl still
      · exact .inr ⟨stored, due stored all, does⟩
    · have works := machine.perform_works choice fun id same => sets ⟨id, same⟩
      exact .inl (works.registeredFor owned live registered (few _))

/-! ## Polls that are left open -/

theorem store_registeredFor (machine : Machine ω σ ν) (name : ν) (holding : Holding σ)
    (control : Control ω σ) (owned : Owned machine.events (holding.future.waits ++ machine.waits))
    {wait : Wait} (member : wait ∈ holding.future.waits) {waker : ω}
    (registered : wait.RegisteredFor machine.events waker)
    (few : (machine.store name holding control).machine.events.Few) :
    wait.RegisteredFor (machine.store name holding control).machine.events waker := by
  unfold store at few ⊢
  simp only at few ⊢
  split
  · exact registered
  · next previous found =>
      have split : (holding.future.waits ++ machine.waits).Perm
          (previous.future.waits ++ (holding.future.waits ++
            (held (machine.futures.erase name) ++ machine.calls.flatMap Call.waits))) := by
        refine (List.Perm.append_left _ ?_).trans (List.perm_append_comm_assoc _ _ _)
        rw [← List.append_assoc]
        exact (held_perm_of_get? found).append_right _
      simp only [found] at few
      exact (previous.future.drop_handles machine.events).registeredFor (owned.perm split)
        (List.mem_append_left _ member) registered (few _)

theorem few_of_afterPoll {machine : Machine ω σ ν} {name : ν} {event : EventId} {waker : ω}
    {polled : Future.Polled σ ω}
    (few : (machine.afterPoll name event waker polled).machine.events.Few) :
    polled.events.Few :=
  fun id => Nat.le_trans (machine.issued_le_afterPoll name event waker polled id) (few id)

theorem afterPoll_registeredFor {machine : Machine ω σ ν} (name : ν) (event : EventId) (waker : ω)
    {polled : Future.Polled σ ω}
    (owned : Owned polled.events (polled.future.waits ++ machine.waits)) {wait : Wait}
    (member : wait ∈ polled.future.waits) {own : ω}
    (registered : wait.RegisteredFor polled.events own)
    (few : (machine.afterPoll name event waker polled).machine.events.Few) :
    wait.RegisteredFor (machine.afterPoll name event waker polled).machine.events own := by
  have stored := fun control : Control ω σ =>
    store_registeredFor { machine with events := polled.events } name ⟨event, polled.future⟩
      control owned member registered
  unfold afterPoll at few ⊢
  cases progress : polled.progress with
  | answered answer =>
      simp only [progress] at few
      exact stored _ few
  | panicked panic =>
      simp only [progress] at few
      exact stored _ few
  | asks signal => exact registered

theorem pollFuture_silent (machine : Machine ω σ ν) (name : ν) (waker other : ω) :
    (machine.pollFuture name waker).control ≠ .wake other := by
  unfold pollFuture
  split
  · exact nofun
  · exact afterPoll_silent _ name _ waker _ other

theorem poll_leaves [LawfulWaker ω] {machine : Machine ω σ ν}
    (owned : Owned machine.events machine.waits) (choice : Nat) (name : ν) (waker : ω)
    (few : (machine.perform choice (.poll name waker)).machine.events.Few) :
    Leaves machine.calls name waker
      (Wait.RegisteredFor · (machine.perform choice (.poll name waker)).machine.events waker)
      (machine.perform choice (.poll name waker)) := by
  change Leaves machine.calls name waker
    (Wait.RegisteredFor · (machine.pollFuture name waker).machine.events waker)
    (machine.pollFuture name waker)
  change (machine.pollFuture name waker).machine.events.Few at few
  unfold pollFuture at few ⊢
  split
  · exact ⟨fun call member => .inl member, nofun⟩
  · next holding found =>
      have before := owned.perm (waits_perm_of_get? found)
      have after := before.handled
        ((holding.future.poll_handles waker machine.events).append _)
      simp only [found] at few
      refine afterPoll_leaves { machine with futures := machine.futures.erase name } ?_
      intro opened wait member
      exact afterPoll_registeredFor name holding.event waker after member
        (Future.registeredFor_of_poll before opened (few_of_afterPoll few) wait member) few

theorem resume_leaves {machine : Machine ω σ ν} (owned : Owned machine.events machine.waits)
    {name : ν} {holding : Holding σ} {waker : ω} {rest : List (Call ω σ ν)}
    (calls : machine.calls = .polling name holding waker :: rest) (response : Response σ)
    (choice : Nat) (few : (machine.resume response choice).machine.events.Few) :
    Leaves rest name waker
      (fun wait => wait ∈ holding.future.waits ∧ ∀ own, wait.RegisteredFor machine.events own →
        wait.RegisteredFor (machine.resume response choice).machine.events own)
      (machine.resume response choice) := by
  have before := owned.perm (waits_perm_of_calls calls)
  have after := before.handled
    ((holding.future.resume_handles response machine.events).append _)
  rw [resume_polling calls response choice] at few ⊢
  refine afterPoll_leaves { machine with calls := rest } ?_
  intro opened wait member
  obtain ⟨-, events, waits⟩ := Future.resume_isOpen opened
  refine ⟨waits ▸ member, ?_⟩
  intro own registered
  exact afterPoll_registeredFor name holding.event waker after member
    (events.symm ▸ registered) few

end Machine

end Latch
