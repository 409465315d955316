import Latch.Proofs.Accounts
import Latch.Proofs.Registration

/-!
# Fresh wakers

The entry of a registered wait holds a waker that does for the one that the wait was polled with
last: a poll sees to that, and the entry stays as it is until the wait is polled again, is dropped,
or has its event set. It makes no difference how the wait is polled, or what is done with other
waits meanwhile, as long as their tokens do not repeat.
-/

set_option autoImplicit false

namespace Latch

variable {ω σ ν : Type}

/-- Whether an occurrence tells that the wait with the given token was polled again. -/
def Occurrence.refreshes (event : EventId) (token : Token) : Occurrence ω → Bool
  | .refreshed id own _ _ => id = event ∧ own = token
  | .registered .. | .exchanged .. | .withdrawn .. | .cancelled _ | .releasingAll .. => false
  | .releasingOne _ | .woken .. | .eventSet .. => false

/-! ## Entries -/

/-- The entry of a wait that is not polled again stays as it is, unless the wait is dropped. -/
theorem Registry.Changes.keeps [Waker ω] {event : EventId} {token : Token} {stored : ω}
    {registry after : Registry ω} {trace : List (Occurrence ω)}
    (changes : Changes event registry trace after) (found : registry.get? token = some stored)
    (spared : ∀ occurrence ∈ trace, occurrence.refreshes event token = false)
    (few : after.issued ≤ Token.limit) :
    .withdrawn event token ∈ trace ∨ after.get? token = some stored := by
  induction changes with
  | nothing | other => exact .inr found
  | @change registry after occurrence change =>
      have unpolled := spared occurrence (List.mem_singleton_self _)
      cases change with
      | registered waker =>
          have different : token ≠ registry.next := by
            rintro rfl
            rw [get?_next few] at found
            cases found
          rw [get?_add, if_neg different]
          exact .inr found
      | kept => exact .inr found
      | @replaced other waker member =>
          have different : token ≠ other := by
            rintro rfl
            simp [Occurrence.refreshes] at unpolled
          rw [get?_replace, if_neg fun both => different both.1]
          exact .inr found
      | @withdrawn other member =>
          by_cases same : token = other
          · exact .inl (same ▸ List.mem_singleton_self _)
          · rw [get?_remove, if_neg same]
            exact .inr found
  | trans _ tail early late =>
      have fewer := Nat.le_trans tail.issued_le few
      have first := fun occurrence member => spared occurrence (List.mem_append_left _ member)
      have second := fun occurrence member => spared occurrence (List.mem_append_right _ member)
      rcases early found first fewer with gone | kept
      · exact .inl (List.mem_append_left _ gone)
      · exact (late kept second few).imp_left (List.mem_append_right _)

/-- The registry of an event holds, under a token, a waker that does for the given one. -/
def Events.HoldsFor [Waker ω] (events : Events ω) (event : EventId) (token : Token) (waker : ω) :
    Prop :=
  ∃ stored, (events.get event).registry.get? token = some stored ∧ willWake stored waker = true

theorem Registry.Changes.holdsFor [Waker ω] {events next : Events ω} {event : EventId}
    {token : Token} {waker : ω} {trace : List (Occurrence ω)}
    (changes : Changes event (events.get event).registry trace (next.get event).registry)
    (holds : events.HoldsFor event token waker)
    (spared : ∀ occurrence ∈ trace, occurrence.refreshes event token = false)
    (few : (next.get event).registry.issued ≤ Token.limit) :
    .withdrawn event token ∈ trace ∨ next.HoldsFor event token waker := by
  obtain ⟨stored, found, does⟩ := holds
  exact (changes.keeps found spared few).imp_right fun kept => ⟨stored, kept, does⟩

/-! ## Polls -/

namespace Wait

theorem refreshes_of_drop {wait : Wait} {events : Events ω} {occurrence : Occurrence ω}
    (told : occurrence ∈ (wait.drop events).trace) (event : EventId) (token : Token) :
    occurrence.refreshes event token = false := by
  obtain ⟨own, rfl⟩ := mem_trace_of_drop told
  rfl

variable [Waker ω]

theorem refreshes_of_poll {wait : Wait} {events : Events ω} {waker : ω}
    {occurrence : Occurrence ω} (told : occurrence ∈ (wait.poll waker events).trace)
    {event : EventId} {token : Token} (refreshes : occurrence.refreshes event token = true) :
    wait.event = event ∧ wait.token = some token := by
  have enrolled : ∀ registry : Registry ω,
      (Wait.enrolled wait.event (registry.enrol wait.token waker).1 waker
        (registry.enrol wait.token waker).2.1).refreshes event token = true →
          wait.event = event ∧ wait.token = some token := by
    intro registry refreshes
    unfold Registry.enrol at refreshes
    split at refreshes
    · cases refreshes
    · next own holds =>
        split at refreshes
        · cases refreshes
        · obtain ⟨here, same⟩ := of_decide_eq_true refreshes
          exact ⟨here, same ▸ holds⟩
        · obtain ⟨here, same⟩ := of_decide_eq_true refreshes
          exact ⟨here, same ▸ holds⟩
  unfold poll Event.register at told
  simp only at told
  split at told
  · cases told
  · split at told
    · cases told
    · next registered =>
        split at registered
        · cases registered
        · cases registered
          rw [List.mem_singleton.mp told] at refreshes
          exact enrolled _ refreshes

end Wait

namespace Future

theorem refreshes_of_settle {wait : Wait} {signal : Future σ} {answer : Answer}
    {note : List (Occurrence ω)} {events : Events ω}
    (noted : ∀ occurrence ∈ note, ∃ id, occurrence = .cancelled id) {occurrence : Occurrence ω}
    (told : occurrence ∈ (settle wait signal answer note events).trace) (event : EventId)
    (token : Token) : occurrence.refreshes event token = false := by
  have cases : occurrence ∈ (wait.drop events).trace ∨ occurrence ∈ note := by
    unfold settle at told
    simp only at told
    split at told
    · exact .inl told
    · exact List.mem_append.mp told
  rcases cases with dropped | also
  · exact Wait.refreshes_of_drop dropped event token
  · obtain ⟨id, rfl⟩ := noted occurrence also
    rfl

theorem refreshes_of_conclude {wait : Wait} {polled : Polled σ ω} {occurrence : Occurrence ω}
    (told : occurrence ∈ (conclude wait polled).trace) (event : EventId) (token : Token)
    (refreshes : occurrence.refreshes event token = true) : occurrence ∈ polled.trace := by
  have settled : ∀ signal answer events,
      occurrence ∈ (settle (σ := σ) wait signal answer [.cancelled wait.event] events).trace →
        False := by
    intro signal answer events member
    rw [refreshes_of_settle (by simp) member] at refreshes
    cases refreshes
  unfold conclude at told
  split at told
  any_goals exact told
  all_goals
    exact (List.mem_append.mp told).resolve_right (settled _ _ _)

theorem refreshes_of_drop {future : Future σ} {events : Events ω} {occurrence : Occurrence ω}
    (told : occurrence ∈ (future.drop events).trace) (event : EventId) (token : Token) :
    occurrence.refreshes event token = false := by
  induction future generalizing events with
  | plain wait => exact Wait.refreshes_of_drop told event token
  | race wait signal ih =>
      cases wait with
      | none => exact ih told
      | some wait =>
          rcases List.mem_append.mp told with first | second
          · exact Wait.refreshes_of_drop first event token
          · exact ih second
  | ready | never | external => cases told

theorem refreshes_of_resume {response : Response σ} {future : Future σ} {events : Events ω}
    {occurrence : Occurrence ω} (told : occurrence ∈ (future.resume response events).trace)
    (event : EventId) (token : Token) : occurrence.refreshes event token = false := by
  induction future generalizing events with
  | plain | ready | never => cases told
  | race wait signal ih =>
      cases wait with
      | none => cases told
      | some wait =>
          rw [Bool.eq_false_iff]
          intro refreshes
          have inner := refreshes_of_conclude told event token refreshes
          rw [ih inner] at refreshes
          cases refreshes
  | external => cases response <;> cases told

variable [Waker ω]

/-- The waits that a poll comes to, as it finds them: one after another, as long as they are
pending. -/
def reached (waker : ω) : Future σ → Events ω → List Wait
  | plain wait, _ => [wait]
  | race (some wait) signal, events =>
      let first := wait.poll waker events
      wait :: match first.outcome with
        | .ok false => signal.reached waker first.events
        | .ok true | .error _ => []
  | race none _, _ | ready, _ | never, _ | external _, _ => []

theorem refreshes_of_poll {waker : ω} {future : Future σ} {events : Events ω}
    {occurrence : Occurrence ω} (told : occurrence ∈ (future.poll waker events).trace)
    {event : EventId} {token : Token} (refreshes : occurrence.refreshes event token = true) :
    ∃ wait ∈ future.reached waker events, wait.event = event ∧ wait.token = some token := by
  induction future generalizing events with
  | plain wait => exact ⟨wait, List.mem_singleton_self _, Wait.refreshes_of_poll told refreshes⟩
  | race wait signal ih =>
      cases wait with
      | none => cases told
      | some wait =>
          have first : occurrence ∈ (wait.poll waker events).trace →
              ∃ other ∈ (race (some wait) signal).reached waker events,
                other.event = event ∧ other.token = some token :=
            fun early => ⟨wait, List.mem_cons_self, Wait.refreshes_of_poll early refreshes⟩
          simp only [poll] at told
          split at told
          · exact first told
          · rcases List.mem_append.mp told with early | late
            · exact first early
            · have silent := refreshes_of_settle (by simp) late event token
              rw [silent] at refreshes
              cases refreshes
          · next pending =>
              rcases List.mem_append.mp told with early | late
              · exact first early
              · have inner := refreshes_of_conclude late event token refreshes
                obtain ⟨other, member, same⟩ := ih inner
                refine ⟨other, ?_, same⟩
                simp only [reached, pending]
                exact List.mem_cons_of_mem _ member
  | ready | never | external => cases told

end Future

/-! ## What a poll leaves in the registry -/

variable [Waker ω]

/-- Ending a race drops its wait, which withdraws an entry or leaves it. -/
theorem Future.holdsFor_of_conclude {outer : Wait} {polled : Polled σ ω} {others : List Wait}
    (owned : Owned polled.events (outer :: others)) {event : EventId} {token : Token} {waker : ω}
    (before : .withdrawn event token ∈ polled.trace ∨ polled.events.HoldsFor event token waker)
    (few : (polled.events.get event).registry.issued ≤ Token.limit) :
    .withdrawn event token ∈ (conclude outer polled).trace ∨
      (conclude outer polled).events.HoldsFor event token waker := by
  have settled : ∀ answer note,
      .withdrawn event token ∈
          polled.trace ++ (settle outer polled.future answer note polled.events).trace ∨
        (settle outer polled.future answer note polled.events).events.HoldsFor event token
          waker := by
    intro answer note
    rcases before with gone | holds
    · exact .inl (List.mem_append_left _ gone)
    · rw [← outer.issued_drop] at few
      have dropped := (owned.drop_changes event).holdsFor holds
        (fun occurrence told => Wait.refreshes_of_drop told event token) few
      unfold settle
      simp only
      split
      · exact dropped.imp_left (List.mem_append_right _)
      · exact dropped.imp_left fun gone => List.mem_append_right _ (List.mem_append_left _ gone)
  unfold conclude
  split
  any_goals exact before
  all_goals exact settled _ _

section

variable [LawfulWaker ω]

/-- Polled on an unset event, a wait keeps the token that it has or gets one, if tokens do not
repeat. -/
theorem Wait.holdsFor_of_poll {wait : Wait} {events : Events ω} {others : List Wait}
    (owned : Owned events (wait :: others)) (unset : (events.get wait.event).isSet = false)
    (waker : ω) :
    ∃ token, ((events.get wait.event).registry.issued ≤ Token.limit →
        wait.token = none ∨ wait.token = some token) ∧
      (wait.poll waker events).outcome = .ok false ∧
      (wait.poll waker events).wait = { wait with token := some token } ∧
      (wait.poll waker events).events.HoldsFor wait.event token waker := by
  obtain ⟨token, enrolment, registry, enrols, -⟩ := owned.enrols unset waker
  obtain ⟨stored, found, does⟩ := Registry.willWake_of_enrol enrols
  have own : (events.get wait.event).registry.issued ≤ Token.limit →
      wait.token = none ∨ wait.token = some token := by
    intro few
    cases holds : wait.token with
    | none => exact .inl rfl
    | some own =>
        have member := owned.member List.mem_cons_self holds unset few
        obtain ⟨other, same⟩ := Registry.enrol_member waker member
        rw [holds, same] at enrols
        cases enrols
        exact .inr rfl
  rw [poll_of_unset unset (owned.free _) waker enrols]
  refine ⟨token, own, rfl, rfl, stored, ?_, does⟩
  rw [Events.get_put_self]
  exact found

theorem Future.holdsFor_of_poll {waker : ω} {future : Future σ} {events : Events ω}
    {others : List Wait} (owned : Owned events (future.waits ++ others)) {wait : Wait}
    (reached : wait ∈ future.reached waker events)
    (unset : (events.get wait.event).isSet = false)
    (few : ((future.poll waker events).events.get wait.event).registry.issued ≤ Token.limit) :
    ∃ token, (wait.token = none ∨ wait.token = some token) ∧
      (.withdrawn wait.event token ∈ (future.poll waker events).trace ∨
        (future.poll waker events).events.HoldsFor wait.event token waker) := by
  induction future generalizing events others with
  | plain only =>
      cases List.mem_singleton.mp reached
      have handles : Handles events [wait] _ _ _ := .poll waker wait
      have fewer := Nat.le_trans (handles.issued_le wait.event) few
      obtain ⟨token, own, -, -, holds⟩ := Wait.holdsFor_of_poll owned unset waker
      exact ⟨token, own fewer, .inr holds⟩
  | race outer signal ih =>
      cases outer with
      | none => cases reached
      | some outer =>
          have whole : Owned events (outer :: (signal.waits ++ others)) := owned
          cases flag : (events.get outer.event).isSet with
          | true =>
              simp only [Future.reached, Wait.poll_of_set flag] at reached
              rw [List.mem_singleton.mp reached, flag] at unset
              cases unset
          | false =>
              obtain ⟨held, own, pending, after, stored, found, does⟩ :=
                Wait.holdsFor_of_poll whole flag waker
              have first : Owned (outer.poll waker events).events
                  (signal.waits ++ ((outer.poll waker events).wait :: others)) :=
                (whole.poll waker).perm List.perm_middle.symm
              have handles := signal.poll_handles waker (outer.poll waker events).events
              have second := (first.handled (handles.append _)).perm List.perm_middle
              simp only [Future.reached, pending, List.mem_cons] at reached
              simp only [Future.poll, pending, issued_conclude] at few ⊢
              have polled : Handles events (outer :: signal.waits) _ _ _ := .poll waker outer
              rcases reached with rfl | inner
              · have grown := (polled.trans (handles.cons _)).issued_le wait.event
                have here : (wait.poll waker events).wait.event = wait.event := by rw [after]
                have token : (wait.poll waker events).wait.token = some held := by rw [after]
                rw [← here] at found
                have kept := handles.keeps first List.mem_cons_self token found (here ▸ few)
                rw [here] at kept
                refine ⟨held, own (Nat.le_trans grown few), ?_⟩
                exact (holdsFor_of_conclude second (.inr ⟨stored, kept, does⟩) few).imp_left
                  (List.mem_append_right _)
              · have still := (polled.isSet wait.event).trans unset
                obtain ⟨token, kept, left⟩ := ih first inner still few
                exact ⟨token, kept, (holdsFor_of_conclude second left few).imp_left
                  (List.mem_append_right _)⟩
  | ready | never | external => cases reached

end

/-! ## Moves -/

namespace Machine

variable [DecidableEq ν]

/-- The waits that a move polls. -/
def polled (machine : Machine ω σ ν) : Move ω σ ν → List Wait
  | .perform _ (.poll name waker) =>
      match machine.futures.get? name with
      | some holding => holding.future.reached waker machine.events
      | none => []
  | .perform .. | .resume .. => []

section

variable {machine : Machine ω σ ν} {occurrence : Occurrence ω} (event : EventId) (token : Token)

omit [Waker ω] [DecidableEq ν] in
theorem refreshes_of_continueSet {id : EventId} {released choice : Nat}
    {remaining : List (Token × ω)}
    (told : occurrence ∈ (machine.continueSet id released remaining choice).trace) :
    occurrence.refreshes event token = false := by
  unfold continueSet at told
  split at told
  · rw [List.mem_singleton.mp told]
    rfl
  · rw [List.mem_singleton.mp told]
    rfl

omit [Waker ω] in
theorem refreshes_of_continueReleaseAll {name : ν} {registry : Registry ω}
    {released choice : Nat} {remaining : List (Token × ω)}
    (told : occurrence ∈
      (machine.continueReleaseAll name registry released remaining choice).trace) :
    occurrence.refreshes event token = false := by
  unfold continueReleaseAll at told
  split at told
  · rw [List.mem_singleton.mp told]
    rfl
  · cases told

omit [Waker ω] in
theorem refreshes_of_continueDrain {name : ν} {registry : Registry ω} {released : List Token}
    {choice : Nat}
    (told : occurrence ∈ (machine.continueDrain name registry released choice).trace) :
    occurrence.refreshes event token = false := by
  unfold continueDrain at told
  split at told
  · cases told
  · rcases List.mem_cons.mp told with rfl | told
    · rfl
    · rw [List.mem_singleton.mp told]
      rfl

omit [Waker ω] in
theorem refreshes_of_store {name : ν} {holding : Holding σ} {control : Control ω σ}
    (told : occurrence ∈ (machine.store name holding control).trace) :
    occurrence.refreshes event token = false := by
  unfold store at told
  simp only at told
  split at told
  · cases told
  · exact Future.refreshes_of_drop told event token

omit [Waker ω] in
theorem refreshes_of_afterPoll {name : ν} {id : EventId} {waker : ω}
    {polled : Future.Polled σ ω}
    (told : occurrence ∈ (machine.afterPoll name id waker polled).trace)
    (refreshes : occurrence.refreshes event token = true) : occurrence ∈ polled.trace := by
  unfold afterPoll at told
  refine (List.mem_append.mp told).resolve_right fun stored => ?_
  split at stored
  any_goals
    rw [refreshes_of_store event token stored] at refreshes
    cases refreshes
  cases stored

theorem refreshes_of_perform {choice : Nat} {action : Action ω σ ν}
    (told : occurrence ∈ (machine.perform choice action).trace)
    (other : ∀ name waker, action ≠ .poll name waker) :
    occurrence.refreshes event token = false := by
  cases action with
  | poll name waker => exact absurd rfl (other name waker)
  | makeEvent | dropRegistry | wake => cases told
  | makeWait => exact refreshes_of_store event token told
  | setEvent id =>
      simp only [perform, setEvent] at told
      split at told
      · cases told
      · cases told
      · rcases List.mem_cons.mp told with rfl | later
        · rfl
        · exact refreshes_of_continueSet event token later
  | drop name =>
      simp only [perform, dropFuture] at told
      split at told
      · cases told
      · exact Future.refreshes_of_drop told event token
  | race name signal =>
      simp only [perform, raceFuture] at told
      split at told
      · split at told <;> cases told
      · cases told
  | makeRegistry name capacity? =>
      simp only [perform, makeRegistry] at told
      split at told
      · cases told
      · split at told <;> cases told
  | add name waker | remove name own =>
      simp only [perform, addMember, removeMember] at told
      split at told <;> cases told
  | update name own waker =>
      simp only [perform, updateMember] at told
      split at told
      · cases told
      · simp only at told
        split at told
        · rw [List.mem_singleton.mp told]
          rfl
        · cases told
  | releaseAll name =>
      simp only [perform, releaseAll] at told
      split at told
      · cases told
      · rcases List.mem_cons.mp told with rfl | later
        · rfl
        · exact refreshes_of_continueReleaseAll event token later
  | releaseOne name =>
      simp only [perform, releaseOne] at told
      split at told
      · cases told
      · split at told
        · cases told
        · rcases List.mem_cons.mp told with rfl | told
          · rfl
          · rw [List.mem_singleton.mp told]
            rfl
  | drain name =>
      simp only [perform, drain] at told
      split at told
      · cases told
      · exact refreshes_of_continueDrain event token told

omit [Waker ω] in
theorem refreshes_of_resume {response : Response σ} {choice : Nat}
    (told : occurrence ∈ (machine.resume response choice).trace) :
    occurrence.refreshes event token = false := by
  unfold resume at told
  cases calls : machine.calls with
  | nil =>
      rw [calls] at told
      cases told
  | cons call rest =>
      rw [calls] at told
      cases call with
      | setting id released remaining =>
          cases response with
          | panicked => cases told
          | ready | pending => exact refreshes_of_continueSet event token told
      | releasingAll name registry released remaining =>
          cases response with
          | panicked => cases told
          | ready | pending => exact refreshes_of_continueReleaseAll event token told
      | draining name registry released =>
          cases response with
          | panicked => cases told
          | ready | pending => exact refreshes_of_continueDrain event token told
      | releasingOne | waking => cases response <;> cases told
      | polling name holding waker =>
          rw [Bool.eq_false_iff]
          intro refreshes
          have resumed : occurrence ∈ (holding.future.resume response machine.events).trace := by
            cases response <;> exact refreshes_of_afterPoll event token told refreshes
          rw [Future.refreshes_of_resume resumed event token] at refreshes
          cases refreshes

/-- A move that refreshes an entry polls the wait that the entry is for. -/
theorem refreshes_of_move {next : Move ω σ ν}
    (told : occurrence ∈ (machine.move next).trace)
    (refreshes : occurrence.refreshes event token = true) :
    ∃ wait ∈ machine.polled next, wait.event = event ∧ wait.token = some token := by
  cases next with
  | perform choice action =>
      change occurrence ∈ (machine.perform choice action).trace at told
      by_cases polls : ∃ name waker, action = .poll name waker
      · obtain ⟨name, waker, rfl⟩ := polls
        change occurrence ∈ (machine.pollFuture name waker).trace at told
        unfold pollFuture at told
        split at told
        · cases told
        · next holding found =>
            have early := refreshes_of_afterPoll event token told refreshes
            obtain ⟨wait, reached, same⟩ := Future.refreshes_of_poll early refreshes
            refine ⟨wait, ?_, same⟩
            simp only [polled, found]
            exact reached
      · have silent := refreshes_of_perform event token told
          fun name waker same => polls ⟨name, waker, same⟩
        rw [silent] at refreshes
        cases refreshes
  | resume response choice =>
      rw [refreshes_of_resume event token told] at refreshes
      cases refreshes

/-- Some moves, none of which polls a wait that holds the token with the event. -/
inductive Unpolled (event : EventId) (token : Token) :
    Machine ω σ ν → List (Occurrence ω) → Machine ω σ ν → Prop
  | refl {machine : Machine ω σ ν} : Unpolled event token machine [] machine
  | step {machine later : Machine ω σ ν} {trace : List (Occurrence ω)}
      (meanwhile : Unpolled event token machine trace later) (next : Move ω σ ν)
      (unpolled : ∀ wait ∈ later.polled next, wait.event = event → wait.token ≠ some token) :
      Unpolled event token machine (trace ++ (later.move next).trace) (later.move next).machine

end

variable {history trace : List (Occurrence ω)} {machine later : Machine ω σ ν}

theorem Unpolled.run {event : EventId} {token : Token}
    (meanwhile : Unpolled event token machine trace later) (run : Run history machine) :
    Run (history ++ trace) later := by
  induction meanwhile with
  | refl =>
      rw [List.append_nil]
      exact run
  | step _ next _ ih =>
      rw [← List.append_assoc]
      exact ih.step next

/-- An entry of an unset event stays while its wait is neither polled nor dropped. -/
theorem Unpolled.holdsFor {event : EventId} {token : Token} {waker : ω}
    (meanwhile : Unpolled event token machine trace later) (run : Run history machine)
    (holds : machine.events.HoldsFor event token waker)
    (unset : (later.events.get event).isSet = false)
    (few : (later.events.get event).registry.issued ≤ Token.limit) :
    .withdrawn event token ∈ trace ∨ later.events.HoldsFor event token waker := by
  -- An event that is unset in the end was unset all along, so its registry only saw changes.
  induction meanwhile with
  | refl => exact .inr holds
  | @step later trace meanwhile next unpolled ih =>
      have quiet : ∀ occurrence ∈ (later.move next).trace,
          occurrence.refreshes event token = false := by
        intro occurrence told
        rw [Bool.eq_false_iff]
        intro refreshes
        obtain ⟨wait, member, here, held⟩ := refreshes_of_move event token told refreshes
        exact unpolled wait member here held
      cases move_sees (meanwhile.run run).owned event next with
      | aside flag changes =>
          rcases ih (flag.symm.trans unset) (Nat.le_trans changes.issued_le few) with gone | kept
          · exact .inl (List.mem_append_left _ gone)
          · exact (changes.holdsFor kept quiet few).imp_left (List.mem_append_right _)
      | begins _ set =>
          rw [set] at unset
          cases unset
      | goesOn _ events | breaks _ _ events =>
          rw [events] at unset few
          rcases ih unset few with gone | kept
          · exact .inl (List.mem_append_left _ gone)
          · exact .inr (by rw [events]; exact kept)

theorem Run.not_withdrawn (run : Run history machine) {event : EventId} {token : Token}
    (unset : (machine.events.get event).isSet = false)
    (few : (machine.events.get event).registry.issued ≤ Token.limit) {wait : Wait}
    (live : wait ∈ machine.waits) (here : wait.event = event) (holds : wait.token = some token) :
    .withdrawn event token ∉ history := by
  intro told
  have standing : token ∈ (machine.events.get event).registry.members.keys :=
    (run.owned.held event unset few).mem_iff.mpr (Wait.mem_tokensOn.mpr ⟨wait, live, here, holds⟩)
  rw [← run.length_registrations unset] at few
  have apart := (List.nodup_append.mp (run.withdrawn_nodup event few)).2.2
  exact apart token (mem_withdrawals.mpr told) token standing rfl

variable [LawfulWaker ω]

theorem holdsFor_of_poll (run : Run history machine) {choice : Nat} {name : ν} {waker : ω}
    {wait : Wait} (polled : wait ∈ machine.polled (.perform choice (.poll name waker)))
    (unset : (machine.events.get wait.event).isSet = false)
    (few : ((machine.perform choice (.poll name waker)).machine.events.get
      wait.event).registry.issued ≤ Token.limit) :
    ∃ token, (wait.token = none ∨ wait.token = some token) ∧
      (.withdrawn wait.event token ∈ (machine.perform choice (.poll name waker)).trace ∨
        (machine.perform choice (.poll name waker)).machine.events.HoldsFor wait.event token
          waker) := by
  change ∃ token, (wait.token = none ∨ wait.token = some token) ∧
    (.withdrawn wait.event token ∈ (machine.pollFuture name waker).trace ∨
      (machine.pollFuture name waker).machine.events.HoldsFor wait.event token waker)
  change ((machine.pollFuture name waker).machine.events.get
    wait.event).registry.issued ≤ Token.limit at few
  simp only [Machine.polled] at polled
  unfold pollFuture at few ⊢
  cases found : machine.futures.get? name with
  | none =>
      rw [found] at polled
      cases polled
  | some holding =>
      simp only [found] at polled few ⊢
      have owned := run.owned.perm (waits_perm_of_get? found)
      have events : ∀ (reached : Future.Polled σ ω),
          ({ machine with futures := machine.futures.erase name }.afterPoll name holding.event waker
            reached).machine.events = reached.events := by
        intro reached
        unfold afterPoll store
        simp only [Table.get?_erase_self]
        split <;> rfl
      rw [events] at few ⊢
      obtain ⟨token, own, left⟩ := Future.holdsFor_of_poll owned polled unset few
      refine ⟨token, own, ?_⟩
      exact left.imp_left (List.mem_append_left _)

end Machine

end Latch
