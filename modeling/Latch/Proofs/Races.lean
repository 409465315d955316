import Latch.Future.Asking
import Latch.Proofs.Breaking
import Latch.Proofs.Freshness

/-!
# Races

A race of a wait against a signal is polled again and again until one of them wins, and never after
that. Each poll sees to the wait first, and to the signal only if the event is unset. Whatever the
signal does meanwhile, the wait has left no registration behind when the caller hears who has won.
-/

set_option autoImplicit false

namespace Latch

variable {ω σ ν : Type} [Waker ω]

omit [Waker ω] in
/-- A registered wait that is dropped is registered no more; the trace tells of it if the event is
unset, and its tokens do not repeat. -/
theorem Owned.drop_of_token {events : Events ω} {wait : Wait} {others : List Wait}
    (owned : Owned events (wait :: others)) {token : Token} (holds : wait.token = some token) :
    ((events.get wait.event).registry.issued ≤ Token.limit → (wait.drop events).trace =
        if (events.get wait.event).isSet then [] else [.withdrawn wait.event token]) ∧
      token ∉ ((wait.drop events).events.get wait.event).registry.members.keys := by
  constructor
  · intro few
    cases flag : (events.get wait.event).isSet with
    | true => exact (owned.drop_of_set flag).1
    | false =>
        have present : (events.get wait.event).registry.contains token = true :=
          Table.contains_iff.mpr (owned.member List.mem_cons_self holds flag few)
        rw [wait.trace_drop, Wait.withdraw_of_free (owned.free _) holds, if_pos present]
        rfl
  · intro member
    obtain ⟨stored, found⟩ := (Registry.contains_iff _ _).mp (Table.contains_iff.mpr member)
    rw [Wait.get?_drop (owned.free _), if_pos (Wait.tokenOn?_eq_some.mpr ⟨rfl, holds⟩)] at found
    cases found

omit [Waker ω] in
theorem Wait.message?_enrolled (event : EventId) (token : Token) (waker : ω)
    (enrolment : Enrolment) :
    (Wait.enrolled event token waker enrolment).message? Occurrence.tokenText = none := by
  cases enrolment <;> rfl

namespace Future

/-- The futures that a poll comes to, outermost first, with the events as it finds them there. -/
def comesTo (waker : ω) : Future σ → Events ω → List (Future σ × Events ω)
  | race (some wait) signal, events =>
      (race (some wait) signal, events) ::
        if (events.get wait.event).isSet then []
        else signal.comesTo waker (wait.poll waker events).events
  | plain wait, events => [(plain wait, events)]
  | race none signal, events => [(race none signal, events)]
  | ready, events => [(ready, events)]
  | never, events => [(never, events)]
  | external signal, events => [(external signal, events)]

/-- A poll that asked for a signal went on when the signal came back. -/
def Polled.andThen (polled : Polled σ ω) (meanwhile : List (Occurrence ω))
    (resumed : Polled σ ω) : Polled σ ω :=
  { resumed with trace := polled.trace ++ (meanwhile ++ resumed.trace) }

variable {future part : Future σ} {events found : Events ω} {waker : ω} {wait : Wait}
  {signal : Future σ} {others : List Wait}

theorem self_comesTo : (future, events) ∈ future.comesTo waker events := by
  unfold comesTo
  split <;> exact List.mem_cons_self

theorem comesTo_of_unset (unset : (events.get wait.event).isSet = false) :
    (race (some wait) signal).comesTo waker events =
      (race (some wait) signal, events) ::
        signal.comesTo waker (wait.poll waker events).events := by
  simp [comesTo, unset]

theorem comesTo_of_set (set : (events.get wait.event).isSet = true) :
    (race (some wait) signal).comesTo waker events = [(race (some wait) signal, events)] := by
  simp [comesTo, set]

/-- A poll that comes to a race whose event is unset comes to its signal. -/
theorem signal_comesTo (reached : (race (some wait) signal, found) ∈ future.comesTo waker events)
    (unset : (found.get wait.event).isSet = false) :
    (signal, (wait.poll waker found).events) ∈ future.comesTo waker events := by
  induction future generalizing events with
  | plain | ready | never | external => cases List.mem_singleton.mp reached
  | race outer inner ih =>
      cases outer with
      | none => cases List.mem_singleton.mp reached
      | some outer =>
          cases flag : (events.get outer.event).isSet with
          | true =>
              rw [comesTo_of_set flag] at reached
              cases List.mem_singleton.mp reached
              rw [flag] at unset
              cases unset
          | false =>
              rw [comesTo_of_unset flag] at reached ⊢
              rcases List.mem_cons.mp reached with same | later
              · cases same
                exact List.mem_cons_of_mem _ self_comesTo
              · exact List.mem_cons_of_mem _ (ih later)

/-! ## Single polls -/

theorem poll_race_of_unset (owned : Owned events (wait :: others))
    (unset : (events.get wait.event).isSet = false) (waker : ω) (signal : Future σ) :
    ∃ token enrolment enlisted,
      wait.poll waker events =
        { outcome := .ok false, wait := { wait with token := some token }, events := enlisted
          trace := [Wait.enrolled wait.event token waker enrolment] } ∧
      (race (some wait) signal).poll waker events =
        let concluded := conclude { wait with token := some token } (signal.poll waker enlisted)
        { concluded with
          trace := Wait.enrolled wait.event token waker enrolment :: concluded.trace } := by
  obtain ⟨token, enrolment, registry, enrols, -⟩ := owned.enrols unset waker
  have polled := Wait.poll_of_unset unset (owned.free _) waker enrols
  refine ⟨token, enrolment, _, polled, ?_⟩
  simp only [poll, polled]
  rfl

theorem poll_race_of_set (owned : Owned events (wait :: others))
    (set : (events.get wait.event).isSet = true) (waker : ω) (signal : Future σ) :
    let polled := (race (some wait) signal).poll waker events
    polled.progress = .answered .completed ∧ polled.future = .race none signal ∧
      polled.trace = [] ∧ ∀ id, (polled.events.get id).isSet = (events.get id).isSet ∧
        (polled.events.get id).registry = (events.get id).registry := by
  have after := owned.poll waker
  rw [Wait.poll_of_set set] at after
  obtain ⟨silent, kept⟩ := after.drop_of_set set
  have handles : Handles events [{ wait with token := none, completed := true }] _ _ [] :=
    Handles.drop { wait with token := none, completed := true }
  simp only [poll, Wait.poll_of_set set, settle, after.drop.1, silent]
  exact ⟨trivial, trivial, rfl, fun id => ⟨handles.isSet id, kept id⟩⟩

/-- The poll of a future that another poll comes to asks for what that poll asks for. -/
structure Inside (waker : ω) (future : Future σ) (events : Events ω) (part : Future σ)
    (found : Events ω) : Prop where
  owned : ∃ others, Owned found (part.waits ++ others)
  asks : ∀ asked, (future.poll waker events).progress = .asks asked ↔
    (part.poll waker found).progress = .asks asked
  waits : ∀ asked, (future.poll waker events).progress = .asks asked →
    ∃ outer, (future.poll waker events).future.waits =
      outer ++ (part.poll waker found).future.waits

theorem Inside.self (owned : Owned events (future.waits ++ others)) :
    Inside waker future events future events :=
  ⟨⟨others, owned⟩, fun _ => .rfl, fun _ _ => ⟨[], rfl⟩⟩

theorem inside_of_comesTo (owned : Owned events (future.waits ++ others))
    (reached : (part, found) ∈ future.comesTo waker events) :
    Inside waker future events part found := by
  induction future generalizing events others with
  | plain | ready | never | external =>
      cases List.mem_singleton.mp reached
      exact .self owned
  | race outer inner ih =>
      cases outer with
      | none =>
          cases List.mem_singleton.mp reached
          exact .self owned
      | some outer =>
          cases flag : (events.get outer.event).isSet with
          | true =>
              rw [comesTo_of_set flag] at reached
              cases List.mem_singleton.mp reached
              exact .self owned
          | false =>
              rw [comesTo_of_unset flag] at reached
              rcases List.mem_cons.mp reached with same | later
              · cases same
                exact .self owned
              · have whole : Owned events (outer :: (inner.waits ++ others)) := owned
                have first : Owned (outer.poll waker events).events
                    (inner.waits ++ ((outer.poll waker events).wait :: others)) :=
                  (whole.poll waker).perm List.perm_middle.symm
                obtain ⟨owned, asks, waits⟩ := ih first later
                obtain ⟨token, enrolment, enlisted, polled, same⟩ :=
                  poll_race_of_unset whole flag waker inner
                rw [polled] at asks waits
                refine ⟨owned, ?_, ?_⟩
                · intro asked
                  rw [same]
                  exact conclude_asks.trans (asks asked)
                · intro asked before
                  rw [same] at before ⊢
                  have inner := conclude_asks.mp before
                  obtain ⟨outer, split⟩ := waits asked inner
                  simp only [conclude_future inner]
                  exact ⟨_ :: outer, congrArg _ split⟩

/-! ## What a race makes of its signal -/

omit [Waker ω] in
theorem conclude_andThen (wait : Wait) (polled resumed : Polled σ ω)
    (meanwhile : List (Occurrence ω)) :
    conclude wait (polled.andThen meanwhile resumed) =
      { conclude wait resumed with
        trace := polled.trace ++ (meanwhile ++ (conclude wait resumed).trace) } := by
  unfold conclude Polled.andThen
  cases resumed.progress with
  | asks | panicked => rfl
  | answered answer =>
      cases answer with
      | pending => rfl
      | completed | cancelled => simp only [List.append_assoc]

omit [Waker ω] in
theorem andThen_conclude {wait : Wait} {polled : Polled σ ω} {asked : σ}
    (asks : polled.progress = .asks asked) (told : Occurrence ω) (meanwhile : List (Occurrence ω))
    (response : Response σ) (events : Events ω) :
    let concluded := conclude wait polled
    let resumed := concluded.future.resume response events
    let answered := polled.andThen meanwhile (polled.future.resume response events)
    { concluded with trace := told :: concluded.trace }.andThen meanwhile resumed =
      { conclude wait answered with trace := told :: (conclude wait answered).trace } := by
  simp only [conclude_andThen, conclude_future asks, resume]
  simp only [conclude, asks]
  rfl

/-- How a race whose event was unset goes on once its signal was polled. Of a wait whose token the
event has handed out again it may not tell that it is withdrawn. -/
inductive Concludes (wait : Wait) (token : Token) (told : Occurrence ω)
    (answered polled : Polled σ ω) : Prop
  | pending (answer : answered.progress = .answered .pending)
      (kept : polled = { answered with
        future := .race (some wait) answered.future, trace := told :: answered.trace })
  | panicked (panic : Panic) (broken : answered.progress = .panicked panic)
      (kept : polled = { answered with
        future := .race (some wait) answered.future, trace := told :: answered.trace })
  | fired (answer : Answer) (ready : answered.progress = .answered answer)
      (done : answer ≠ .pending) (cancelled : polled.progress = .answered .cancelled)
      (settled : polled.future = .race none answered.future)
      (gone : token ∉ (polled.events.get wait.event).registry.members.keys)
      (tells : (answered.events.get wait.event).registry.issued ≤ Token.limit →
        polled.trace = told :: (answered.trace ++
          ((if (answered.events.get wait.event).isSet then []
            else [.withdrawn wait.event token]) ++
            [.cancelled wait.event])))
      (announces : (answered.events.get wait.event).registry.issued ≤ Token.limit →
        Occurrence.messages polled.trace = Occurrence.messages answered.trace ++
          ((if (answered.events.get wait.event).isSet then []
            else ["wait dropped before event was set token=" ++ Occurrence.tokenText token]) ++
            ["wait cancelled by external signal"]))

omit [Waker ω] in
theorem concludes (answered : Polled σ ω) {rest : List Wait}
    (owned : Owned answered.events (wait :: rest)) {token : Token} (holds : wait.token = some token)
    (complete : ∀ asked, answered.progress ≠ .asks asked) {told : Occurrence ω}
    (silent : told.message? Occurrence.tokenText = none) :
    Concludes wait token told answered
      { conclude wait answered with trace := told :: (conclude wait answered).trace } := by
  obtain ⟨withdrawn, gone⟩ := owned.drop_of_token holds
  cases reached : answered.progress with
  | asks asked => exact absurd reached (complete asked)
  | panicked panic => exact .panicked panic reached (by simp only [conclude, reached])
  | answered answer =>
      cases answer with
      | pending => exact .pending reached (by simp only [conclude, reached])
      | completed | cancelled =>
          have fires : conclude wait answered =
              { progress := .answered .cancelled, future := .race none answered.future
                events := (wait.drop answered.events).events
                trace := answered.trace ++
                  ((wait.drop answered.events).trace ++ [.cancelled wait.event]) } := by
            simp only [conclude, reached, settle, owned.drop.1]
          rw [fires]
          refine .fired _ reached (by decide) rfl rfl gone ?_ ?_
          · intro few
            rw [withdrawn few]
          · intro few
            simp only [withdrawn few, Occurrence.messages, List.filterMap_cons, silent,
              List.filterMap_append]
            split <;> rfl

end Future

namespace Machine

variable [DecidableEq ν]

/-! ## Polls in runs -/

section

variable {machine : Machine ω σ ν} {name : ν} {holding : Holding σ} {choice : Nat} {waker : ω}
  {history : List (Occurrence ω)}

theorem poll_asks_iff (found : machine.futures.get? name = some holding) (asked : σ) :
    (machine.perform choice (.poll name waker)).control = .ask asked ↔
      (holding.future.poll waker machine.events).progress = .asks asked := by
  -- The name is free while the future is polled, so that storing it drops no other future.
  simp only [perform, pollFuture, found, afterPoll, store, Table.get?_erase_self]
  cases (holding.future.poll waker machine.events).progress <;> simp

/-- A call that asks for a signal keeps the future that it polls, and the signal finds it there. -/
theorem owned_of_asks (run : Run history machine)
    (found : machine.futures.get? name = some holding) {asked : σ}
    (asks : (holding.future.poll waker machine.events).progress = .asks asked)
    {trace : List (Occurrence ω)} {after : Machine ω σ ν}
    (within : Within (machine.perform choice (.poll name waker)).machine.calls
      (machine.perform choice (.poll name waker)).machine trace after)
    (returned : after.calls = (machine.perform choice (.poll name waker)).machine.calls) :
    ∃ others, Owned after.events
      ((holding.future.poll waker machine.events).future.waits ++ others) := by
  have calls : after.calls = .polling name
      ⟨holding.event, (holding.future.poll waker machine.events).future⟩ waker ::
        machine.calls := by
    rw [returned]
    simp only [perform, pollFuture, found, afterPoll, asks]
    rfl
  have ran := within.run (run.step (.perform choice (.poll name waker)))
  exact ⟨_, ran.owned.perm (waits_perm_of_calls calls)⟩

end

variable (ν) in
/-- From beginning to end, a poll in a run: that of a future under a name, or that of a signal that
it comes to. If an external signal is asked, it does what it likes before it comes back. -/
inductive Polling (waker : ω) : Future σ → Events ω → Future.Polled σ ω → Prop
  | atOnce {history : List (Occurrence ω)} {machine : Machine ω σ ν} {name : ν}
      {holding : Holding σ} {future : Future σ} {events : Events ω}
      (run : Run history machine) (found : machine.futures.get? name = some holding) (choice : Nat)
      (silent : ∀ asked, (machine.perform choice (.poll name waker)).control ≠ .ask asked)
      (reached : (future, events) ∈ holding.future.comesTo waker machine.events) :
      Polling waker future events (future.poll waker events)
  | afterAsking {history trace : List (Occurrence ω)} {machine after : Machine ω σ ν} {name : ν}
      {holding : Holding σ} {future : Future σ} {events : Events ω} {asked : σ}
      (run : Run history machine) (found : machine.futures.get? name = some holding) (choice : Nat)
      (asks : (machine.perform choice (.poll name waker)).control = .ask asked)
      (within : Within (machine.perform choice (.poll name waker)).machine.calls
        (machine.perform choice (.poll name waker)).machine trace after)
      (returned : after.calls = (machine.perform choice (.poll name waker)).machine.calls)
      (response : Response σ)
      (reached : (future, events) ∈ holding.future.comesTo waker machine.events) :
      Polling waker future events ((future.poll waker events).andThen trace
        ((future.poll waker events).future.resume response after.events))

section

variable {waker : ω} {future signal : Future σ} {wait : Wait} {events : Events ω}
  {polled : Future.Polled σ ω}

theorem Polling.owned (polling : Polling ν waker future events polled) :
    ∃ others, Owned events (future.waits ++ others) := by
  cases polling with
  | atOnce run found _ _ reached =>
      have owned := run.owned.perm (waits_perm_of_get? found)
      exact (Future.inside_of_comesTo owned reached).owned
  | afterAsking run found _ _ _ _ _ reached =>
      have owned := run.owned.perm (waits_perm_of_get? found)
      exact (Future.inside_of_comesTo owned reached).owned

theorem Polling.eq_poll (polling : Polling ν waker future events polled)
    (silent : ∀ asked, (future.poll waker events).progress ≠ .asks asked) :
    polled = future.poll waker events := by
  cases polling with
  | atOnce => rfl
  | @afterAsking _ _ _ _ _ _ _ _ asked run found choice asks _ _ _ reached =>
      have owned := run.owned.perm (waits_perm_of_get? found)
      have inside := Future.inside_of_comesTo owned reached
      exact absurd ((inside.asks asked).mp ((poll_asks_iff found asked).mp asks)) (silent asked)

/-- A race whose event is unset registers its wait, and then its signal is polled. -/
theorem Polling.race_of_unset (polling : Polling ν waker (.race (some wait) signal) events polled)
    (unset : (events.get wait.event).isSet = false) :
    ∃ token enrolment enlisted answered,
      wait.poll waker events =
        { outcome := .ok false, wait := { wait with token := some token }, events := enlisted
          trace := [Wait.enrolled wait.event token waker enrolment] } ∧
      Polling ν waker signal enlisted answered ∧
      Future.Concludes { wait with token := some token } token
        (Wait.enrolled wait.event token waker enrolment) answered polled := by
  obtain ⟨others, owned⟩ := polling.owned
  have whole : Owned events (wait :: (signal.waits ++ others)) := owned
  obtain ⟨token, enrolment, enlisted, first, same⟩ :=
    Future.poll_race_of_unset whole unset waker signal
  have after := whole.poll waker
  rw [first] at after
  have enrolled : Owned enlisted (signal.waits ++ ({ wait with token := some token } :: others)) :=
    after.perm List.perm_middle.symm
  refine ⟨token, enrolment, enlisted, ?_⟩
  cases polling with
  | atOnce run found choice silent reached =>
      have next := Future.signal_comesTo reached unset
      rw [first] at next
      have named := run.owned.perm (waits_perm_of_get? found)
      have inside := Future.inside_of_comesTo named next
      have left := (enrolled.handled ((signal.poll_handles waker enlisted).append _)).perm
        List.perm_middle
      have complete : ∀ asked, (signal.poll waker enlisted).progress ≠ .asks asked := by
        intro asked asks
        exact silent asked ((poll_asks_iff found asked).mpr ((inside.asks asked).mpr asks))
      refine ⟨_, first, .atOnce run found choice silent next, ?_⟩
      rw [same]
      exact Future.concludes _ left rfl complete (Wait.message?_enrolled ..)
  | @afterAsking _ _ _ last _ _ _ _ asked run found choice asks within returned response reached =>
      have next := Future.signal_comesTo reached unset
      rw [first] at next
      have named := run.owned.perm (waits_perm_of_get? found)
      have outermost := (poll_asks_iff found asked).mp asks
      have inner := ((Future.inside_of_comesTo named next).asks asked).mp outermost
      obtain ⟨outer, split⟩ := (Future.inside_of_comesTo named reached).waits asked outermost
      -- The signal was asked while all waits that were polled before it were in the call's hands.
      obtain ⟨rest, later⟩ := owned_of_asks run found outermost within returned
      rw [split, same] at later
      simp only [Future.conclude_future inner] at later
      have front : Owned last.events ((signal.poll waker enlisted).future.waits ++
          ({ wait with token := some token } :: (outer ++ rest))) := by
        refine later.perm ((List.perm_append_comm.append_right rest).trans ?_)
        rw [List.append_assoc]
        exact List.perm_middle.symm
      have left := (front.handled ((Future.resume_handles response _ _).append _)).perm
        List.perm_middle
      refine ⟨_, first, .afterAsking run found choice asks within returned response next, ?_⟩
      rw [same, Future.andThen_conclude inner]
      exact Future.concludes (Future.Polled.andThen _ _ _) left rfl
        (Future.resume_ne_asks response _ _) (Wait.message?_enrolled ..)

theorem Polling.race_of_set (polling : Polling ν waker (.race (some wait) signal) events polled)
    (set : (events.get wait.event).isSet = true) :
    polled.progress = .answered .completed ∧ polled.future = .race none signal ∧
      polled.trace = [] ∧ ∀ id, (polled.events.get id).isSet = (events.get id).isSet ∧
        (polled.events.get id).registry = (events.get id).registry := by
  obtain ⟨others, owned⟩ := polling.owned
  have whole : Owned events (wait :: (signal.waits ++ others)) := owned
  have spec := Future.poll_race_of_set whole set waker signal
  have same := polling.eq_poll fun asked asks => by
    cases spec.1.symm.trans asks
  rw [same]
  exact spec

theorem Polling.settled_race (polling : Polling ν waker (.race none signal) events polled) :
    polled = { progress := .panicked .polledAfterCompletion, future := .race none signal
               events } :=
  polling.eq_poll nofun

end

/-! ## Polls one after another -/

/-- A poll of a future. -/
structure Visit (ω σ : Type) where
  waker : ω
  future : Future σ
  events : Events ω
  polled : Future.Polled σ ω

variable (ν) in
/-- A future is polled again and again, each time as the poll before left it. -/
inductive Life : Future σ → List (Visit ω σ) → Future σ → Prop
  | unpolled (future : Future σ) : Life future [] future
  | poll {waker : ω} {future final : Future σ} {events : Events ω} {polled : Future.Polled σ ω}
      {visits : List (Visit ω σ)} (polling : Polling ν waker future events polled)
      (life : Life polled.future visits final) :
      Life future (⟨waker, future, events, polled⟩ :: visits) final

/-- The poll gave the final answer. -/
def Visit.Answers (visit : Visit ω σ) : Prop :=
  visit.polled.progress = .answered .completed ∨ visit.polled.progress = .answered .cancelled

variable (ν) in
/-- What a poll of an unsettled race comes to. -/
structure Visit.Runs (visit : Visit ω σ) (wait : Wait) (signal : Future σ) : Prop where
  unsettled : visit.future = .race (some wait) signal
  set : (visit.events.get wait.event).isSet = true →
    visit.polled.progress = .answered .completed ∧ visit.polled.future = .race none signal ∧
    visit.polled.trace = [] ∧
    ∀ id, (visit.polled.events.get id).isSet = (visit.events.get id).isSet ∧
      (visit.polled.events.get id).registry = (visit.events.get id).registry
  unset : (visit.events.get wait.event).isSet = false →
    ∃ token enrolment enlisted answered,
      wait.poll visit.waker visit.events =
        { outcome := .ok false, wait := { wait with token := some token }, events := enlisted
          trace := [Wait.enrolled wait.event token visit.waker enrolment] } ∧
      enlisted.HoldsFor wait.event token visit.waker ∧
      Polling ν visit.waker signal enlisted answered ∧
      Future.Concludes { wait with token := some token } token
        (Wait.enrolled wait.event token visit.waker enrolment) answered visit.polled

section

variable [LawfulWaker ω] {waker : ω} {wait : Wait} {signal final : Future σ} {events : Events ω}
  {polled : Future.Polled σ ω} {visits : List (Visit ω σ)}

theorem Polling.runs (polling : Polling ν waker (.race (some wait) signal) events polled) :
    Visit.Runs ν ⟨waker, .race (some wait) signal, events, polled⟩ wait signal := by
  refine ⟨rfl, polling.race_of_set, fun unset => ?_⟩
  obtain ⟨token, enrolment, enlisted, answered, first, asked, concludes⟩ :=
    polling.race_of_unset unset
  refine ⟨token, enrolment, enlisted, answered, first, ?_, asked, concludes⟩
  obtain ⟨others, owned⟩ := polling.owned
  have whole : Owned events (wait :: (signal.waits ++ others)) := owned
  obtain ⟨own, -, -, after, holds⟩ := Wait.holdsFor_of_poll whole unset waker
  rw [first] at after holds
  cases after
  exact holds

omit [LawfulWaker ω] in
theorem Visit.Runs.next {visit : Visit ω σ} (runs : visit.Runs ν wait signal) :
    (visit.Answers ∧ ∃ signal, visit.polled.future = .race none signal) ∨
    (¬ visit.Answers ∧ ∃ next signal, visit.polled.future = .race (some next) signal ∧
      next.event = wait.event) := by
  cases flag : (visit.events.get wait.event).isSet with
  | true =>
      obtain ⟨completed, settled, -⟩ := runs.set flag
      exact .inl ⟨.inl completed, signal, settled⟩
  | false =>
      obtain ⟨token, enrolment, enlisted, answered, -, -, -, concludes⟩ := runs.unset flag
      cases concludes with
      | pending answer kept =>
          refine .inr ⟨?_, _, _, congrArg Future.Polled.future kept, rfl⟩
          rw [Visit.Answers, kept, answer]
          exact nofun
      | panicked panic broken kept =>
          refine .inr ⟨?_, _, _, congrArg Future.Polled.future kept, rfl⟩
          rw [Visit.Answers, kept, broken]
          exact nofun
      | fired _ _ _ cancelled settled => exact .inl ⟨.inr cancelled, _, settled⟩

/-- A settled race refuses to be polled. -/
def Visit.Refused (visit : Visit ω σ) : Prop :=
  visit.future.isTerminated = true ∧
    visit.polled = { progress := .panicked .polledAfterCompletion, future := visit.future
                     events := visit.events }

omit [LawfulWaker ω] in
theorem Life.refused (life : Life ν (.race none signal) visits final) :
    final = .race none signal ∧ ∀ visit ∈ visits, visit.Refused := by
  generalize same : Future.race none signal = future at life
  induction life with
  | unpolled => exact ⟨rfl, nofun⟩
  | poll polling _ ih =>
      subst same
      obtain rfl := polling.settled_race
      obtain ⟨last, all⟩ := ih rfl
      refine ⟨last, fun visit member => ?_⟩
      rcases List.mem_cons.mp member with rfl | later
      · exact ⟨rfl, rfl⟩
      · exact all visit later

/-- As long as a race has not answered, each poll completes it if the event is set, without a look
at the signal; otherwise it registers the wait for the waker that it was given, and polls the signal
once. If the signal fires, the race is cancelled and the wait is gone without a trace of its
registration, whatever the signal did, unless the event was registered with more often meanwhile
than there are tokens; if the signal is pending or breaks off, so is the race, and the wait stays.
Once a race has answered, it refuses to be polled. -/
theorem race_runs_its_course (life : Life ν (.race (some wait) signal) visits final) :
    (∀ before visit after, visits = before ++ visit :: after →
      (∀ earlier ∈ before, ¬ earlier.Answers) ∧
        (∃ now signal, now.event = wait.event ∧ visit.Runs ν now signal) ∨
      (∃ earlier ∈ before, earlier.Answers) ∧ visit.Refused) ∧
    (final.isTerminated = true ↔ ∃ visit ∈ visits, visit.Answers) := by
  generalize same : Future.race (some wait) signal = future at life
  induction life generalizing wait signal with
  | unpolled =>
      subst same
      exact ⟨by simp, by simp [Future.isTerminated]⟩
  | @poll waker future final events polled visits polling life ih =>
      subst same
      have runs := polling.runs
      rcases runs.next with ⟨answers, inner, settled⟩ | ⟨opened, now, inner, kept, event⟩
      · rw [show polled.future = _ from settled] at life
        obtain ⟨rfl, refused⟩ := life.refused
        refine ⟨?_, fun _ => ⟨_, List.mem_cons_self, answers⟩, fun _ => rfl⟩
        intro before visit after split
        rcases List.cons_eq_append_iff.mp split with ⟨rfl, here⟩ | ⟨earlier, rfl, later⟩
        · cases here
          exact .inl ⟨nofun, wait, signal, rfl, runs⟩
        · refine .inr ⟨⟨_, List.mem_cons_self, answers⟩, refused visit ?_⟩
          rw [later]
          exact List.mem_append_right _ List.mem_cons_self
      · obtain ⟨all, last⟩ := ih kept.symm
        constructor
        · intro before visit after split
          rcases List.cons_eq_append_iff.mp split with ⟨rfl, here⟩ | ⟨earlier, rfl, later⟩
          · cases here
            exact .inl ⟨nofun, wait, signal, rfl, runs⟩
          · rcases all earlier visit after later with
              ⟨unanswered, next, own, same, ran⟩ | ⟨⟨other, member, answers⟩, refused⟩
            · refine .inl ⟨?_, next, own, same.trans event, ran⟩
              intro other member
              rcases List.mem_cons.mp member with rfl | member
              · exact opened
              · exact unanswered other member
            · exact .inr ⟨⟨other, List.mem_cons_of_mem _ member, answers⟩, refused⟩
        · rw [last]
          simp only [List.mem_cons, exists_eq_or_imp, opened, false_or]

end

/-- A race is polled, and its signal is pending; it is polled again, and the signal sets the event
before it fires. -/
def raceMoves : List (Move Pool.TaskId Nat Nat) :=
  [.perform 0 .makeEvent, .perform 0 (.makeWait 0 ⟨0⟩ .owned), .perform 0 (.race 0 (.external 7)),
    .perform 0 (.poll 0 ⟨1⟩), .resume (.pending 8) 0, .perform 0 (.poll 0 ⟨2⟩),
    .perform 0 (.setEvent ⟨0⟩), .resume .ready 0, .resume .ready 0]

/-- The race is cancelled, although its event is set by then, and is not to be polled again. -/
theorem race_runs_its_course_cancelled :
    ∃ (wait : Wait) (first second third : Visit Pool.TaskId Nat) (final : Future Nat),
      Life Nat (.race (some wait) (.external 7)) [first, second, third] final ∧
      first.polled.progress = .answered .pending ∧
      second.polled.progress = .answered .cancelled ∧
      (second.polled.events.get ⟨0⟩).isSet = true ∧ third.Refused ∧ final.isTerminated = true := by
  have first : Polling Nat (⟨1⟩ : Pool.TaskId) _ _ _ := .afterAsking
    (run_follow (raceMoves.take 3))
    (show (follow (raceMoves.take 3)).2.futures.get? 0 = some _ from rfl) 0 rfl .refl rfl
    (.pending 8) Future.self_comesTo
  let asking : Call Pool.TaskId Nat Nat :=
    .polling 0 ⟨⟨0⟩, .race (some ⟨⟨0⟩, .owned, some ⟨0⟩, false⟩) (.external 8)⟩ ⟨2⟩
  have suspended : ((follow (raceMoves.take 5)).2.perform 0 (.poll 0 ⟨2⟩)).machine.calls =
      [asking] := rfl
  have within : Within [asking] ((follow (raceMoves.take 5)).2.perform 0 (.poll 0 ⟨2⟩)).machine
      _ _ :=
    .perform 0 (.setEvent ⟨0⟩) (.resume (show _ = _ :: ([] ++ [asking]) from rfl) .ready 0 .refl)
  have second : Polling Nat (⟨2⟩ : Pool.TaskId) _ _ _ := .afterAsking
    (run_follow (raceMoves.take 5))
    (show (follow (raceMoves.take 5)).2.futures.get? 0 = some _ from rfl) 0 rfl
    (suspended ▸ within) (Eq.trans rfl suspended.symm) .ready Future.self_comesTo
  have third : Polling Nat (⟨3⟩ : Pool.TaskId) _ _ _ := .atOnce (run_follow raceMoves)
    (show (follow raceMoves).2.futures.get? 0 = some _ from rfl) 0 (fun _ asks => by cases asks)
    Future.self_comesTo
  have life := Life.poll first (Life.poll second (Life.poll third (.unpolled _)))
  obtain ⟨all, last⟩ := race_runs_its_course life
  refine ⟨_, _, _, _, _, life, rfl, rfl, rfl, ?_, last.mpr ⟨_, .tail _ (.head _), .inr rfl⟩⟩
  rcases all [_, _] _ [] rfl with ⟨opened, -⟩ | ⟨-, refused⟩
  · exact absurd (.inr rfl) (opened _ (.tail _ (.head _)))
  · exact refused

end Machine

end Latch
