import Latch.Future.Asking
import Latch.Proofs.Callbacks

/-!
# Races that only their wait can win

A race against a signal that never fires is as good as its wait alone. Two runs are compared, the
second of which has such races in place of some waits of the first one. They go on alike whatever
else is called meanwhile, up to the first answer that one of these waits gives: only then the race
has dropped its wait while the wait alone is still there.
-/

set_option autoImplicit false

namespace Latch

variable {ω σ ν : Type}

namespace Future

/-- A signal that nothing comes of: it never fires, or its owner always says that it is pending. -/
def isMute : Future σ → Bool
  | never | external _ => true
  | plain _ | race .. | ready => false

/-- The plain wait at the end of a chain of races. -/
def last? : Future σ → Option Wait
  | plain wait => some wait
  | race _ signal => signal.last?
  | ready | never | external _ => none

/-- Races the plain wait at the end against a signal, and leaves it in its place. -/
def raced : Future σ → Future σ → Future σ
  | plain wait, signal => race (some wait) signal
  | race wait inner, signal => race wait (inner.raced signal)
  | ready, _ => ready
  | never, _ => never
  | external own, _ => external own

theorem last?_of_isMute {signal : Future σ} (mute : signal.isMute = true) :
    signal.last? = none := by
  cases signal with
  | never | external => rfl
  | plain | race | ready => cases mute

theorem last?_raced {signal : Future σ} (mute : signal.isMute = true) (future : Future σ) :
    (future.raced signal).last? = none := by
  induction future with
  | plain wait =>
      have none : signal.last? = none := last?_of_isMute mute
      exact none
  | race wait inner ih => exact ih
  | ready | never | external => rfl

theorem isTerminated_raced {future : Future σ} {wait : Wait} (last : future.last? = some wait)
    (waiting : wait.completed = false) (signal : Future σ) :
    (future.raced signal).isTerminated = future.isTerminated := by
  cases future with
  | plain own =>
      cases last
      exact waiting.symm
  | race | ready | never | external => rfl

/-- Nothing comes of dropping a mute signal. -/
theorem drop_raced {signal : Future σ} (mute : signal.isMute = true) (future : Future σ)
    (events : Events ω) : (future.raced signal).drop events = future.drop events := by
  induction future generalizing events with
  | plain wait =>
      cases signal with
      | never | external => simp [raced, drop]
      | plain | race | ready => cases mute
  | race wait inner ih =>
      cases wait with
      | none => exact ih events
      | some wait => simp only [raced, drop, ih]
  | ready | never | external => rfl

/-- A future is the other one, or has the plain wait alone where the other one races it against a
mute signal. -/
inductive Beside : Future σ → Future σ → Prop
  | same (future : Future σ) : Beside future future
  | raced {future signal : Future σ} {wait : Wait} (last : future.last? = some wait)
      (waiting : wait.completed = false) (mute : signal.isMute = true) :
      Beside future (future.raced signal)

/-- The plain wait at the end of a future has answered, and the race in its place is settled. -/
structure Answered (future other : Future σ) : Prop where
  completed : ∃ wait, future.last? = some wait ∧ wait.completed = true
  settled : other.last? = none
  terminated : other.isTerminated = future.isTerminated

section

variable {future other : Future σ}

theorem Beside.race (beside : future.Beside other) (wait : Option Wait) :
    (race wait future).Beside (race wait other) := by
  cases beside with
  | same => exact .same _
  | raced last waiting mute =>
      have whole : (Future.race wait future).last? = some _ := last
      exact .raced whole waiting mute

theorem Beside.drop (beside : future.Beside other) (events : Events ω) :
    other.drop events = future.drop events := by
  cases beside with
  | same => rfl
  | raced _ _ mute => exact drop_raced mute future events

theorem Beside.isTerminated (beside : future.Beside other) :
    other.isTerminated = future.isTerminated := by
  cases beside with
  | same => rfl
  | raced last waiting _ => exact isTerminated_raced last waiting _

theorem Beside.eq_of_last? (beside : future.Beside other) {wait : Wait}
    (last : other.last? = some wait) : other = future := by
  cases beside with
  | same => rfl
  | raced _ _ mute =>
      rw [last?_raced mute] at last
      cases last

/-- Where an external signal can be asked stands no plain wait. -/
theorem last?_of_asked {signal : σ} (asked : future.asked? = some signal) :
    future.last? = none := by
  induction future with
  | external => rfl
  | race wait inner ih =>
      cases wait with
      | none => cases asked
      | some => exact ih asked
  | plain | ready | never => cases asked

theorem Beside.eq_of_asked (beside : future.Beside other) {signal : σ}
    (asked : future.asked? = some signal) : other = future := by
  cases beside with
  | same => rfl
  | raced last _ _ =>
      rw [last?_of_asked asked] at last
      cases last

theorem Answered.race (answered : future.Answered other) (wait : Option Wait) :
    (race wait future).Answered (race wait other) :=
  ⟨answered.completed, answered.settled, rfl⟩

end

end Future

/-! ## Polls -/

/-- Two stores whose events differ at most in the number of their handles. -/
def Events.Agree (events other : Events ω) : Prop :=
  ∀ id, (other.get id).isSet = (events.get id).isSet ∧
    (other.get id).waiters = (events.get id).waiters

namespace Events.Agree

variable {events other : Events ω}

theorem put (agree : events.Agree other) (id : EventId) {event otherEvent : Event ω}
    (flag : otherEvent.isSet = event.isSet) (waiters : otherEvent.waiters = event.waiters) :
    (events.put id event).Agree (other.put id otherEvent) := by
  intro own
  rw [get_put, get_put]
  split
  · exact ⟨flag, waiters⟩
  · exact agree own

theorem letGo (agree : events.Agree other) (id : EventId) :
    (events.modify id Event.letGo).Agree (other.modify id Event.letGo) :=
  agree.put id (agree id).1 (agree id).2

theorem withdraw (agree : events.Agree other) (wait : Wait) :
    (wait.withdraw events).events.Agree (wait.withdraw other).events ∧
      (wait.withdraw other).trace = (wait.withdraw events).trace ∧
      (wait.withdraw other).panic? = (wait.withdraw events).panic? := by
  obtain ⟨flag, waiters⟩ := agree wait.event
  unfold Wait.withdraw Event.deregister
  rw [waiters]
  cases wait.token with
  | none => exact ⟨agree, rfl, rfl⟩
  | some token =>
      cases (events.get wait.event).waiters.acquire with
      | error panic => exact ⟨agree, rfl, rfl⟩
      | ok cell => exact ⟨agree.put _ flag rfl, rfl, rfl⟩

/-- Dropping a wait has the same effects on both. -/
theorem drop (agree : events.Agree other) (wait : Wait) :
    (wait.drop events).events.Agree (wait.drop other).events ∧
      (wait.drop other).trace = (wait.drop events).trace ∧
      (wait.drop other).panic? = (wait.drop events).panic? := by
  obtain ⟨after, trace, panic⟩ := agree.withdraw wait
  unfold Wait.drop
  cases wait.hold with
  | borrowed => exact ⟨after, trace, panic⟩
  | owned => exact ⟨after.letGo wait.event, trace, panic⟩

theorem of_unregistered (events : Events ω) {wait : Wait} (unregistered : wait.token = none) :
    events.Agree (wait.drop events).events ∧ (wait.drop events).trace = [] ∧
      (wait.drop events).panic? = none := by
  unfold Wait.drop Wait.withdraw
  rw [unregistered]
  cases wait.hold with
  | borrowed => exact ⟨fun _ => ⟨rfl, rfl⟩, rfl, rfl⟩
  | owned =>
      refine ⟨fun id => ⟨?_, ?_⟩, rfl, rfl⟩
      · exact events.isSet_modify wait.event Event.letGo (fun _ => rfl) id
      · exact events.waiters_modify wait.event Event.letGo (fun _ => rfl) id

end Events.Agree

namespace Future

/-- How a poll of the second future goes beside one of the first. -/
inductive Polled.Beside : Polled σ ω → Polled σ ω → Prop
  | alike {polled other : Polled σ ω} (future : polled.future.Beside other.future)
      (progress : other.progress = polled.progress) (events : other.events = polled.events)
      (trace : other.trace = polled.trace) : Beside polled other
  /-- The wait is pending, and the signal of its race remains to be asked. -/
  | asking {polled other : Polled σ ω} {signal : σ}
      (future : ∀ next, polled.future.Beside (other.future.withAsked next))
      (progress : polled.progress = .answered .pending) (asks : other.progress = .asks signal)
      (asked : other.future.asked? = some signal) (events : other.events = polled.events)
      (trace : other.trace = polled.trace) : Beside polled other
  | answered {polled other : Polled σ ω} (future : polled.future.Answered other.future)
      (progress : other.progress = polled.progress)
      (silent : ∀ signal, polled.progress ≠ .asks signal)
      (events : polled.events.Agree other.events) (trace : other.trace = polled.trace) :
      Beside polled other

theorem Polled.Beside.told {polled other : Polled σ ω} (beside : polled.Beside other)
    (told : List (Occurrence ω)) :
    Polled.Beside { polled with trace := told ++ polled.trace }
      { other with trace := told ++ other.trace } := by
  cases beside with
  | alike future progress events trace =>
      exact .alike future progress events (congrArg (told ++ ·) trace)
  | asking future progress asks asked events trace =>
      exact .asking future progress asks asked events (congrArg (told ++ ·) trace)
  | answered future progress silent events trace =>
      exact .answered future progress silent events (congrArg (told ++ ·) trace)

theorem settle_beside {future other : Future σ} (beside : future.Beside other) (wait : Wait)
    (answer : Answer) (note : List (Occurrence ω)) (events : Events ω) :
    (settle wait future answer note events).Beside (settle wait other answer note events) := by
  unfold settle
  simp only
  split
  · exact .alike (beside.race none) rfl rfl rfl
  · exact .alike (beside.race none) rfl rfl rfl

theorem settle_answered {future other : Future σ} (answered : future.Answered other)
    {events otherEvents : Events ω} (agree : events.Agree otherEvents) (wait : Wait)
    (answer : Answer) (note : List (Occurrence ω)) :
    (settle wait future answer note events).Beside
      (settle wait other answer note otherEvents) := by
  obtain ⟨after, trace, panic⟩ := agree.drop wait
  unfold settle
  simp only [trace, panic]
  split
  · exact .answered (answered.race none) rfl nofun after rfl
  · exact .answered (answered.race none) rfl nofun after rfl

theorem conclude_beside {polled other : Polled σ ω} (beside : polled.Beside other) (wait : Wait) :
    (conclude wait polled).Beside (conclude wait other) := by
  cases beside with
  | alike future progress events trace =>
      unfold conclude
      rw [progress, events, trace]
      split
      any_goals exact .alike (future.race _) rfl rfl rfl
      all_goals exact (settle_beside future wait _ _ _).told _
  | asking future progress asks asked events trace =>
      unfold conclude
      rw [progress, asks]
      exact .asking (fun next => (future next).race _) rfl rfl asked events trace
  | answered future progress silent events trace =>
      unfold conclude
      rw [progress, trace]
      split
      · exact .answered (future.race _) rfl silent events rfl
      · next asks => exact absurd asks (silent _)
      · exact .answered (future.race _) rfl silent events rfl
      all_goals exact (settle_answered future events wait _ _).told _

/-- Polling a race against a mute signal is polling its wait. -/
theorem poll_beside [Waker ω] {future signal : Future σ} {wait : Wait}
    (last : future.last? = some wait) (waiting : wait.completed = false)
    (mute : signal.isMute = true) (waker : ω) (events : Events ω) :
    (future.poll waker events).Beside ((future.raced signal).poll waker events) := by
  induction future generalizing events with
  | plain own =>
      cases last
      cases flag : (events.get wait.event).isSet with
      | true =>
          obtain ⟨agree, trace, panic⟩ := Events.Agree.of_unregistered events
            (show ({ wait with token := none, completed := true } : Wait).token = none from rfl)
          simp only [raced, poll, Wait.poll_of_set flag, settle, trace, panic]
          have settled : signal.last? = none := last?_of_isMute mute
          refine .answered ⟨⟨_, rfl, rfl⟩, settled, rfl⟩ rfl ?_ agree rfl
          intro asked asks
          cases asks
      | false =>
          simp only [raced, poll, Wait.poll, flag, Bool.false_eq_true, if_false]
          cases (events.get wait.event).register wait.token waker with
          | error panic =>
              have beside : (plain wait).Beside ((plain wait).raced signal) :=
                .raced rfl waiting mute
              exact .alike beside rfl rfl rfl
          | ok registered =>
              have beside : ∀ signal : Future σ, signal.isMute = true →
                  (plain { wait with token := some registered.1 }).Beside
                    (race (some { wait with token := some registered.1 }) signal) :=
                fun _ mute => .raced rfl waiting mute
              cases signal with
              | never => exact .alike (beside _ rfl) rfl rfl (List.append_nil _)
              | external asked =>
                  exact .asking (fun _ => beside _ rfl) rfl rfl rfl rfl (List.append_nil _)
              | plain | race | ready => cases mute
  | race own inner ih =>
      have beside : inner.Beside (inner.raced signal) := .raced last waiting mute
      cases own with
      | none => exact .alike (beside.race none) rfl rfl rfl
      | some own =>
          simp only [raced, poll]
          split
          · exact .alike (beside.race _) rfl rfl rfl
          · exact (settle_beside beside _ _ _ _).told _
          · exact (conclude_beside (ih last _) _).told _
  | ready | never | external => cases last

end Future

/-! ## Machines side by side -/

/-- Futures that were made on the same event, and of which one has a race against a mute signal in
place of a wait of the other, if they are not the same. -/
structure Holding.Beside (holding other : Holding σ) : Prop where
  event : other.event = holding.event
  future : holding.future.Beside other.future

theorem Holding.Beside.refl (holding : Holding σ) : holding.Beside holding :=
  ⟨rfl, .same holding.future⟩

namespace Machine

variable [DecidableEq ν]

/-- The futures under each name are beside each other. -/
def FuturesBeside (futures others : Table ν (Holding σ)) : Prop :=
  ∀ name, Option.Rel Holding.Beside (futures.get? name) (others.get? name)

namespace FuturesBeside

variable {futures others : Table ν (Holding σ)}

theorem erase (beside : FuturesBeside futures others) (name : ν) :
    FuturesBeside (futures.erase name) (others.erase name) := by
  intro own
  rw [Table.get?_erase, Table.get?_erase]
  split
  · exact .none
  · exact beside own

theorem insert (beside : FuturesBeside futures others) (name : ν) {holding other : Holding σ}
    (held : holding.Beside other) :
    FuturesBeside (futures.insert name holding) (others.insert name other) := by
  intro own
  rw [Table.get?_insert, Table.get?_insert]
  split
  · exact .some held
  · exact beside own

end FuturesBeside

/-- The machines differ only in races against mute signals that one of them has in place of waits of
the other. -/
structure Beside (first second : Machine ω σ ν) : Prop where
  events : second.events = first.events
  registries : second.registries = first.registries
  calls : second.calls = first.calls
  futures : FuturesBeside first.futures second.futures

/-- Nobody can tell the machines apart but by the number of handles that events have. -/
structure Agree (first second : Machine ω σ ν) : Prop where
  flags : ∀ id, (second.events.get id).isSet = (first.events.get id).isSet
  waiters : ∀ id, (second.events.get id).registry = (first.events.get id).registry
  registries : second.registries = first.registries
  calls : second.calls = first.calls
  isTerminated : ∀ name, (second.futures.get? name).map (·.future.isTerminated) =
    (first.futures.get? name).map (·.future.isTerminated)

/-- The futures under a name have answered. -/
def AnsweredUnder (name : ν) (first second : Machine ω σ ν) : Prop :=
  ∃ holding other, first.futures.get? name = some holding ∧
    second.futures.get? name = some other ∧ holding.future.Answered other.future

end Machine

/-- A step that does the same and leads to machines beside each other. -/
structure Turn.Matches [DecidableEq ν] (turn other : Turn ω σ ν) : Prop where
  machine : turn.machine.Beside other.machine
  trace : other.trace = turn.trace
  control : other.control = turn.control

/-- How a step of the second machine goes beside one of the first. -/
inductive Turn.Beside [DecidableEq ν] : Turn ω σ ν → Turn ω σ ν → Prop
  | alike {turn other : Turn ω σ ν} (same : turn.Matches other) : Beside turn other
  /-- The second machine goes on as soon as the mute signal has been asked. -/
  | asking {turn other : Turn ω σ ν} (quiet : ∀ signal, turn.control ≠ .ask signal)
      (asks : ∃ signal, other.control = .ask signal)
      (resumes : ∀ next choice,
        let last := other.machine.resume (.pending next) choice
        turn.Matches { last with trace := other.trace ++ last.trace }) : Beside turn other
  | answered {turn other : Turn ω σ ν} {name : ν} (machine : turn.machine.Agree other.machine)
      (answered : turn.machine.AnsweredUnder name other.machine)
      (trace : other.trace = turn.trace) (control : other.control = turn.control) :
      Beside turn other

theorem Turn.Matches.told [DecidableEq ν] {turn other : Turn ω σ ν} (same : turn.Matches other)
    (told : List (Occurrence ω)) :
    Matches { turn with trace := told ++ turn.trace } { other with trace := told ++ other.trace } :=
  ⟨same.machine, congrArg (told ++ ·) same.trace, same.control⟩

namespace Machine

variable [DecidableEq ν] {first second : Machine ω σ ν}

namespace Beside

theorem discard (beside : first.Beside second) {future other : Future σ}
    (futures : future.Beside other) (control : Control ω σ) :
    (first.discard future control).Matches (second.discard other control) := by
  unfold Machine.discard
  rw [beside.events, futures.drop]
  exact ⟨⟨rfl, beside.registries, beside.calls, beside.futures⟩, rfl, rfl⟩

theorem store (beside : first.Beside second) (name : ν) {holding other : Holding σ}
    (held : holding.Beside other) (control : Control ω σ) :
    (first.store name holding control).Matches (second.store name other control) := by
  have stored : Machine.Beside { first with futures := first.futures.insert name holding }
      { second with futures := second.futures.insert name other } :=
    ⟨beside.events, beside.registries, beside.calls, beside.futures.insert name held⟩
  have under := beside.futures name
  unfold Machine.store
  generalize first.futures.get? name = previous?, second.futures.get? name = other? at under
  cases under with
  | none => exact ⟨stored, rfl, rfl⟩
  | some previously => exact stored.discard previously.future control

theorem afterPoll (beside : first.Beside second) (name : ν) (event : EventId) (waker : ω)
    {polled other : Future.Polled σ ω} (future : polled.future.Beside other.future)
    (progress : other.progress = polled.progress) (events : other.events = polled.events)
    (trace : other.trace = polled.trace)
    (asked : ∀ signal, polled.progress = .asks signal → polled.future.asked? = some signal) :
    (first.afterPoll name event waker polled).Matches
      (second.afterPoll name event waker other) := by
  have reached : Machine.Beside { first with events := polled.events }
      { second with events := polled.events } :=
    ⟨rfl, beside.registries, beside.calls, beside.futures⟩
  have held : Holding.Beside ⟨event, polled.future⟩ ⟨event, other.future⟩ := ⟨rfl, future⟩
  unfold Machine.afterPoll
  rw [progress, events, trace]
  cases reply : polled.progress with
  | answered answer => exact (reached.store name held _).told _
  | panicked panic => exact (reached.store name held _).told _
  | asks signal =>
      have same : other.future = polled.future := future.eq_of_asked (asked signal reply)
      rw [same]
      exact ⟨⟨rfl, reached.registries, congrArg (_ :: ·) reached.calls, reached.futures⟩, rfl, rfl⟩

/-- A poll that was answered puts its future under a name that is free. -/
theorem answers (beside : first.Beside second) {name : ν}
    (free : first.futures.get? name = none) (otherFree : second.futures.get? name = none)
    (event : EventId) (waker : ω) {polled other : Future.Polled σ ω}
    (future : polled.future.Answered other.future) (progress : other.progress = polled.progress)
    (silent : ∀ signal, polled.progress ≠ .asks signal)
    (events : polled.events.Agree other.events) (trace : other.trace = polled.trace) :
    (first.afterPoll name event waker polled).Beside
      (second.afterPoll name event waker other) := by
  have agree : Machine.Agree
      { first with
        events := polled.events
        futures := first.futures.insert name ⟨event, polled.future⟩ }
      { second with
        events := other.events
        futures := second.futures.insert name ⟨event, other.future⟩ } := by
    refine ⟨fun id => (events id).1, fun id => congrArg Guarded.value (events id).2,
      beside.registries, beside.calls, ?_⟩
    intro own
    simp only [Table.get?_insert]
    split
    · exact congrArg some future.terminated
    · have under := beside.futures own
      generalize first.futures.get? own = holding?, second.futures.get? own = other? at under
      cases under with
      | none => rfl
      | some held => exact congrArg some held.future.isTerminated
  have state : other.events.state event = polled.events.state event := by
    simp only [Events.state, Event.registry, (events event).1, (events event).2]
  unfold Machine.afterPoll
  rw [progress, trace]
  cases reply : polled.progress with
  | asks signal => exact absurd reply (silent signal)
  | answered answer =>
      simp only [Machine.store, free, otherFree, state]
      exact .answered agree ⟨_, _, Table.get?_insert_self .., Table.get?_insert_self .., future⟩
        rfl rfl
  | panicked panic =>
      simp only [Machine.store, free, otherFree]
      exact .answered agree ⟨_, _, Table.get?_insert_self .., Table.get?_insert_self .., future⟩
        rfl rfl

/-- A poll that asks for the mute signal comes to the same when the signal is pending. -/
theorem asks (beside : first.Beside second) (name : ν) (event : EventId) (waker : ω)
    {polled other : Future.Polled σ ω} {signal : σ}
    (future : ∀ next, polled.future.Beside (other.future.withAsked next))
    (progress : polled.progress = .answered .pending) (asks : other.progress = .asks signal)
    (asked : other.future.asked? = some signal) (events : other.events = polled.events)
    (trace : other.trace = polled.trace) :
    (first.afterPoll name event waker polled).Beside
      (second.afterPoll name event waker other) := by
  have reached : Machine.Beside { first with events := polled.events }
      { second with events := polled.events } :=
    ⟨rfl, beside.registries, beside.calls, beside.futures⟩
  unfold Machine.afterPoll
  rw [progress, asks, events, trace]
  refine .asking ?_ ⟨signal, rfl⟩ ?_
  · intro other asks
    obtain ⟨-, -, same | ⟨panic, same⟩⟩ :=
      store_spec { first with events := polled.events } name ⟨event, polled.future⟩
        (.done (.polled .pending (polled.events.state event)))
    · cases same.symm.trans asks
    · cases same.symm.trans asks
  · intro next choice
    have held : Holding.Beside ⟨event, polled.future⟩ ⟨event, other.future.withAsked next⟩ :=
      ⟨rfl, future next⟩
    have stored := reached.store name held (.done (.polled .pending (polled.events.state event)))
    have resumed : (push { second with events := polled.events }
        (.polling name ⟨event, other.future⟩ waker)).resume (.pending next) choice =
          { second with events := polled.events }.store name
            ⟨event, other.future.withAsked next⟩
            (.done (.polled .pending (polled.events.state event))) := by
      rw [resume_polling rfl, Future.resume_pending asked]
      rfl
    simp only [resumed, List.append_nil]
    exact stored.told polled.trace

variable [Waker ω]

theorem pollFuture (beside : first.Beside second) (name : ν) (waker : ω) :
    (first.pollFuture name waker).Beside (second.pollFuture name waker) := by
  have under := beside.futures name
  have without : Machine.Beside { first with futures := first.futures.erase name }
      { second with futures := second.futures.erase name } :=
    ⟨beside.events, beside.registries, beside.calls, beside.futures.erase name⟩
  unfold Machine.pollFuture
  rw [beside.events]
  generalize first.futures.get? name = holding?, second.futures.get? name = other? at under
  cases under with
  | none => exact .alike ⟨beside, rfl, rfl⟩
  | @some holding other held =>
      obtain ⟨event, future⟩ := holding
      obtain ⟨otherEvent, otherFuture⟩ := other
      obtain ⟨rfl, futures⟩ : otherEvent = event ∧ future.Beside otherFuture :=
        ⟨held.event, held.future⟩
      cases futures with
      | same =>
          exact .alike (without.afterPoll name _ waker (.same _) rfl rfl rfl
            fun _ asks => Future.asked?_of_poll_asks asks)
      | raced last waiting mute =>
          cases Future.poll_beside last waiting mute waker first.events with
          | alike future progress events trace =>
              exact .alike (without.afterPoll name _ waker future progress events trace
                fun _ asks => Future.asked?_of_poll_asks asks)
          | asking future progress asks asked events trace =>
              exact without.asks name _ waker future progress asks asked events trace
          | answered future progress silent events trace =>
              exact without.answers (Table.get?_erase_self ..) (Table.get?_erase_self ..) _ waker
                future progress silent events trace

omit [Waker ω] in
theorem dropFuture (beside : first.Beside second) (name : ν) :
    (first.dropFuture name).Matches (second.dropFuture name) := by
  have under := beside.futures name
  have without : Machine.Beside { first with futures := first.futures.erase name }
      { second with futures := second.futures.erase name } :=
    ⟨beside.events, beside.registries, beside.calls, beside.futures.erase name⟩
  unfold Machine.dropFuture
  generalize first.futures.get? name = holding?, second.futures.get? name = other? at under
  cases under with
  | none => exact ⟨beside, rfl, rfl⟩
  | some held => exact without.discard held.future (.done .nothing)

omit [Waker ω] in
theorem makeWait (beside : first.Beside second) (name : ν) (event : EventId) (hold : Hold) :
    (first.makeWait name event hold).Matches (second.makeWait name event hold) := by
  unfold Machine.makeWait
  rw [beside.events]
  have reached : Machine.Beside { first with events := (Wait.make first.events event hold).2 }
      { second with events := (Wait.make first.events event hold).2 } :=
    ⟨rfl, beside.registries, beside.calls, beside.futures⟩
  exact reached.store name (.refl _) (.done .nothing)

omit [Waker ω] in
theorem takeSignal? {futures others : Table ν (Holding σ)}
    (beside : FuturesBeside futures others) (signal : Signal σ ν) :
    Option.Rel (fun taken other => taken.1.Beside other.1 ∧ FuturesBeside taken.2 other.2)
      (Machine.takeSignal? futures signal) (Machine.takeSignal? others signal) := by
  cases signal with
  | ready | never | external => exact .some ⟨.same _, beside⟩
  | future name =>
      have under := beside name
      have without := beside.erase name
      simp only [Machine.takeSignal?]
      generalize futures.get? name = holding?, others.get? name = other? at under
      cases under with
      | none => exact .none
      | some held => exact .some ⟨held.future, without⟩

omit [Waker ω] in
/-- A wait that is not replaced is raced alike, also if a replaced one is its signal. -/
theorem raceFuture (beside : first.Beside second) (name : ν) (signal : Signal σ ν)
    (own : ∀ event wait, first.futures.get? name = some ⟨event, .plain wait⟩ →
      second.futures.get? name = first.futures.get? name) :
    (first.raceFuture name signal).Matches (second.raceFuture name signal) := by
  have under := beside.futures name
  have taken := takeSignal? (beside.futures.erase name) signal
  have idle : first.idle.Matches second.idle := ⟨beside, rfl, rfl⟩
  unfold Machine.raceFuture
  generalize first.futures.get? name = holding?, second.futures.get? name = other? at under own
  cases under with
  | none => exact idle
  | @some holding other held =>
      obtain ⟨event, future⟩ := holding
      obtain ⟨otherEvent, otherFuture⟩ := other
      obtain ⟨rfl, futures⟩ : otherEvent = event ∧ future.Beside otherFuture :=
        ⟨held.event, held.future⟩
      cases future with
      | plain wait =>
          obtain rfl : otherFuture = .plain wait :=
            congrArg Holding.future (Option.some.inj (own _ wait rfl))
          simp only
          generalize Machine.takeSignal? (first.futures.erase name) signal = made?,
            Machine.takeSignal? (second.futures.erase name) signal = otherMade? at taken
          cases taken with
          | none => exact idle
          | @some taken otherTaken made =>
              have held : Holding.Beside ⟨otherEvent, .race (some wait) taken.1⟩
                ⟨otherEvent, .race (some wait) otherTaken.1⟩ := ⟨rfl, made.1.race (some wait)⟩
              exact ⟨⟨beside.events, beside.registries, beside.calls, made.2.insert name held⟩,
                rfl, rfl⟩
      | race =>
          cases futures with
          | same => exact idle
          | raced => exact idle
      | ready | never | external =>
          cases futures with
          | same => exact idle
          | raced last => cases last

end Beside

/-- The owner of a wait that was replaced has a race in its place, and does not race it again. -/
def Allows (first second : Machine ω σ ν) : Move ω σ ν → Prop
  | .perform _ (.race name _) => ∀ event wait,
      first.futures.get? name = some ⟨event, .plain wait⟩ →
        second.futures.get? name = first.futures.get? name
  | .perform .. | .resume .. => True

namespace Beside

/-- The second machine is the first one with other futures. -/
theorem eq_with (beside : first.Beside second) :
    second = { first with futures := second.futures } := by
  obtain ⟨events, futures, registries, calls⟩ := second
  obtain ⟨rfl, rfl, rfl, -⟩ := beside
  rfl

/-- A move that works on no futures is the same in both machines. -/
theorem matches_of_with [Waker ω] (beside : first.Beside second) {next : Move ω σ ν}
    (same : ∀ futures, { first with futures }.move next =
      { first.move next with machine := { (first.move next).machine with futures } }) :
    (first.move next).Matches (second.move next) := by
  have kept : (first.move next).machine.futures = first.futures :=
    congrArg (·.machine.futures) (same first.futures)
  rw [beside.eq_with, same second.futures]
  refine ⟨⟨rfl, rfl, rfl, ?_⟩, rfl, rfl⟩
  rw [kept]
  exact beside.futures

theorem move [Waker ω] (beside : first.Beside second) {next : Move ω σ ν}
    (allowed : Allows first second next) : (first.move next).Beside (second.move next) := by
  cases next with
  | perform choice action =>
      have aside : action.names = [] → (first.move (.perform choice action)).Beside
          (second.move (.perform choice action)) := by
        intro nameless
        refine .alike (beside.matches_of_with fun futures => ?_)
        exact first.perform_nameless futures choice nameless
      cases action with
      | poll name waker => exact beside.pollFuture name waker
      | drop name => exact .alike (beside.dropFuture name)
      | makeWait name event hold => exact .alike (beside.makeWait name event hold)
      | race name signal => exact .alike (beside.raceFuture name signal allowed)
      | makeEvent | setEvent | wake | makeRegistry | dropRegistry => exact aside rfl
      | add | update | remove | releaseAll | releaseOne | drain => exact aside rfl
  | resume response choice =>
      by_cases polling : ∃ name holding waker rest,
          first.calls = .polling name holding waker :: rest
      · obtain ⟨name, holding, waker, rest, calls⟩ := polling
        have left : Machine.Beside { first with calls := rest } { second with calls := rest } :=
          ⟨beside.events, beside.registries, rfl, beside.futures⟩
        refine .alike ?_
        change (first.resume response choice).Matches (second.resume response choice)
        rw [resume_polling calls, resume_polling (beside.calls.trans calls), beside.events]
        refine left.afterPoll name holding.event waker (.same _) rfl rfl rfl fun signal asks => ?_
        exact absurd asks (Future.resume_ne_asks response _ _ signal)
      · refine .alike (beside.matches_of_with fun futures => ?_)
        refine first.resume_nameless futures response choice ?_
        intro name holding waker rest calls
        exact polling ⟨name, holding, waker, rest, calls⟩

end Beside

/-- The wait at the end of the future under a name is raced against a mute signal from now on. -/
structure Replaces (name : ν) (signal : Future σ) (before after : Machine ω σ ν) : Prop where
  mute : signal.isMute = true
  futures : ∃ holding wait, before.futures.get? name = some holding ∧
    holding.future.last? = some wait ∧ wait.completed = false ∧
    ∀ own, after.futures.get? own =
      if own = name then some ⟨holding.event, holding.future.raced signal⟩
      else before.futures.get? own
  events : after.events = before.events
  registries : after.registries = before.registries
  calls : after.calls = before.calls

theorem Beside.replace (beside : first.Beside second) {name : ν} {signal : Future σ}
    {after : Machine ω σ ν} (replaces : second.Replaces name signal after) :
    first.Beside after := by
  obtain ⟨mute, ⟨holding, wait, found, last, waiting, futures⟩, events, registries, calls⟩ :=
    replaces
  refine ⟨events.trans beside.events, registries.trans beside.registries,
    calls.trans beside.calls, ?_⟩
  intro own
  rw [futures own]
  have under := beside.futures own
  split
  · next here =>
      subst here
      rw [found] at under
      generalize first.futures.get? own = first? at under
      cases under with
      | @some before other held =>
          -- A wait that still stands alone at the end was not replaced before.
          have same := held.future.eq_of_last? last
          refine .some ⟨held.event, ?_⟩
          rw [same] at last ⊢
          exact .raced last waiting mute
  · exact under

theorem Beside.agree (beside : first.Beside second) : first.Agree second := by
  refine ⟨fun id => ?_, fun id => ?_, beside.registries, beside.calls, fun name => ?_⟩
  · rw [beside.events]
  · rw [beside.events]
  · have under := beside.futures name
    generalize first.futures.get? name = holding?, second.futures.get? name = other? at under
    cases under with
    | none => rfl
    | some held => exact congrArg some held.future.isTerminated

/-- The owner of a plain wait that has not answered yet replaces it by racing it. -/
theorem replaces_of_race [Waker ω] {machine : Machine ω σ ν} {name : ν} {event : EventId}
    {wait : Wait} (found : machine.futures.get? name = some ⟨event, .plain wait⟩)
    (waiting : wait.completed = false) (choice : Nat) :
    machine.Replaces name .never (machine.perform choice (.race name .never)).machine ∧
      ∀ signal, machine.Replaces name (.external signal)
        (machine.perform choice (.race name (.external signal))).machine := by
  have replaces : ∀ signal : Future σ, signal.isMute = true → machine.Replaces name signal
      { machine with futures :=
          (machine.futures.erase name).insert name ⟨event, .race (some wait) signal⟩ } := by
    intro signal mute
    refine ⟨mute, ⟨_, wait, found, rfl, waiting, ?_⟩, rfl, rfl, rfl⟩
    intro own
    simp only [Table.get?_insert, Table.get?_erase]
    split <;> rfl
  simp only [perform, Machine.raceFuture, found, takeSignal?]
  exact ⟨replaces .never rfl, fun signal => replaces (.external signal) rfl⟩

end Machine

/-- The signal that is asked next. -/
def Control.asked? : Control ω σ → Option σ
  | .ask signal => some signal
  | .wake _ | .done _ | .panicked _ => none

theorem Control.ne_ask {control : Control ω σ} (quiet : control.asked? = none) (signal : σ) :
    control ≠ .ask signal := by
  rintro rfl
  cases quiet

/-! ## Two runs -/

/-- Two runs so far: the machines that they have reached, what has happened in them, and who went on
after each step. -/
structure Pair (ω σ ν : Type) where
  first : Machine ω σ ν := {}
  second : Machine ω σ ν := {}
  firstTrace : List (Occurrence ω) := []
  secondTrace : List (Occurrence ω) := []
  firstControls : List (Control ω σ) := []
  secondControls : List (Control ω σ) := []

namespace Pair

variable [DecidableEq ν]

/-- No wait that has been replaced has answered yet. -/
def Waiting (pair : Pair ω σ ν) : Prop :=
  ∀ name holding other wait, pair.first.futures.get? name = some holding →
    pair.second.futures.get? name = some other → other ≠ holding →
    holding.future.last? = some wait → wait.completed = false

/-- Both runs make a step. -/
def after (pair : Pair ω σ ν) (turn other : Turn ω σ ν) : Pair ω σ ν where
  first := turn.machine
  second := other.machine
  firstTrace := pair.firstTrace ++ turn.trace
  secondTrace := pair.secondTrace ++ other.trace
  firstControls := pair.firstControls ++ [turn.control]
  secondControls := pair.secondControls ++ [other.control]

/-- Two runs make the same moves, callbacks included, but in the second one waits are replaced by
races against mute signals at any time before they answer. A mute signal that is asked is pending at
once. The runs go on as long as no replaced wait has answered. -/
inductive Runs [Waker ω] : Pair ω σ ν → Prop
  | start : Runs {}
  | replace {pair : Pair ω σ ν} (runs : Runs pair) (waiting : pair.Waiting) {name : ν}
      {signal : Future σ} {second : Machine ω σ ν}
      (replaces : pair.second.Replaces name signal second) : Runs { pair with second }
  | move {pair : Pair ω σ ν} (runs : Runs pair) (waiting : pair.Waiting) (next : Machine.Move ω σ ν)
      (allowed : pair.first.Allows pair.second next)
      (asks : ∀ signal, (pair.second.move next).control = .ask signal →
        ∃ own, (pair.first.move next).control = .ask own) :
      Runs (pair.after (pair.first.move next) (pair.second.move next))
  | hush {pair : Pair ω σ ν} (runs : Runs pair) (waiting : pair.Waiting) (next : Machine.Move ω σ ν)
      (allowed : pair.first.Allows pair.second next) {signal : σ}
      (asks : (pair.second.move next).control = .ask signal)
      (alone : ∀ own, (pair.first.move next).control ≠ .ask own) (later : σ) (choice : Nat) :
      Runs (pair.after (pair.first.move next)
        { (pair.second.move next).machine.resume (.pending later) choice with
          trace := (pair.second.move next).trace ++
            ((pair.second.move next).machine.resume (.pending later) choice).trace })

/-- Nobody can tell the two runs apart. Only the number of handles that events have is left open. -/
structure Agree [Waker ω] (pair : Pair ω σ ν) : Prop where
  ran : Machine.Run pair.firstTrace pair.first
  machines : pair.first.Agree pair.second
  traces : pair.secondTrace = pair.firstTrace
  controls : pair.secondControls = pair.firstControls
  /-- A future that is dropped before it answers has the same effects in both. -/
  drops : pair.Waiting → ∀ choice name,
    (pair.first.perform choice (.drop name)).Matches (pair.second.perform choice (.drop name))
  /-- Whatever move the first run makes, the second one can make it too. -/
  goesOn : pair.Waiting → ∀ next, pair.first.Allows pair.second next →
    ∃ last : Pair ω σ ν, Runs last ∧ last.first = (pair.first.move next).machine

section

variable [Waker ω] {pair : Pair ω σ ν}

/-- The machines are beside each other until a wait that was replaced answers. -/
def Sound (pair : Pair ω σ ν) : Prop :=
  pair.first.Beside pair.second ∨
    pair.first.Agree pair.second ∧ ∃ name, pair.first.AnsweredUnder name pair.second

omit [Waker ω] in
theorem Sound.beside (sound : pair.Sound) (waiting : pair.Waiting) :
    pair.first.Beside pair.second := by
  rcases sound with beside | ⟨-, name, holding, other, found, otherFound, answered⟩
  · exact beside
  · obtain ⟨wait, last, completed⟩ := answered.completed
    have different : other ≠ holding := by
      rintro rfl
      rw [answered.settled] at last
      cases last
    rw [waiting name holding other wait found otherFound different last] at completed
    cases completed

omit [Waker ω] in
theorem Sound.agree (sound : pair.Sound) : pair.first.Agree pair.second := by
  rcases sound with beside | ⟨agree, -⟩
  · exact beside.agree
  · exact agree

theorem Runs.sound (runs : Runs pair) :
    Machine.Run pair.firstTrace pair.first ∧ pair.secondTrace = pair.firstTrace ∧
      pair.secondControls = pair.firstControls ∧ pair.Sound := by
  induction runs with
  | start => exact ⟨.start, rfl, rfl, .inl ⟨rfl, rfl, rfl, fun _ => .none⟩⟩
  | replace _ waiting replaces ih =>
      obtain ⟨ran, traces, controls, sound⟩ := ih
      exact ⟨ran, traces, controls, .inl ((sound.beside waiting).replace replaces)⟩
  | @move pair _ waiting next allowed asks ih =>
      obtain ⟨ran, traces, controls, sound⟩ := ih
      have after := ran.step next
      cases (sound.beside waiting).move allowed with
      | alike same =>
          exact ⟨after, by simp only [Pair.after, traces, same.trace],
            by simp only [Pair.after, controls, same.control], .inl same.machine⟩
      | asking quiet asked _ =>
          obtain ⟨signal, other⟩ := asked
          obtain ⟨own, first⟩ := asks signal other
          exact absurd first (quiet own)
      | answered machine answered trace control =>
          exact ⟨after, by simp only [Pair.after, traces, trace],
            by simp only [Pair.after, controls, control], .inr ⟨machine, _, answered⟩⟩
  | @hush pair _ waiting next allowed signal asks alone later choice ih =>
      obtain ⟨ran, traces, controls, sound⟩ := ih
      have after := ran.step next
      cases (sound.beside waiting).move allowed with
      | alike same => exact absurd (same.control.symm.trans asks) (alone signal)
      | asking _ _ resumes =>
          have same := resumes later choice
          exact ⟨after, by simp only [Pair.after, traces, ← same.trace],
            by simp only [Pair.after, controls, ← same.control], .inl same.machine⟩
      | answered _ _ _ control => exact absurd (control.symm.trans asks) (alone signal)

omit [Waker ω] in
theorem allows_self (machine : Machine ω σ ν) (next : Machine.Move ω σ ν) :
    machine.Allows machine next := by
  cases next with
  | resume => exact trivial
  | perform choice action =>
      cases action with
      | race => exact fun _ _ _ => rfl
      | makeEvent | setEvent | makeWait | poll | drop | wake | makeRegistry => exact trivial
      | dropRegistry | add | update | remove | releaseAll | releaseOne | drain => exact trivial

/-- Every run goes beside itself, so that waits can be replaced in every run at any time. -/
theorem exists_runs {history : List (Occurrence ω)} {machine : Machine ω σ ν}
    (run : Machine.Run history machine) :
    ∃ controls, Runs ⟨machine, machine, history, history, controls, controls⟩ := by
  induction run with
  | start => exact ⟨[], .start⟩
  | @step history machine _ next ih =>
      obtain ⟨controls, runs⟩ := ih
      refine ⟨controls ++ [(machine.move next).control], ?_⟩
      refine runs.move ?_ next (allows_self machine next) fun signal asks => ⟨signal, asks⟩
      intro name holding other wait found otherFound different
      exact absurd (Option.some.inj (otherFound.symm.trans found)) different

theorem Runs.goesOn (runs : Runs pair) (waiting : pair.Waiting) (next : Machine.Move ω σ ν)
    (allowed : pair.first.Allows pair.second next) :
    ∃ last : Pair ω σ ν, Runs last ∧ last.first = (pair.first.move next).machine := by
  by_cases alone : (∃ signal, (pair.second.move next).control = .ask signal) ∧
      ∀ own, (pair.first.move next).control ≠ .ask own
  · obtain ⟨⟨signal, asks⟩, quiet⟩ := alone
    exact ⟨_, runs.hush waiting next allowed asks quiet signal 0, rfl⟩
  · refine ⟨_, runs.move waiting next allowed fun signal asks => ?_, rfl⟩
    refine Classical.byContradiction fun quiet => ?_
    exact alone ⟨⟨signal, asks⟩, fun own first => quiet ⟨own, first⟩⟩

/-- Racing a wait against a signal that nothing comes of changes nothing. At any time before it
answers, a wait may be replaced by such a race where it stands, the wait at the end of a chain of
races as well: whatever is called then, and by whomever, up to and including the first answer of a
replaced wait, both runs are the same in every step: what is answered, which wakers are copied and
woken, which messages are logged, how the events are set and who is registered with them. -/
theorem muted_race_is_wait (runs : Runs pair) : pair.Agree := by
  obtain ⟨ran, traces, controls, sound⟩ := runs.sound
  exact ⟨ran, sound.agree, traces, controls,
    fun waiting _ name => (sound.beside waiting).dropFuture name, runs.goesOn⟩

omit [Waker ω] in
theorem waiting_of_all (unanswered : (pair.first.futures.values.all fun holding =>
    holding.future.last?.all fun wait => !wait.completed) = true) : pair.Waiting := by
  intro _ holding _ wait found _ _ last
  have held := List.all_eq_true.mp unanswered holding (Table.mem_values_of_get? found)
  rw [last] at held
  simpa using held

end

/-- Two waits on an event are registered, and one on another event; the first event is being set. -/
def releasingMoves : List (Machine.Move Pool.TaskId Nat Nat) :=
  [.perform 0 (.makeWait 0 ⟨0⟩ .owned), .perform 0 (.makeWait 1 ⟨1⟩ .borrowed),
    .perform 0 (.makeWait 2 ⟨0⟩ .owned), .perform 0 (.poll 0 ⟨4⟩), .perform 0 (.poll 1 ⟨5⟩),
    .perform 0 (.poll 2 ⟨6⟩), .perform 0 (.setEvent ⟨0⟩)]

/-- While a waker is called, all three waits are replaced. The second one is polled again, and the
signal of its race is asked; the third one is dropped, and the first one polled. -/
theorem muted_race_is_wait_reentrant :
    ∃ pair : Pair Pool.TaskId Nat Nat, Runs pair ∧ pair.first.calls.length = 1 ∧
      pair.secondTrace = pair.firstTrace ∧ pair.secondControls = pair.firstControls ∧
      (pair.second.futures.get? 0).map (·.future.isTerminated) = some true ∧
      (pair.second.events.get ⟨1⟩).registry = (pair.first.events.get ⟨1⟩).registry := by
  obtain ⟨controls, begun⟩ := exists_runs (Machine.run_follow releasingMoves)
  have first : (Machine.follow releasingMoves).2.futures.get? 0 =
    some ⟨⟨0⟩, .plain ⟨⟨0⟩, .owned, some ⟨0⟩, false⟩⟩ := rfl
  have one := begun.replace (waiting_of_all rfl) (Machine.replaces_of_race first rfl 0).1
  have second : ((Machine.follow releasingMoves).2.perform 0
      (.race 0 .never)).machine.futures.get? 1 =
    some ⟨⟨1⟩, .plain ⟨⟨1⟩, .borrowed, some ⟨0⟩, false⟩⟩ := rfl
  have two := one.replace (waiting_of_all rfl) ((Machine.replaces_of_race second rfl 0).2 9)
  have third : (((Machine.follow releasingMoves).2.perform 0
      (.race 0 .never)).machine.perform 0 (.race 1 (.external 9))).machine.futures.get? 2 =
    some ⟨⟨0⟩, .plain ⟨⟨0⟩, .owned, some ⟨1⟩, false⟩⟩ := rfl
  have three := two.replace (waiting_of_all rfl) (Machine.replaces_of_race third rfl 0).1
  have polled := three.hush (waiting_of_all rfl) (.perform 0 (.poll 1 ⟨5⟩)) trivial rfl
    (Control.ne_ask rfl) 9 0
  have dropped := polled.move (waiting_of_all rfl) (.perform 0 (.drop 2)) trivial
    fun signal asks => absurd asks (Control.ne_ask rfl signal)
  have answered := dropped.move (waiting_of_all rfl) (.perform 0 (.poll 0 ⟨7⟩)) trivial
    fun signal asks => absurd asks (Control.ne_ask rfl signal)
  have agree := muted_race_is_wait answered
  refine ⟨_, answered, rfl, agree.traces, agree.controls, ?_, agree.machines.waiters ⟨1⟩⟩
  exact (agree.machines.isTerminated 0).trans rfl

end Pair

end Latch
