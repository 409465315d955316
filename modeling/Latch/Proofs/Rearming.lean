import Latch.Pool.Task
import Latch.Proofs.Callbacks
import Mathlib.Data.List.Perm.Subperm

/-!
# Re-arming by replacement

An event is set once and for good, so that a signal which is needed again and again takes a fresh
event for every round. Consumers wait for the current event in a loop and count the waits that
completed; a producer puts a fresh event in the place of the current one and then sets the old one.
Consumers are polled at any time, also by the wakers that are being woken. The main statement is
that a consumer that keeps up with the rounds counts each of them, and that none counts a round
twice. A consumer registers with an event once at most, so tokens do not repeat if there are no more
waits than tokens.
-/

set_option autoImplicit false

namespace Latch

variable {ω σ κ : Type}

/-! ## Books about rounds -/

namespace Rearming

/-- What a consumer has counted, which event it waits for, and after the sets of which rounds it was
polled before the next swap; some rounds have started, and the current event has a number. The
events are numbered as they are made, so that the event of a round has the round's number. -/
structure Ledger (started current : Nat) (polledAfter : Nat → Prop) (counted : List EventId)
    (place? : Option EventId) : Prop where
  increasing : counted.Pairwise fun first second => first.number < second.number
  past : ∀ event ∈ counted, event.number < started
  ahead : ∀ place, place? = some place →
    place.number ≤ current ∧ ∀ event ∈ counted, event.number < place.number
  known : ∀ round, polledAfter round → round ≤ started
  /-- A consumer that was always polled in time has counted all rounds up to its last poll. -/
  prompt : ∀ round, (∀ earlier ≤ round, polledAfter earlier) →
    round = started ∨ (round + 1 = started ∧ ¬ polledAfter started ∧ current = started) →
    counted.length = round ∧ place? = some ⟨round⟩

/-- What a poll counts and where the consumer waits afterwards. It goes on to the current event
unless it already waits for an event that is not set. -/
inductive Outcome (isSet : EventId → Prop) (current : EventId) :
    Option EventId → List EventId → EventId → Prop
  | begins : Outcome isSet current none [] current
  | stays {event : EventId} (unset : ¬ isSet event) : Outcome isSet current (some event) [] event
  | counts {event : EventId} (set : isSet event) :
      Outcome isSet current (some event) [event] current

namespace Ledger

variable {started current : Nat} {polledAfter : Nat → Prop} {counted : List EventId}
  {place? : Option EventId}

theorem nodup (ledger : Ledger started current polledAfter counted place?) : counted.Nodup := by
  refine ledger.increasing.imp ?_
  intro first second less same
  exact Nat.lt_irrefl _ (same ▸ less)

theorem length_le (ledger : Ledger started current polledAfter counted place?) :
    counted.length ≤ started := by
  have increasing : (counted.map EventId.number).Pairwise (· < ·) :=
    List.pairwise_map.mpr ledger.increasing
  have unique : (counted.map EventId.number).Nodup := increasing.imp Nat.ne_of_lt
  have below : counted.map EventId.number ⊆ List.range started := by
    intro number member
    obtain ⟨event, inside, rfl⟩ := List.mem_map.mp member
    exact List.mem_range.mpr (ledger.past event inside)
  have short := (unique.subperm below).length_le
  rwa [List.length_map, List.length_range] at short

theorem start : Ledger 0 0 (fun _ => False) [] none where
  increasing := .nil
  past := nofun
  ahead := nofun
  known := nofun
  prompt := fun round all _ => (all round (Nat.le_refl round)).elim

theorem swap (ledger : Ledger started started polledAfter counted place?) :
    Ledger started (started + 1) polledAfter counted place? where
  increasing := ledger.increasing
  past := ledger.past
  ahead := fun place there => (ledger.ahead place there).imp_left Nat.le_succ_of_le
  known := ledger.known
  prompt := by
    rintro round all (last | ⟨-, -, none⟩)
    · exact ledger.prompt round all (.inl last)
    · omega

theorem set (ledger : Ledger started (started + 1) polledAfter counted place?) :
    Ledger (started + 1) (started + 1) polledAfter counted place? where
  increasing := ledger.increasing
  past := fun event member => Nat.lt_succ_of_lt (ledger.past event member)
  ahead := ledger.ahead
  known := fun round polled => Nat.le_succ_of_le (ledger.known round polled)
  prompt := by
    rintro round all (rfl | ⟨last, -⟩)
    · have known := ledger.known _ (all _ (Nat.le_refl _))
      omega
    · exact ledger.prompt round all (.inl (Nat.succ.inj last))

/-- How a consumer stands that was polled after all sets so far, before it is polled again. -/
theorem before_poll (ledger : Ledger started current polledAfter counted place?)
    (all : ∀ round ≤ started, polledAfter round ∨ round = started ∧ current = started) :
    (current = started ∧ started = 0 ∧ counted = []) ∨
      (counted.length = started ∧ place? = some ⟨started⟩) ∨
      ∃ last, current = started ∧ last + 1 = started ∧ counted.length = last ∧
        place? = some ⟨last⟩ := by
  have former : ∀ round < started, polledAfter round := by
    intro round early
    rcases all round (Nat.le_of_lt early) with polled | ⟨same, -⟩
    · exact polled
    · omega
  -- Either it was polled since the last set already, or it is from now on, and then it was polled
  -- in time for the round before.
  by_cases polled : polledAfter started
  · refine .inr (.inl (ledger.prompt started ?_ (.inl rfl)))
    intro round upTo
    rcases Nat.lt_or_eq_of_le upTo with early | rfl
    · exact former round early
    · exact polled
  · have here : current = started := by
      rcases all started (Nat.le_refl _) with was | ⟨-, same⟩
      · exact absurd was polled
      · exact same
    cases started with
    | zero =>
        refine .inl ⟨here, rfl, List.eq_nil_iff_forall_not_mem.mpr ?_⟩
        exact fun event member => Nat.not_lt_zero _ (ledger.past event member)
    | succ last =>
        have kept := ledger.prompt last (fun round upTo => former round (Nat.lt_succ_of_le upTo))
          (.inr ⟨rfl, polled, here⟩)
        exact .inr (.inr ⟨last, here, rfl, kept⟩)

/-- The books after a poll. Between a swap and the set that follows, a poll is not in time. -/
theorem of_poll (ledger : Ledger started current polledAfter counted place?)
    {after : List EventId} {place : EventId}
    (increasing : after.Pairwise fun first second => first.number < second.number)
    (past : ∀ event ∈ after, event.number < started)
    (ahead : place.number ≤ current ∧ ∀ event ∈ after, event.number < place.number)
    (prompt : (∀ round ≤ started, polledAfter round ∨ round = started ∧ current = started) →
      after.length = started ∧ place.number = started) :
    Ledger started current (fun round => polledAfter round ∨ round = started ∧ current = started)
      after (some place) where
  increasing := increasing
  past := past
  ahead := by
    rintro _ ⟨⟩
    exact ahead
  known := by
    rintro round (polled | ⟨rfl, -⟩)
    · exact ledger.known round polled
    · exact Nat.le_refl _
  prompt := by
    rintro round all (rfl | ⟨-, unpolled, here⟩)
    · obtain ⟨length, number⟩ := prompt all
      exact ⟨length, by rw [← number]⟩
    · exact absurd (.inr ⟨rfl, here⟩) unpolled

theorem begins (ledger : Ledger started current polledAfter counted none)
    (unset : started ≤ current) :
    Ledger started current (fun round => polledAfter round ∨ round = started ∧ current = started)
      counted (some ⟨current⟩) := by
  refine ledger.of_poll ledger.increasing ledger.past ⟨Nat.le_refl _, ?_⟩ ?_
  · exact fun event member => Nat.lt_of_lt_of_le (ledger.past event member) unset
  · intro all
    rcases ledger.before_poll all with ⟨here, zero, none⟩ | ⟨-, there⟩ | ⟨_, -, -, -, there⟩
    · exact ⟨by rw [none, zero, List.length_nil], here⟩
    · cases there
    · cases there

theorem stays {event : EventId}
    (ledger : Ledger started current polledAfter counted (some event))
    (unset : started ≤ event.number) :
    Ledger started current (fun round => polledAfter round ∨ round = started ∧ current = started)
      counted (some event) := by
  obtain ⟨upTo, older⟩ := ledger.ahead event rfl
  refine ledger.of_poll ledger.increasing ledger.past ⟨upTo, older⟩ ?_
  intro all
  rcases ledger.before_poll all with ⟨here, zero, none⟩ | ⟨length, there⟩ | ⟨_, -, next, -, there⟩
  · exact ⟨by rw [none, zero, List.length_nil], by omega⟩
  · cases there
    exact ⟨length, rfl⟩
  · cases there
    exact absurd unset (next ▸ Nat.not_succ_le_self _)

theorem counts {event : EventId}
    (ledger : Ledger started current polledAfter counted (some event))
    (set : event.number < started) (unset : started ≤ current) :
    Ledger started current (fun round => polledAfter round ∨ round = started ∧ current = started)
      (counted ++ [event]) (some ⟨current⟩) := by
  have older := (ledger.ahead event rfl).2
  have past : ∀ other ∈ counted ++ [event], other.number < started := by
    intro other member
    rcases List.mem_append.mp member with old | new
    · exact ledger.past other old
    · rw [List.mem_singleton.mp new]
      exact set
  refine ledger.of_poll ?_ past ⟨Nat.le_refl _, ?_⟩ ?_
  · refine List.pairwise_append.mpr ⟨ledger.increasing, List.pairwise_singleton _ _, ?_⟩
    intro first member second last
    rw [List.mem_singleton.mp last]
    exact older first member
  · exact fun other member => Nat.lt_of_lt_of_le (past other member) unset
  · intro all
    rcases ledger.before_poll all with ⟨-, zero, -⟩ | ⟨-, there⟩ | ⟨_, here, next, length, -⟩
    · exact absurd (zero ▸ set) (Nat.not_lt_zero _)
    · cases there
      exact absurd set (Nat.lt_irrefl _)
    · exact ⟨by rw [List.length_append, length, List.length_singleton, next], here⟩

theorem poll {events : List EventId} {place fresh : EventId} {isSet : EventId → Prop}
    (ledger : Ledger started fresh.number polledAfter counted place?)
    (flags : ∀ event, isSet event ↔ event.number < started) (unset : started ≤ fresh.number)
    (outcome : Outcome isSet fresh place? events place) :
    Ledger started fresh.number
      (fun round => polledAfter round ∨ round = started ∧ fresh.number = started)
      (counted ++ events) (some place) := by
  cases outcome with
  | begins =>
      rw [List.append_nil]
      exact ledger.begins unset
  | stays waiting =>
      rw [List.append_nil]
      exact ledger.stays (Nat.le_of_not_lt fun early => waiting ((flags place).mpr early))
  | @counts event set => exact ledger.counts ((flags event).mp set) unset

end Ledger

end Rearming

/-! ## Polls of consumers -/

theorem Wait.next_poll [Waker ω] (wait : Wait) (waker : ω) (events : Events ω) :
    (wait.poll waker events).events.next = events.next := by
  unfold poll
  simp only
  split
  · rfl
  · split <;> rfl

theorem Wait.next_drop (wait : Wait) (events : Events ω) :
    (wait.drop events).events.next = events.next := by
  have withdrawn : (wait.withdraw events).events.next = events.next := by
    unfold withdraw
    split
    · rfl
    · split <;> rfl
  unfold drop
  simp only
  split
  · exact withdrawn
  · exact withdrawn

namespace Machine

variable [Waker ω] [DecidableEq κ]

/-- One owner's calls were made, which leave the futures of all others alone, and all events. -/
structure Aside (name : κ) (before after : Machine ω σ κ) : Prop where
  owned : Owned after.events after.waits
  next : after.events.next = before.events.next
  flags : ∀ id, (after.events.get id).isSet = (before.events.get id).isSet
  issued : ∀ id, (before.events.get id).registry.issued ≤ (after.events.get id).registry.issued
  calls : after.calls = before.calls
  kept : ∀ other, other ≠ name → after.futures.get? other = before.futures.get? other
  registered : ∀ other, other ≠ name → ∀ holding, before.futures.get? other = some holding →
    ∀ wait ∈ holding.future.waits, ∀ waker, wait.RegisteredFor before.events waker →
      (after.events.get wait.event).registry.issued ≤ Token.limit →
        wait.RegisteredFor after.events waker

namespace Aside

variable {name : κ} {first second third : Machine ω σ κ}

theorem trans (head : Aside name first second) (tail : Aside name second third) :
    Aside name first third where
  owned := tail.owned
  next := tail.next.trans head.next
  flags id := (tail.flags id).trans (head.flags id)
  issued id := Nat.le_trans (head.issued id) (tail.issued id)
  calls := tail.calls.trans head.calls
  kept other different := (tail.kept other different).trans (head.kept other different)
  registered other different holding found wait member waker registered few := by
    have first := head.registered other different holding found wait member waker registered
      (Nat.le_trans (tail.issued wait.event) few)
    have still := (head.kept other different).trans found
    exact tail.registered other different holding still wait member waker first few

theorem of_works {turn : Turn ω σ κ} (owned : Owned first.events first.waits)
    (works : Works first [name] [] turn) (next : turn.machine.events.next = first.events.next)
    (calls : turn.machine.calls = first.calls) : Aside name first turn.machine where
  owned := owned.handled (works.handled (.refl _))
  next := next
  flags id := by
    obtain ⟨worked, left, -, -, handles⟩ := works.handles
    exact handles.isSet id
  issued id := by
    obtain ⟨worked, left, -, -, handles⟩ := works.handles
    exact handles.issued_le id
  calls := calls
  kept other different := works.kept other fun member => different (List.mem_singleton.mp member)
  registered other different holding found wait member waker registered few := by
    have outside : other ∉ [name] := fun inside => different (List.mem_singleton.mp inside)
    exact works.registeredFor owned (mem_apart_of_get? outside found member) registered few

end Aside

/-- So many waits more are alive. If there are no more than tokens now, no event has handed out more
tokens than waits hold. -/
structure Grows (count : Nat) (before after : Machine ω σ κ) : Prop where
  size : after.waits.length = before.waits.length + count
  counted : after.waits.length ≤ Token.limit → Counted before.events before.waits →
    Counted after.events after.waits

omit [Waker ω] [DecidableEq κ] in
theorem Grows.le {count : Nat} {before after : Machine ω σ κ} (grows : Grows count before after) :
    before.waits.length ≤ after.waits.length :=
  grows.size ▸ Nat.le_add_right _ _

variable {machine : Machine ω σ κ} {name : κ}

/-- A wait is made under a free name. -/
theorem makeWait_aside (owned : Owned machine.events machine.waits)
    (free : machine.futures.get? name = none) (choice : Nat) (event : EventId) (hold : Hold) :
    let turn := machine.perform choice (.makeWait name event hold)
    Aside name machine turn.machine ∧ Grows 1 machine turn.machine ∧
      turn.control = .done .nothing ∧ ∃ wait : Wait, wait.event = event ∧
        turn.machine.futures.get? name = some ⟨event, .plain wait⟩ := by
  have same : machine.perform choice (.makeWait name event hold) =
      { machine := { machine with
          events := (Wait.make machine.events event hold).2
          futures := machine.futures.insert name ⟨event, .plain { event, hold }⟩ }
        control := .done .nothing } := by
    simp only [perform, makeWait, Wait.make, store, free]
  have works := machine.perform_works choice
    (show ∀ id, Action.makeWait name event hold ≠ .setEvent id from fun _ same => by cases same)
  have grown : (held (machine.futures.insert name ⟨event, .plain { event, hold }⟩) ++
      machine.calls.flatMap Call.waits).Perm ({ event, hold } :: machine.waits) := by
    have inserted := held_insert_perm machine.futures name ⟨event, .plain { event, hold }⟩
    rw [Table.erase_of_get?_eq_none free] at inserted
    exact inserted.append_right _
  rw [same] at works ⊢
  refine ⟨.of_works owned works ?_ rfl, ⟨grown.length_eq, ?_⟩, rfl, { event, hold }, rfl,
    Table.get?_insert_self _ _ _⟩
  · cases hold <;> rfl
  · exact fun _ counted => (counted.make event hold).perm grown.symm

/-- A plain wait is polled. It is registered then, or has no token. -/
theorem pollWait_aside [LawfulWaker ω] (owned : Owned machine.events machine.waits) {wait : Wait}
    (found : machine.futures.get? name = some ⟨wait.event, .plain wait⟩) (choice : Nat)
    (waker : ω) :
    let turn := machine.perform choice (.poll name waker)
    Aside name machine turn.machine ∧ Grows 0 machine turn.machine ∧
      turn.control = .done (.polled
        (if (machine.events.get wait.event).isSet then .completed else .pending)
        (turn.machine.events.state wait.event)) ∧
      ∃ polled : Wait, polled.event = wait.event ∧
        turn.machine.futures.get? name = some ⟨wait.event, .plain polled⟩ ∧
        if (machine.events.get wait.event).isSet then polled.token = none
        else polled.RegisteredFor turn.machine.events waker := by
  have works := machine.perform_works choice
    (show ∀ id, Action.poll name waker ≠ .setEvent id from fun _ same => by cases same)
  have next := wait.next_poll waker machine.events
  have before := owned.perm (waits_perm_of_get? found)
  have answered : ((Future.plain (σ := σ) wait).poll waker machine.events).progress = .answered
      (if (machine.events.get wait.event).isSet then .completed else .pending) ∧
        (wait.poll waker machine.events).wait.event = wait.event := by
    cases flag : (machine.events.get wait.event).isSet with
    | true => simp [Future.poll, Wait.poll_of_set flag]
    | false =>
        obtain ⟨token, enrolment, registry, enrols, -⟩ := Owned.enrols before flag waker
        simp [Future.poll, Wait.poll_of_unset flag (owned.free _) waker enrols]
  have left : (if (machine.events.get wait.event).isSet then
      (wait.poll waker machine.events).wait.token = none
      else (wait.poll waker machine.events).wait.RegisteredFor
        (wait.poll waker machine.events).events waker) := by
    split
    · next flag => rw [Wait.poll_of_set flag]
    · next flag =>
        apply Wait.registeredFor_of_poll before
        have unset := Bool.eq_false_iff.mpr flag
        obtain ⟨token, enrolment, registry, enrols, -⟩ := Owned.enrols before unset waker
        rw [Wait.poll_of_unset unset (owned.free _) waker enrols]
  have split := waits_perm_of_get? found
  have instead : (held ((machine.futures.erase name).insert name
        ⟨wait.event, .plain (wait.poll waker machine.events).wait⟩) ++
      machine.calls.flatMap Call.waits).Perm ((wait.poll waker machine.events).wait ::
        Machine.waits { machine with futures := machine.futures.erase name }) := by
    have inserted := held_insert_perm (machine.futures.erase name) name
      ⟨wait.event, .plain (wait.poll waker machine.events).wait⟩
    rw [Table.erase_erase_self] at inserted
    exact inserted.append_right _
  rw [perform_poll_of_answered found answered.1 choice] at works ⊢
  refine ⟨.of_works owned works next rfl, ⟨?_, ?_⟩, rfl, (wait.poll waker machine.events).wait,
    answered.2, Table.get?_insert_self _ _ _, left⟩
  · exact instead.length_eq.trans split.length_eq.symm
  · intro small counted
    have few : (wait :: Machine.waits { machine with futures := machine.futures.erase name }).length
        ≤ Token.limit := Nat.le_trans (Nat.le_of_eq instead.length_eq.symm) small
    exact ((counted.perm split).poll before few waker).perm instead.symm

/-- A plain wait is dropped. -/
theorem dropWait_aside (owned : Owned machine.events machine.waits) {event : EventId}
    {wait : Wait} (found : machine.futures.get? name = some ⟨event, .plain wait⟩)
    (choice : Nat) :
    let turn := machine.perform choice (.drop name)
    Aside name machine turn.machine ∧ turn.machine.waits.length + 1 = machine.waits.length ∧
      (wait.token = none → Counted machine.events machine.waits →
        Counted turn.machine.events turn.machine.waits) ∧
      turn.control = .done .nothing ∧ turn.machine.futures.get? name = none := by
  have works := machine.perform_works choice
    (show ∀ id, Action.drop name ≠ .setEvent id from fun _ same => by cases same)
  have split := waits_perm_of_get? found
  have whole := (Owned.drop (owned.perm split)).1
  have same : machine.perform choice (.drop name) =
      { machine := { machine with
          events := (wait.drop machine.events).events
          futures := machine.futures.erase name }
        trace := (wait.drop machine.events).trace
        control := .done .nothing } := by
    simp only [perform, dropFuture, found, discard, Future.drop, whole]
  rw [same] at works ⊢
  exact ⟨.of_works owned works (wait.next_drop machine.events) rfl, split.length_eq.symm,
    fun unheld counted => (counted.perm split).drop unheld, rfl, Table.get?_erase_self _ _⟩

/-- One poll of a consumer, what it counts, and the machine that it leaves behind. The consumer
takes an owning wait on the current event if it has none, and polls its wait. If that completes, it
drops the wait, counts its event and starts again; if not, the poll is over. -/
inductive Polls (current : EventId) (consumer : κ) (waker : ω) :
    Machine ω σ κ → List EventId → Machine ω σ κ → Prop
  | takes {machine last : Machine ω σ κ} {events : List EventId} (choice : Nat)
      (free : machine.futures.get? consumer = none)
      (made : (machine.perform choice (.makeWait consumer current .owned)).control =
        .done .nothing)
      (rest : Polls current consumer waker
        (machine.perform choice (.makeWait consumer current .owned)).machine events last) :
      Polls current consumer waker machine events last
  | counts {machine polled last : Machine ω σ κ} {holding : Holding σ} {state : EventState}
      {events : List EventId} (choice : Nat)
      (found : machine.futures.get? consumer = some holding)
      (after : polled = (machine.perform choice (.poll consumer waker)).machine)
      (completed : (machine.perform choice (.poll consumer waker)).control =
        .done (.polled .completed state))
      (dropped : (polled.perform choice (.drop consumer)).control = .done .nothing)
      (rest : Polls current consumer waker (polled.perform choice (.drop consumer)).machine events
        last) :
      Polls current consumer waker machine (holding.event :: events) last
  | waits {machine : Machine ω σ κ} {state : EventState} (choice : Nat)
      (pending : (machine.perform choice (.poll consumer waker)).control =
        .done (.polled .pending state)) :
      Polls current consumer waker machine []
        (machine.perform choice (.poll consumer waker)).machine

/-- A consumer has no wait so far, or a plain wait on some event. -/
inductive Stands (machine : Machine ω σ κ) (consumer : κ) : Option EventId → Prop
  | without (free : machine.futures.get? consumer = none) : Stands machine consumer none
  | waiting {event : EventId} {wait : Wait} (own : wait.event = event)
      (there : machine.futures.get? consumer = some ⟨event, .plain wait⟩) :
      Stands machine consumer (some event)

omit [Waker ω] in
theorem Stands.of_same {before after : Machine ω σ κ} {place? : Option EventId}
    (stands : Stands before name place?)
    (same : after.futures.get? name = before.futures.get? name) : Stands after name place? := by
  cases stands with
  | without free => exact .without (same.trans free)
  | waiting own there => exact .waiting own (same.trans there)

/-- A consumer waits for an event and is registered there for a waker. -/
def WaitsFor (machine : Machine ω σ κ) (consumer : κ) (waker : ω) (event : EventId) : Prop :=
  ∃ wait : Wait, wait.event = event ∧
    machine.futures.get? consumer = some ⟨event, .plain wait⟩ ∧
    wait.RegisteredFor machine.events waker

theorem WaitsFor.aside {before after : Machine ω σ κ} {consumer : κ} {waker : ω} {event : EventId}
    (waits : before.WaitsFor consumer waker event) (aside : Aside name before after)
    (other : consumer ≠ name) (few : after.waits.length ≤ Token.limit)
    (counted : Counted after.events after.waits) : after.WaitsFor consumer waker event := by
  obtain ⟨wait, own, there, registered⟩ := waits
  have unset := (aside.flags wait.event).trans registered.1
  exact ⟨wait, own, (aside.kept consumer other).trans there,
    aside.registered consumer other _ there wait (List.mem_singleton_self wait) waker registered
      (counted.few few unset)⟩

section Consumers

variable {current : EventId} {waker : ω}

/-- A poll of a consumer always comes to an end, the current event being unset. -/
theorem exists_polls [LawfulWaker ω] (owned : Owned machine.events machine.waits)
    (unset : (machine.events.get current).isSet = false) {place? : Option EventId}
    (stands : Stands machine name place?) :
    ∃ events last, Polls current name waker machine events last := by
  have pends : ∀ {machine : Machine ω σ κ} {wait : Wait},
      Owned machine.events machine.waits →
      machine.futures.get? name = some ⟨wait.event, .plain wait⟩ →
      (machine.events.get wait.event).isSet = false →
      ∃ last, Polls current name waker machine [] last := by
    intro machine wait owned there unset
    have answered := (pollWait_aside owned there 0 waker).2.2.1
    rw [unset] at answered
    exact ⟨_, .waits 0 answered⟩
  have begins : ∀ {machine : Machine ω σ κ}, Owned machine.events machine.waits →
      machine.futures.get? name = none → (machine.events.get current).isSet = false →
      ∃ last, Polls current name waker machine [] last := by
    intro machine owned free unset
    obtain ⟨aside, -, made, wait, rfl, there⟩ := makeWait_aside owned free 0 current .owned
    obtain ⟨last, polls⟩ := pends aside.owned there ((aside.flags _).trans unset)
    exact ⟨last, .takes 0 free made polls⟩
  cases stands with
  | without free => exact ⟨[], begins owned free unset⟩
  | @waiting event wait own there =>
      subst own
      cases flag : (machine.events.get wait.event).isSet with
      | false => exact ⟨[], pends owned there flag⟩
      | true =>
          obtain ⟨polled, -, answered, after, event, found, -⟩ :=
            pollWait_aside owned there 0 waker
          rw [flag, if_pos rfl] at answered
          obtain ⟨dropped, -, -, done, free⟩ := dropWait_aside polled.owned found 0
          have aside := polled.trans dropped
          obtain ⟨last, polls⟩ := begins aside.owned free ((aside.flags _).trans unset)
          exact ⟨_, last, .counts 0 there rfl answered done polls⟩

/-- What a poll of a consumer does: it leaves all others alone, and the consumer waits for an event
that is not set, registered for the waker of the poll. -/
theorem Polls.outcome [LawfulWaker ω] {last : Machine ω σ κ} {events : List EventId}
    (polls : Polls current name waker machine events last)
    (owned : Owned machine.events machine.waits)
    (unset : (machine.events.get current).isSet = false) {place? : Option EventId}
    (stands : Stands machine name place?) :
    Aside name machine last ∧ Grows (if place?.isNone then 1 else 0) machine last ∧
      ∃ place, last.WaitsFor name waker place ∧
        Rearming.Outcome (fun id => (machine.events.get id).isSet = true) current place? events
          place := by
  -- The current event stays unset, so that a consumer that was sent on to it is pending there.
  induction polls generalizing place? with
  | @takes machine last events choice free made rest ih =>
      obtain ⟨aside, made, -, wait, own, there⟩ := makeWait_aside owned free choice current .owned
      have still := (aside.flags current).trans unset
      obtain ⟨polled, grown, place, waits, outcome⟩ := ih aside.owned still (.waiting own there)
      cases stands with
      | without =>
          refine ⟨aside.trans polled, ⟨grown.size.trans made.size, ?_⟩, place, waits, ?_⟩
          · exact fun small counted => grown.counted small
              (made.counted (Nat.le_trans (Nat.le_of_eq grown.size.symm) small) counted)
          · cases outcome with
            | stays => exact .begins
            | counts set => cases still.symm.trans set
      | waiting own there => cases free.symm.trans there
  | @counts machine polled last holding state events choice found after completed dropped rest ih =>
      subst after
      cases stands with
      | without free => cases free.symm.trans found
      | @waiting event wait own there =>
          subst own
          cases there.symm.trans found
          obtain ⟨aside, same, answered, polled, -, still, left⟩ :=
            pollWait_aside owned there choice waker
          have set : (machine.events.get wait.event).isSet = true := by
            cases flag : (machine.events.get wait.event).isSet with
            | true => rfl
            | false =>
                rw [flag] at answered
                cases answered.symm.trans completed
          rw [if_pos set] at left
          obtain ⟨gone, less, unheld, -, free⟩ := dropWait_aside aside.owned still choice
          have whole := aside.trans gone
          obtain ⟨polled, grown, place, waits, outcome⟩ :=
            ih whole.owned ((whole.flags current).trans unset) (.without free)
          -- The wait that was dropped makes room for the one that is taken instead.
          have size := grown.size.trans (less.trans same.size)
          refine ⟨whole.trans polled, ⟨size, ?_⟩, place, waits, ?_⟩
          · intro small counted
            have fits := Nat.le_trans (Nat.le_of_eq (grown.size.trans less).symm) small
            exact grown.counted small (unheld left (same.counted fits counted))
          · cases outcome with
            | begins => exact .counts set
  | @waits machine state choice pending =>
      cases stands with
      | without free =>
          simp only [perform, pollFuture, free] at pending
          cases pending
      | @waiting event wait own there =>
          subst own
          obtain ⟨aside, grown, answered, polled, same, found, left⟩ :=
            pollWait_aside owned there choice waker
          have waits : ¬ (machine.events.get wait.event).isSet = true := by
            intro set
            rw [set] at answered
            cases answered.symm.trans pending
          rw [if_neg waits] at left
          exact ⟨aside, grown, wait.event, ⟨polled, same, found, left⟩, .stays waits⟩

end Consumers

end Machine

/-! ## Rounds -/

/-- How far the producer is. A round begins with a swap and ends when everybody was woken. -/
inductive Rearming.Phase where
  | idle
  /-- A fresh event is in the place of this one, which is still to be set. -/
  | swapped (old : EventId)
  /-- The replaced event is set, and one of its waiters is being woken. -/
  | setting (old : EventId)
  /-- Setting an event broke off. -/
  | broken
  deriving DecidableEq, Repr

/-- A producer and consumers that use a machine; a consumer's wait stands under the consumer's own
name. A consumer is scheduled if it was never polled or one of its wakers was called since its last
poll. Its counted events are listed in order; and `polledAfter` tells whether it was polled after
the sets of that many rounds had started and before the next swap. -/
structure Rearming (ω σ κ : Type) where
  machine : Machine ω σ κ
  current : EventId
  phase : Rearming.Phase := .idle
  started : Nat := 0
  completed : Nat := 0
  counted : κ → List EventId := fun _ => []
  scheduled : κ → Prop := fun _ => True
  polledAfter : κ → Nat → Prop := fun _ _ => False

namespace Rearming

/-- The set goes on with the next waiter, whose consumer is scheduled by being woken, or is over. -/
def goesOn (system : Rearming ω σ κ) (owner : ω → κ) (old : EventId) (turn : Turn ω σ κ) :
    Rearming ω σ κ :=
  { system with
    machine := turn.machine
    phase :=
      match turn.control with
      | .wake _ => .setting old
      | .done _ => .idle
      | .ask _ | .panicked _ => .broken
    completed :=
      match turn.control with
      | .done _ => system.completed + 1
      | .wake _ | .ask _ | .panicked _ => system.completed
    scheduled := fun consumer =>
      system.scheduled consumer ∨ ∃ waker, turn.control = .wake waker ∧ owner waker = consumer }

/-- The event that is to be set has been replaced and not been set yet. -/
def InSwap (system : Rearming ω σ κ) : Prop := ∃ old, system.phase = .swapped old

variable [Waker ω] [DecidableEq κ]

/-- The first event is made, and nobody was polled yet. -/
def start : Rearming ω σ κ where
  machine := (Machine.perform {} 0 .makeEvent).machine
  current := ⟨0⟩

/-- What can happen next. The producer goes its way; a consumer is polled at any time, with a waker
of its own. -/
inductive Step (owner : ω → κ) : Rearming ω σ κ → Rearming ω σ κ → Prop
  | swap {system : Rearming ω σ κ} {fresh : EventId} (choice : Nat) (idle : system.phase = .idle)
      (made : (system.machine.perform choice .makeEvent).control = .done (.event fresh)) :
      Step owner system
        { system with
          machine := (system.machine.perform choice .makeEvent).machine
          current := fresh
          phase := .swapped system.current }
  | set {system : Rearming ω σ κ} {old : EventId} (choice : Nat)
      (swapped : system.phase = .swapped old) :
      Step owner system
        ({ system with started := system.started + 1 }.goesOn owner old
          (system.machine.perform choice (.setEvent old)))
  /-- The waiter that was woken comes back. -/
  | back {system : Rearming ω σ κ} {old : EventId} (choice : Nat)
      (setting : system.phase = .setting old) (response : Response σ)
      (unbroken : ∀ panic, response ≠ .panicked panic) :
      Step owner system (system.goesOn owner old (system.machine.resume response choice))
  | poll {system : Rearming ω σ κ} (waker : ω) {events : List EventId} {last : Machine ω σ κ}
      (polls : Machine.Polls system.current (owner waker) waker system.machine events last) :
      Step owner system
        { system with
          machine := last
          counted := fun consumer =>
            if consumer = owner waker then system.counted consumer ++ events
            else system.counted consumer
          scheduled := fun consumer => consumer ≠ owner waker ∧ system.scheduled consumer
          polledAfter := fun consumer round => system.polledAfter consumer round ∨
            consumer = owner waker ∧ round = system.started ∧ ¬ system.InSwap }

/-- A system came about by steps in any order. -/
inductive Reachable (owner : ω → κ) : Rearming ω σ κ → Prop
  | start : Reachable owner start
  | step {system next : Rearming ω σ κ} (reached : Reachable owner system)
      (step : Step owner system next) : Reachable owner next

/-! ## What every step keeps -/

/-- The consumer is scheduled, is registered for a waker of its own, or owns one that is due. -/
def Attended (owner : ω → κ) (system : Rearming ω σ κ) (due : List ω) (consumer : κ) : Prop :=
  system.scheduled consumer ∨
    (∃ waker event, owner waker = consumer ∧ system.machine.WaitsFor consumer waker event) ∨
    ∃ waker ∈ due, owner waker = consumer

/-- The events are set in the order in which they were made, and the books of all consumers are
right. Some wakers being due to be called, every consumer is attended to if there are no more waits
than tokens. -/
structure Steady (owner : ω → κ) (system : Rearming ω σ κ) (due : List ω) : Prop where
  owned : Owned system.machine.events system.machine.waits
  next : system.machine.events.next = system.current.number + 1
  flags : ∀ id, (system.machine.events.get id).isSet = true ↔ id.number < system.started
  books : ∀ consumer, ∃ place?, system.machine.Stands consumer place? ∧
    Ledger system.started system.current.number (system.polledAfter consumer)
      (system.counted consumer) place?
  counted : system.machine.waits.length ≤ Token.limit →
    Counted system.machine.events system.machine.waits
  attended : system.machine.waits.length ≤ Token.limit →
    ∀ consumer, system.Attended owner due consumer

omit [Waker ω] [DecidableEq κ] in
/-- Where the producer is shows in the current event, the rounds and the calls in progress. -/
def InStep (system : Rearming ω σ κ) : Prop :=
  match system.phase with
  | .idle => system.current.number = system.started ∧ system.completed = system.started ∧
      system.machine.calls = []
  | .swapped old => old.number = system.started ∧
      system.current.number = system.started + 1 ∧ system.completed = system.started ∧
      system.machine.calls = []
  | .setting old => system.current.number = system.started ∧
      system.completed + 1 = system.started ∧
      ∃ released remaining, system.machine.calls = [.setting old released remaining]
  | .broken => False

structure Sound (owner : ω → κ) (system : Rearming ω σ κ) : Prop where
  steady : system.Steady owner (system.machine.calls.flatMap Call.outstanding)
  inStep : system.InStep

section Steps

variable {owner : ω → κ} {system next : Rearming ω σ κ}

theorem Steady.unset {due : List ω} (steady : Steady owner system due) {id : EventId}
    (late : system.started ≤ id.number) : (system.machine.events.get id).isSet = false := by
  rw [Bool.eq_false_iff]
  intro set
  exact Nat.not_lt_of_le late ((steady.flags id).mp set)

theorem Sound.start : Sound owner (start : Rearming ω σ κ) where
  steady :=
    { owned := Machine.perform_owned .empty 0 .makeEvent
      next := rfl
      flags := fun _ => ⟨nofun, fun early => (Nat.not_lt_zero _ early).elim⟩
      books := fun _ => ⟨none, .without rfl, .start⟩
      counted := fun _ _ _ => Nat.le_refl _
      attended := fun _ _ => .inl trivial }
  inStep := ⟨rfl, rfl, rfl⟩

/-- Whoever is still to be woken is scheduled once it is woken. -/
theorem Steady.goesOn {remaining : List (Token × ω)}
    (steady : Steady owner system (remaining.map Prod.snd)) (old : EventId) (released choice : Nat)
    (ended : system.machine.calls = []) (current : system.current.number = system.started)
    (round : system.completed + 1 = system.started) :
    Sound owner (system.goesOn owner old
      (system.machine.continueSet old released remaining choice)) := by
  by_cases none : remaining = []
  · subst none
    rw [Machine.continueSet_nil]
    refine ⟨⟨steady.owned, steady.next, steady.flags, steady.books, steady.counted, ?_⟩, current,
      round, ended⟩
    intro small consumer
    rcases steady.attended small consumer with scheduled | waits | ⟨waker, due, -⟩
    · exact .inl (.inl scheduled)
    · exact .inr (.inl waits)
    · cases due
  · obtain ⟨entry, rest, all, same⟩ :=
      system.machine.continueSet_of_ne_nil old released choice none
    have waits : (system.machine.push (.setting old released rest)).waits =
        system.machine.waits := rfl
    rw [same]
    refine ⟨⟨?_, steady.next, steady.flags, ?_, ?_, ?_⟩, current, round, released, rest, ?_⟩
    · exact waits ▸ steady.owned
    · intro consumer
      obtain ⟨place?, stands, ledger⟩ := steady.books consumer
      exact ⟨place?, stands.of_same rfl, ledger⟩
    · exact waits ▸ steady.counted
    · intro small consumer
      rcases steady.attended (waits ▸ small) consumer with scheduled | waits | ⟨waker, due, own⟩
      · exact .inl (.inl scheduled)
      · exact .inr (.inl waits)
      · obtain ⟨other, member, rfl⟩ := List.mem_map.mp due
        rcases List.mem_cons.mp (all.mem_iff.mp member) with rfl | later
        · exact .inl (.inr ⟨_, rfl, own⟩)
        · refine .inr (.inr ⟨other.2, ?_, own⟩)
          exact List.mem_flatMap.mpr ⟨_, List.mem_cons_self, List.mem_map_of_mem later⟩
    · exact congrArg _ ended

theorem Sound.swap (sound : Sound owner system) {fresh : EventId} (choice : Nat)
    (idle : system.phase = .idle)
    (made : (system.machine.perform choice .makeEvent).control = .done (.event fresh)) :
    Sound owner
      { system with
        machine := (system.machine.perform choice .makeEvent).machine
        current := fresh
        phase := .swapped system.current } := by
  obtain ⟨⟨owned, next, flags, books, counted, attended⟩, inStep⟩ := sound
  simp only [InStep, idle] at inStep
  obtain ⟨current, completed, ended⟩ := inStep
  cases made
  refine ⟨⟨?_, rfl, flags, ?_, counted, attended⟩, current, ?_, completed, ended⟩
  · exact Machine.perform_owned owned choice .makeEvent
  · intro consumer
    obtain ⟨place?, stands, ledger⟩ := books consumer
    refine ⟨place?, stands.of_same rfl, ?_⟩
    rw [current] at ledger
    simp only [next, current]
    exact ledger.swap
  · simp only [next, current]

/-- The old event was set, and the waiters that were registered with it are due. -/
theorem Steady.trip
    (same : ∀ first second, willWake first second = true → owner first = owner second)
    (steady : Steady owner system []) {old : EventId} (last : old.number = system.started)
    (current : system.current.number = system.started + 1) :
    Steady owner
      { system with
        machine := { system.machine with
          events := system.machine.events.put old (system.machine.events.get old).tripped }
        started := system.started + 1 }
      ((system.machine.events.get old).registry.entries.map Prod.snd) := by
  refine ⟨steady.owned.tripped old, steady.next, ?_, ?_, fun small =>
    (steady.counted small).put old rfl, ?_⟩
  · intro id
    simp only [Events.get_put]
    split
    · next here =>
        subst here
        exact ⟨fun _ => by omega, fun _ => rfl⟩
    · next there =>
        have other : id.number ≠ old.number := fun equal => there (congrArg EventId.mk equal)
        rw [steady.flags id]
        omega
  · intro consumer
    obtain ⟨place?, stands, ledger⟩ := steady.books consumer
    refine ⟨place?, stands.of_same rfl, ?_⟩
    rw [current] at ledger
    simp only [current]
    exact ledger.set
  · intro small consumer
    rcases steady.attended small consumer with scheduled | ⟨waker, event, own, waits⟩ | ⟨_, due, -⟩
    · exact .inl scheduled
    · obtain ⟨wait, on, there, registered⟩ := waits
      rcases registered.put old (system.machine.events.get old).tripped with
        still | ⟨stored, member, does⟩
      · exact .inr (.inl ⟨waker, event, own, wait, on, there, still⟩)
      · exact .inr (.inr ⟨stored, member, (same stored waker does).trans own⟩)
    · cases due

theorem Sound.set
    (same : ∀ first second, willWake first second = true → owner first = owner second)
    (sound : Sound owner system) {old : EventId} (choice : Nat)
    (swapped : system.phase = .swapped old) :
    Sound owner ({ system with started := system.started + 1 }.goesOn owner old
      (system.machine.perform choice (.setEvent old))) := by
  obtain ⟨steady, inStep⟩ := sound
  simp only [InStep, swapped] at inStep
  obtain ⟨last, current, completed, ended⟩ := inStep
  rw [ended, List.flatMap_nil] at steady
  have unset := steady.unset (Nat.le_of_eq last.symm)
  have turn := Machine.setEvent_eq_of_unset (steady.owned.free old) unset choice
  simp only [Machine.perform, turn]
  exact (steady.trip same last current).goesOn old _ choice ended current
    (congrArg (· + 1) completed)

theorem Sound.back (sound : Sound owner system) {old : EventId} (choice : Nat)
    (setting : system.phase = .setting old) {response : Response σ}
    (unbroken : ∀ panic, response ≠ .panicked panic) :
    Sound owner (system.goesOn owner old (system.machine.resume response choice)) := by
  obtain ⟨⟨owned, next, flags, books, counted, attended⟩, inStep⟩ := sound
  simp only [InStep, setting] at inStep
  obtain ⟨current, completed, released, remaining, calls⟩ := inStep
  have turn : system.machine.resume response choice =
      { system.machine with calls := [] }.continueSet old released remaining choice := by
    unfold Machine.resume
    rw [calls]
    cases response with
    | panicked panic => exact absurd rfl (unbroken panic)
    | ready | pending => rfl
  have waits : system.machine.waits =
      Machine.waits { system.machine with calls := ([] : List (Call ω σ κ)) } := by
    simp only [Machine.waits, calls]
    rfl
  have left : Steady owner { system with machine := { system.machine with calls := [] } }
      (remaining.map Prod.snd) := by
    refine ⟨waits ▸ owned, next, flags, ?_, waits ▸ counted, ?_⟩
    · intro consumer
      obtain ⟨place?, stands, ledger⟩ := books consumer
      exact ⟨place?, stands.of_same rfl, ledger⟩
    · intro small consumer
      rcases attended (waits ▸ small) consumer with scheduled | waits | ⟨waker, due, own⟩
      · exact .inl scheduled
      · exact .inr (.inl waits)
      · simp only [calls, List.flatMap_cons, List.flatMap_nil, List.append_nil] at due
        exact .inr (.inr ⟨waker, due, own⟩)
  rw [turn]
  exact left.goesOn old released choice rfl current completed

omit [Waker ω] [DecidableEq κ] in
/-- The current event comes after those that are set; it is the next to be set unless the producer
is between the swap and the set. -/
theorem InStep.current (inStep : system.InStep) : system.started ≤ system.current.number ∧
    (¬ system.InSwap ↔ system.current.number = system.started) := by
  unfold InStep at inStep
  split at inStep
  · next idle =>
      obtain ⟨current, -⟩ := inStep
      exact ⟨Nat.le_of_eq current.symm, fun _ => current, fun _ ⟨_, other⟩ => by
        cases idle.symm.trans other⟩
  · next old swapped =>
      obtain ⟨-, current, -⟩ := inStep
      exact ⟨by omega, fun outside => absurd ⟨old, swapped⟩ outside, fun same => by omega⟩
  · next setting =>
      obtain ⟨current, -⟩ := inStep
      exact ⟨Nat.le_of_eq current.symm, fun _ => current, fun _ ⟨_, other⟩ => by
        cases setting.symm.trans other⟩
  · exact inStep.elim

theorem Sound.poll [LawfulWaker ω] (sound : Sound owner system) {waker : ω}
    {events : List EventId} {last : Machine ω σ κ}
    (polls : Machine.Polls system.current (owner waker) waker system.machine events last) :
    Sound owner
      { system with
        machine := last
        counted := fun consumer =>
          if consumer = owner waker then system.counted consumer ++ events
          else system.counted consumer
        scheduled := fun consumer => consumer ≠ owner waker ∧ system.scheduled consumer
        polledAfter := fun consumer round => system.polledAfter consumer round ∨
          consumer = owner waker ∧ round = system.started ∧ ¬ system.InSwap } := by
  obtain ⟨steady, inStep⟩ := sound
  obtain ⟨late, outside⟩ := inStep.current
  obtain ⟨place?, stands, ledger⟩ := steady.books (owner waker)
  obtain ⟨aside, grown, place, waits, outcome⟩ :=
    polls.outcome steady.owned (steady.unset late) stands
  have counted : last.waits.length ≤ Token.limit → Counted last.events last.waits :=
    fun small => grown.counted small (steady.counted (Nat.le_trans grown.le small))
  refine ⟨⟨aside.owned, aside.next.trans steady.next, ?_, ?_, counted, ?_⟩, ?_⟩
  · intro id
    rw [aside.flags]
    exact steady.flags id
  · intro consumer
    by_cases own : consumer = owner waker
    · subst own
      obtain ⟨wait, on, there, -⟩ := waits
      have polled := ledger.poll steady.flags late outcome
      simp only [if_true, true_and, outside]
      exact ⟨some place, .waiting on there, polled⟩
    · obtain ⟨other?, others, kept⟩ := steady.books consumer
      simp only [own, if_false, false_and, or_false]
      exact ⟨other?, others.of_same (aside.kept consumer own), kept⟩
  · intro small consumer
    by_cases own : consumer = owner waker
    · subst own
      exact .inr (.inl ⟨waker, place, rfl, waits⟩)
    · rcases steady.attended (Nat.le_trans grown.le small) consumer with
        scheduled | ⟨other, event, his, registered⟩ | due
      · exact .inl ⟨own, scheduled⟩
      · exact .inr (.inl ⟨other, event, his, registered.aside aside own small (counted small)⟩)
      · refine .inr (.inr ?_)
        simp only [aside.calls]
        exact due
  · unfold InStep at inStep ⊢
    simp only [aside.calls]
    exact inStep

theorem Sound.step [LawfulWaker ω]
    (same : ∀ first second, willWake first second = true → owner first = owner second)
    (sound : Sound owner system) (step : Step owner system next) : Sound owner next := by
  cases step with
  | swap choice idle made => exact sound.swap choice idle made
  | set choice swapped => exact sound.set same choice swapped
  | back choice setting _ unbroken => exact sound.back choice setting unbroken
  | poll _ polls => exact sound.poll polls

theorem Reachable.sound [LawfulWaker ω]
    (same : ∀ first second, willWake first second = true → owner first = owner second)
    (reached : Reachable owner system) : Sound owner system := by
  induction reached with
  | start => exact .start
  | step _ step ih => exact ih.step same step

/-- Between rounds no waker is due any more; and an unset event is the current one, since it is no
newer than that. -/
theorem Sound.scheduled_or_registered
    (same : ∀ first second, willWake first second = true → owner first = owner second)
    (sound : Sound owner system) (idle : system.phase = .idle)
    (small : system.machine.waits.length ≤ Token.limit) (consumer : κ) :
    system.scheduled consumer ∨ ∃ wait token stored,
      system.machine.futures.get? consumer = some ⟨system.current, .plain wait⟩ ∧
        wait.event = system.current ∧ wait.token = some token ∧
        (system.machine.events.get system.current).registry.get? token = some stored ∧
        owner stored = consumer := by
  obtain ⟨steady, inStep⟩ := sound
  simp only [InStep, idle] at inStep
  obtain ⟨current, -, ended⟩ := inStep
  obtain ⟨place?, stands, ledger⟩ := steady.books consumer
  rcases steady.attended small consumer with scheduled | ⟨waker, event, own, waits⟩ | ⟨_, due, -⟩
  · exact .inl scheduled
  · obtain ⟨wait, on, there, waiting, token, stored, holds, entry, does⟩ := waits
    have here : event = system.current := by
      cases stands with
      | without free => cases free.symm.trans there
      | waiting _ under =>
          cases under.symm.trans there
          have upTo := (ledger.ahead event rfl).1
          have late : ¬ event.number < system.started := by
            rw [← steady.flags, ← on, waiting]
            exact Bool.false_ne_true
          have number : event.number = system.current.number := by omega
          exact congrArg EventId.mk number
    subst here
    refine .inr ⟨wait, token, stored, there, on, holds, ?_, (same stored waker does).trans own⟩
    rw [← on]
    exact entry
  · simp only [ended, List.flatMap_nil] at due
    cases due

end Steps

/-- In every state that a producer and its consumers can reach, a consumer has counted no more
events than sets have started, and none of them twice. Between rounds the current event is unset,
and every consumer is scheduled or registered with it, unless more waits are alive than there are
tokens; and a consumer that was polled after each set and before the next swap, and before the first
one, has counted exactly the rounds. Setting never breaks off, and a poll of a consumer always comes
to its end. -/
theorem consumers_keep_count [LawfulWaker ω] (owner : ω → κ)
    (same : ∀ first second, willWake first second = true → owner first = owner second)
    {system : Rearming ω σ κ} (reached : Reachable owner system) :
    (∀ consumer, (system.counted consumer).length ≤ system.started ∧
      (system.counted consumer).Nodup) ∧
    (system.phase = .idle →
      (system.machine.events.get system.current).isSet = false ∧
      (system.machine.waits.length ≤ Token.limit →
        ∀ consumer, system.scheduled consumer ∨ ∃ wait token stored,
          system.machine.futures.get? consumer = some ⟨system.current, .plain wait⟩ ∧
            wait.event = system.current ∧ wait.token = some token ∧
            (system.machine.events.get system.current).registry.get? token = some stored ∧
            owner stored = consumer) ∧
      ∀ consumer, (∀ round ≤ system.completed, system.polledAfter consumer round) →
        (system.counted consumer).length = system.completed) ∧
    system.phase ≠ .broken ∧
    ∀ waker, ∃ events last,
      Machine.Polls system.current (owner waker) waker system.machine events last := by
  have sound := reached.sound same
  have unset := sound.steady.unset sound.inStep.current.1
  refine ⟨?_, ?_, ?_, ?_⟩
  · intro consumer
    obtain ⟨place?, -, ledger⟩ := sound.steady.books consumer
    exact ⟨ledger.length_le, ledger.nodup⟩
  · intro idle
    refine ⟨unset, sound.scheduled_or_registered same idle, ?_⟩
    intro consumer all
    have inStep := sound.inStep
    simp only [InStep, idle] at inStep
    obtain ⟨place?, -, ledger⟩ := sound.steady.books consumer
    exact (ledger.prompt _ all (.inl inStep.2.1)).1
  · intro broken
    have inStep := sound.inStep
    simp only [InStep, broken] at inStep
  · intro waker
    obtain ⟨place?, stands, -⟩ := sound.steady.books (owner waker)
    exact Machine.exists_polls sound.steady.owned unset stands

/-- One consumer waits for the first event and is polled by its own waker while that is set; another
one is polled for the first time between the swap and the set. -/
theorem consumers_keep_count_reentrant :
    ∃ system : Rearming Pool.TaskId Nat Bool,
      Reachable (fun waker : Pool.TaskId => decide (waker.number = 1)) system ∧
        system.phase = .idle ∧ system.completed = 1 ∧ (∀ consumer, ¬ system.scheduled consumer) ∧
        (system.counted false).length = 1 ∧ (system.counted true).Nodup ∧
        ∀ consumer, ∃ wait token stored,
          system.machine.futures.get? consumer = some ⟨system.current, .plain wait⟩ ∧
            wait.token = some token ∧
            (system.machine.events.get system.current).registry.get? token = some stored ∧
            decide (stored.number = 1) = consumer := by
  have same : ∀ first second : Pool.TaskId, willWake first second = true →
      decide (first.number = 1) = decide (second.number = 1) := by
    intro first second equal
    rw [of_decide_eq_true equal]
  have fresh : Reachable (fun waker : Pool.TaskId => decide (waker.number = 1))
      (start : Rearming Pool.TaskId Nat Bool) := .start
  have waiting := fresh.step (.poll ⟨0⟩ (.takes 0 rfl rfl (.waits 0 rfl)))
  have swapped := waiting.step (.swap 0 rfl rfl)
  have late := swapped.step (.poll ⟨1⟩ (.takes 0 rfl rfl (.waits 0 rfl)))
  have setting := late.step (.set 0 rfl)
  have counting := setting.step
    (.poll ⟨0⟩ (.counts 0 rfl rfl rfl rfl (.takes 0 rfl rfl (.waits 0 rfl))))
  have ended := counting.step (.back 0 rfl .ready nofun)
  obtain ⟨system, reached, idle, small, completed, stalled, prompt⟩ :
      ∃ system : Rearming Pool.TaskId Nat Bool,
        Reachable (fun waker : Pool.TaskId => decide (waker.number = 1)) system ∧
          system.phase = .idle ∧ system.machine.waits.length ≤ Token.limit ∧
          system.completed = 1 ∧ (∀ consumer, ¬ system.scheduled consumer) ∧
          system.polledAfter false 0 ∧ system.polledAfter false 1 := by
    refine ⟨_, ended, rfl, by decide, rfl, ?_, ?_, ?_⟩
    · rintro consumer (⟨other, ⟨own, -⟩ | ⟨waker, wakes, own⟩⟩ | ⟨waker, wakes, -⟩)
      · cases consumer with
        | false => exact other rfl
        | true => exact own rfl
      · cases wakes
        exact other own.symm
      · cases wakes
    · exact .inl (.inl (.inr ⟨rfl, rfl, nofun⟩))
    · exact .inr ⟨rfl, rfl, nofun⟩
  obtain ⟨counts, between, -⟩ := consumers_keep_count _ same reached
  obtain ⟨-, registered, kept⟩ := between idle
  refine ⟨system, reached, idle, completed, stalled, ?_, (counts true).2, ?_⟩
  · rw [kept false, completed]
    intro round upTo
    rw [completed] at upTo
    cases upTo with
    | refl => exact prompt.2
    | step early => exact Nat.le_zero.mp early ▸ prompt.1
  · intro consumer
    rcases registered small consumer with scheduled | waiting
    · exact absurd scheduled (stalled consumer)
    · obtain ⟨wait, token, stored, there, -, holds, entry, own⟩ := waiting
      exact ⟨wait, token, stored, there, holds, entry, own⟩

end Rearming

end Latch
