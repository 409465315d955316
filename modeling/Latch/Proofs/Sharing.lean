import Latch.Proofs.Callbacks
import Latch.Proofs.Races

/-!
# Shares in events

An event counts its owners: the one who made it, and the live waits that own it. A wait has its
share from the moment it is made until it is dropped, wherever it has been moved meanwhile and
whatever it has answered; and a race drops its wait when it is settled, and not before.
-/

set_option autoImplicit false

namespace Latch

variable {ω σ ν : Type}

namespace Wait

/-- How many of some waits own an event. -/
def owners (event : EventId) (waits : List Wait) : Nat :=
  waits.countP fun wait => wait.event = event ∧ wait.hold = .owned

/-- One for a wait that owns the event, and nothing for any other. -/
def share (event : EventId) (wait : Wait) : Nat :=
  if wait.event = event ∧ wait.hold = .owned then 1 else 0

theorem owners_cons (event : EventId) (wait : Wait) (waits : List Wait) :
    owners event (wait :: waits) = owners event waits + wait.share event := by
  simp only [owners, share, List.countP_cons, decide_eq_true_eq]

theorem owners_append (event : EventId) (waits others : List Wait) :
    owners event (waits ++ others) = owners event waits + owners event others :=
  List.countP_append

theorem owners_perm (event : EventId) {waits others : List Wait} (same : waits.Perm others) :
    owners event waits = owners event others :=
  same.countP_eq _

@[simp]
theorem owners_nil (event : EventId) : owners event [] = 0 := rfl

theorem share_of_same {wait other : Wait} (event : wait.event = other.event)
    (hold : wait.hold = other.hold) (id : EventId) : wait.share id = other.share id := by
  rw [share, share, event, hold]

variable [Waker ω]

theorem poll_same (wait : Wait) (waker : ω) (events : Events ω) :
    (wait.poll waker events).wait.event = wait.event ∧
      (wait.poll waker events).wait.hold = wait.hold := by
  unfold poll
  simp only
  split
  · exact ⟨rfl, rfl⟩
  · split <;> exact ⟨rfl, rfl⟩

theorem share_poll (wait : Wait) (waker : ω) (events : Events ω) (id : EventId) :
    (wait.poll waker events).wait.share id = wait.share id :=
  share_of_same (wait.poll_same waker events).1 (wait.poll_same waker events).2 id

end Wait

/-! ## Handles under changes -/

theorem Events.handles_put {events : Events ω} {there : EventId} {event : Event ω}
    (same : event.handles = (events.get there).handles) (id : EventId) :
    ((events.put there event).get id).handles = (events.get id).handles := by
  rw [get_put]
  split
  · next here => rw [here, same]
  · rfl

theorem Event.handles_of_register [Waker ω] {event next : Event ω} {token? : Option Token}
    {waker : ω} {token : Token} {enrolment : Enrolment}
    (registered : event.register token? waker = .ok (token, enrolment, next)) :
    next.handles = event.handles := by
  unfold register at registered
  split at registered
  · cases registered
  · split at registered
    · cases registered
    · cases registered
      rfl

theorem Event.handles_of_deregister {event next : Event ω} {token : Token} {present : Bool}
    (deregistered : event.deregister token = .ok (present, next)) :
    next.handles = event.handles := by
  unfold deregister at deregistered
  split at deregistered
  · cases deregistered
  · cases deregistered
    rfl

namespace Wait

theorem handles_poll [Waker ω] (wait : Wait) (waker : ω) (events : Events ω) (id : EventId) :
    ((wait.poll waker events).events.get id).handles = (events.get id).handles := by
  unfold poll
  simp only
  split
  · rfl
  · split
    · rfl
    · next registered => exact Events.handles_put (Event.handles_of_register registered) id

theorem handles_withdraw (wait : Wait) (events : Events ω) (id : EventId) :
    ((wait.withdraw events).events.get id).handles = (events.get id).handles := by
  unfold withdraw
  split
  · rfl
  · split
    · rfl
    · next deregistered => exact Events.handles_put (Event.handles_of_deregister deregistered) id

theorem handles_make (events : Events ω) (event : EventId) (hold : Hold) (id : EventId) :
    ((make events event hold).2.get id).handles =
      (events.get id).handles + (make events event hold).1.share id := by
  cases hold with
  | borrowed => simp [make, share]
  | owned =>
      simp only [make, Events.modify, Events.get_put, share, and_true]
      by_cases here : id = event
      · rw [if_pos here, if_pos here.symm, here]
        rfl
      · rw [if_neg here, if_neg (Ne.symm here)]
        rfl

theorem handles_drop (wait : Wait) (events : Events ω) (id : EventId) :
    ((wait.drop events).events.get id).handles = (events.get id).handles - wait.share id := by
  have withdrawn := wait.handles_withdraw events
  cases hold : wait.hold with
  | borrowed =>
      simp only [drop, hold, share, reduceCtorEq, and_false, if_false]
      exact withdrawn id
  | owned =>
      simp only [drop, hold, Events.modify, Events.get_put, share, and_true]
      by_cases here : id = wait.event
      · rw [if_pos here, if_pos here.symm, here]
        exact congrArg (· - 1) (withdrawn wait.event)
      · rw [if_neg here, if_neg (Ne.symm here)]
        exact withdrawn id

end Wait

/-! ## Owners in runs -/

/-- Of each event there are as many handles as it has owners among the waits, and one more. -/
def Shared (events : Events ω) (waits : List Wait) : Prop :=
  ∀ id, (events.get id).handles = 1 + Wait.owners id waits

theorem Shared.handled [Waker ω] {events next : Events ω} {waits left : List Wait}
    {trace : List (Occurrence ω)} (handles : Handles events waits trace next left)
    (shared : Shared events waits) : Shared next left := by
  induction handles with
  | nothing | create | note => exact shared
  | make event hold =>
      intro id
      rw [Wait.handles_make, Wait.owners_cons, shared id, Nat.add_assoc]
  | poll waker wait =>
      intro id
      rw [Wait.handles_poll, shared id, Wait.owners_cons, Wait.owners_cons, Wait.share_poll]
  | drop wait =>
      intro id
      rw [Wait.handles_drop, shared id, Wait.owners_cons]
      omega
  | reorder same =>
      intro id
      rw [shared id, Wait.owners_perm id same]
  | trans _ _ head tail => exact tail (head shared)

theorem Shared.tripped {events : Events ω} {waits : List Wait} (shared : Shared events waits)
    (id : EventId) : Shared (events.put id (events.get id).tripped) waits := by
  have same : (events.get id).tripped.handles = (events.get id).handles := rfl
  exact fun other => (Events.handles_put same other).trans (shared other)

theorem Machine.Run.shared [Waker ω] [DecidableEq ν] {history : List (Occurrence ω)}
    {machine : Machine ω σ ν} (run : Run history machine) :
    Shared machine.events machine.waits := by
  induction run with
  | start => exact fun _ => rfl
  | step run next shared =>
      refine move_keeps ⟨fun handles shared => shared.handled handles, ?_⟩ run.owned shared next
      exact fun id shared => shared.tripped id

/-! ## Waits that a move drops -/

/-- The waits of races that are settled on the way from a future to what became of it. -/
def Future.settled : Future σ → Future σ → List Wait
  | race wait signal, race none after => wait.toList ++ signal.settled after
  | race _ signal, race (some _) after => signal.settled after
  | race .., plain _ | race .., ready | race .., never | race .., external _ => []
  | plain _, _ | ready, _ | never, _ | external _, _ => []

namespace Future

theorem settled_self (future : Future σ) : future.settled future = [] := by
  induction future with
  | plain | ready | never | external => rfl
  | race wait signal ih =>
      cases wait with
      | none => exact ih
      | some wait => exact ih

theorem future_settle (wait : Wait) (signal : Future σ) (answer : Answer)
    (note : List (Occurrence ω)) (events : Events ω) :
    (settle wait signal answer note events).future = race none signal := by
  unfold settle
  simp only
  split <;> rfl

theorem future_conclude (wait : Wait) (polled : Polled σ ω) :
    (conclude wait polled).future = race (some wait) polled.future ∨
      (conclude wait polled).future = race none polled.future := by
  unfold conclude
  split
  any_goals exact .inl rfl
  all_goals exact .inr (future_settle ..)

/-- All waits of a race are in what became of its signal, but for its own and those that its signal
was rid of. -/
theorem owners_conclude (id : EventId) {wait before : Wait} {signal : Future σ}
    {polled : Polled σ ω} (same : wait.share id = before.share id)
    (signals : Wait.owners id polled.future.waits +
      Wait.owners id (signal.settled polled.future) = Wait.owners id signal.waits) :
    Wait.owners id (conclude wait polled).future.waits +
        Wait.owners id ((race (some before) signal).settled (conclude wait polled).future) =
      Wait.owners id (race (some before) signal).waits := by
  rcases future_conclude wait polled with kept | settled
  · rw [kept]
    simp only [settled, waits, Option.toList_some, List.singleton_append, Wait.owners_cons]
    omega
  · rw [settled]
    simp only [Future.settled, waits, Option.toList_some, Option.toList_none, List.nil_append,
      List.singleton_append, Wait.owners_cons]
    omega

theorem owners_resume (id : EventId) (response : Response σ) (future : Future σ)
    (events : Events ω) :
    Wait.owners id (future.resume response events).future.waits +
        Wait.owners id (future.settled (future.resume response events).future) =
      Wait.owners id future.waits := by
  induction future with
  | plain | ready | never => rfl
  | external => cases response <;> rfl
  | race wait signal ih =>
      cases wait with
      | none =>
          simp only [resume, settled_self]
          rfl
      | some wait => exact owners_conclude id rfl ih

theorem owners_poll [Waker ω] (id : EventId) (waker : ω) (future : Future σ) (events : Events ω) :
    Wait.owners id (future.poll waker events).future.waits +
        Wait.owners id (future.settled (future.poll waker events).future) =
      Wait.owners id future.waits := by
  induction future generalizing events with
  | plain wait =>
      simp only [poll, waits, settled, Wait.owners_cons, Wait.share_poll, Wait.owners_nil,
        Nat.add_zero]
  | ready | never | external => rfl
  | race wait signal ih =>
      cases wait with
      | none =>
          simp only [poll, settled_self]
          rfl
      | some wait =>
          have same := wait.share_poll waker events id
          have unpolled := signal.settled_self
          unfold poll
          simp only
          split
          · simp only [settled, waits, unpolled, Option.toList_some, List.singleton_append,
              Wait.owners_cons, same, Wait.owners_nil, Nat.add_zero]
          · simp only [future_settle, settled, waits, unpolled, Option.toList_some,
              Option.toList_none, List.nil_append, List.append_nil, List.singleton_append,
              Wait.owners_cons, Wait.owners_nil, Nat.zero_add]
          · exact owners_conclude id same (ih _)

end Future

namespace Machine

variable [DecidableEq ν]

/-- The waits of the future under a name. -/
def under (machine : Machine ω σ ν) (name : ν) : List Wait :=
  match machine.futures.get? name with
  | none => []
  | some holding => holding.future.waits

/-- The waits that a move makes. -/
def Move.made : Move ω σ ν → List Wait
  | .perform _ (.makeWait _ event hold) => [{ event, hold }]
  | .perform .. | .resume .. => []

variable [Waker ω]

/-- The waits that a move drops: those of a future that is dropped, or whose name is given to
another one, and those of races that a poll settles. -/
def dropped (machine : Machine ω σ ν) : Move ω σ ν → List Wait
  | .perform _ (.makeWait name _ _) | .perform _ (.drop name) => machine.under name
  | .perform _ (.poll name waker) =>
      match machine.futures.get? name with
      | none => []
      | some holding => holding.future.settled (holding.future.poll waker machine.events).future
  | .perform .. => []
  | .resume response _ =>
      match machine.calls with
      | .polling name holding _ :: _ =>
          holding.future.settled (holding.future.resume response machine.events).future ++
            machine.under name
      | _ => []

/-! ### What becomes of the waits -/

variable (machine : Machine ω σ ν) (id : EventId)

omit [DecidableEq ν] [Waker ω] in
theorem owners_waits :
    Wait.owners id machine.waits =
      Wait.owners id (held machine.futures) +
        Wait.owners id (machine.calls.flatMap Call.waits) :=
  Wait.owners_append id _ _

omit [Waker ω] in
theorem owners_erase (name : ν) :
    Wait.owners id (held (machine.futures.erase name)) + Wait.owners id (machine.under name) =
      Wait.owners id (held machine.futures) := by
  unfold under
  cases found : machine.futures.get? name with
  | none => rw [Table.erase_of_get?_eq_none found, Wait.owners_nil, Nat.add_zero]
  | some holding =>
      rw [Wait.owners_perm id (held_perm_of_get? found), Wait.owners_append, Nat.add_comm]

omit [Waker ω] in
theorem owners_store (name : ν) (holding : Holding σ) (control : Control ω σ) :
    Wait.owners id (machine.store name holding control).machine.waits +
        Wait.owners id (machine.under name) =
      Wait.owners id machine.waits + Wait.owners id holding.future.waits := by
  have futures : (machine.store name holding control).machine.futures =
      machine.futures.insert name holding := by
    unfold store
    simp only
    split <;> rfl
  obtain ⟨-, calls, -⟩ := machine.store_spec name holding control
  have left := machine.owners_erase id name
  rw [owners_waits, owners_waits, futures, calls,
    Wait.owners_perm id (held_insert_perm machine.futures name holding), Wait.owners_append]
  omega

omit [Waker ω] in
/-- A poll that is over puts its future back, and drops one that has taken the name meanwhile. -/
theorem owners_afterPoll (name : ν) (event : EventId) (waker : ω) (polled : Future.Polled σ ω) :
    Wait.owners id (machine.afterPoll name event waker polled).machine.waits +
        Wait.owners id (match polled.progress with
          | .asks _ => []
          | .answered _ | .panicked _ => machine.under name) =
      Wait.owners id machine.waits + Wait.owners id polled.future.waits := by
  have stored := fun control : Control ω σ =>
    owners_store { machine with events := polled.events } id name ⟨event, polled.future⟩ control
  unfold afterPoll
  cases polled.progress with
  | answered answer => exact stored _
  | panicked panic => exact stored _
  | asks signal =>
      simp only [owners_waits, push, List.flatMap_cons, Call.waits, Wait.owners_append,
        Wait.owners_nil]
      omega

theorem perform_waits (choice : Nat) {action : Action ω σ ν} (nameless : action.names = []) :
    (machine.perform choice action).machine.waits = machine.waits := by
  have noPoll : action.polls? = none := by
    cases action with
    | poll => cases nameless
    | makeEvent | setEvent | makeWait | drop | race | wake => rfl
    | makeRegistry | dropRegistry | add | update | remove => rfl
    | releaseAll | releaseOne | drain => rfl
  have futures : (machine.perform choice action).machine.futures = machine.futures :=
    congrArg (·.machine.futures) (machine.perform_nameless machine.futures choice nameless)
  have calls := (machine.perform_quiet choice noPoll).waits
  simp only [Machine.waits, futures, calls]

omit [Waker ω] in
theorem owners_race (name : ν) (signal : Signal σ ν) :
    Wait.owners id (machine.raceFuture name signal).machine.waits =
      Wait.owners id machine.waits := by
  unfold raceFuture
  split
  · next event wait found =>
      split
      · next future futures taken =>
          have stored := held_insert_perm futures name ⟨event, .race (some wait) future⟩
          rw [takeSignal?_erase taken] at stored
          simp only [owners_waits, Wait.owners_perm id stored,
            Wait.owners_perm id (held_perm_of_get? found),
            Wait.owners_perm id (takeSignal?_held taken).2, Wait.owners_append, Future.waits,
            Option.toList_some]
          omega
      · rfl
  · rfl

omit [Waker ω] in
theorem resume_waits (response : Response σ) (choice : Nat) {call : Call ω σ ν}
    {rest : List (Call ω σ ν)} (calls : machine.calls = call :: rest)
    (noPoll : call.polls? = none) :
    (machine.resume response choice).machine.waits = machine.waits := by
  have futures : (machine.resume response choice).machine.futures = machine.futures := by
    refine congrArg (·.machine.futures) (machine.resume_nameless machine.futures response choice ?_)
    intro name holding waker others polling
    cases calls.symm.trans polling
    cases noPoll
  have left : (machine.resume response choice).machine.calls.flatMap Call.waits =
      rest.flatMap Call.waits := by
    cases response with
    | panicked panic =>
        simp only [resume, calls]
        cases call with
        | polling => cases noPoll
        | setting | releasingAll | releasingOne | draining | waking => rfl
    | ready | pending =>
        refine (resume_quiet calls noPoll ?_ choice).2.2.1.waits
        intro panic same
        cases same
  simp only [Machine.waits, futures, left, calls, List.flatMap_cons, Call.waits_eq_nil noPoll,
    List.nil_append]

omit [Waker ω] in
theorem owners_drop (name : ν) :
    Wait.owners id (machine.dropFuture name).machine.waits +
        Wait.owners id (machine.under name) = Wait.owners id machine.waits := by
  have left := machine.owners_erase id name
  unfold dropFuture
  cases found : machine.futures.get? name with
  | none =>
      simp only [under, found, Wait.owners_nil, Nat.add_zero]
      rfl
  | some holding =>
      simp only [owners_waits, discard]
      omega

theorem owners_pollFuture (name : ν) (waker : ω) {holding : Holding σ}
    (found : machine.futures.get? name = some holding) :
    Wait.owners id (machine.pollFuture name waker).machine.waits +
        Wait.owners id
          (holding.future.settled (holding.future.poll waker machine.events).future) =
      Wait.owners id machine.waits := by
  -- The name is free while its future is polled.
  have free : under { machine with futures := machine.futures.erase name } name = [] := by
    simp only [under, Table.get?_erase_self]
  have polled := holding.future.owners_poll id waker machine.events
  have after := owners_afterPoll { machine with futures := machine.futures.erase name } id name
    holding.event waker (holding.future.poll waker machine.events)
  have nothing : Wait.owners id
      (match (holding.future.poll waker machine.events).progress with
        | .asks _ => []
        | .answered _ | .panicked _ =>
            under { machine with futures := machine.futures.erase name } name) = 0 := by
    rw [free]
    split <;> rfl
  have left := Wait.owners_perm id (waits_perm_of_get? found)
  rw [Wait.owners_append] at left
  simp only [pollFuture, found]
  omega

omit [Waker ω] in
theorem owners_resumed (response : Response σ) (choice : Nat) {name : ν} {holding : Holding σ}
    {waker : ω} {rest : List (Call ω σ ν)}
    (calls : machine.calls = .polling name holding waker :: rest) :
    Wait.owners id (machine.resume response choice).machine.waits +
        Wait.owners id (holding.future.settled
          (holding.future.resume response machine.events).future ++ machine.under name) =
      Wait.owners id machine.waits := by
  have resumed := holding.future.owners_resume id response machine.events
  have after := owners_afterPoll { machine with calls := rest } id name holding.event waker
    (holding.future.resume response machine.events)
  have left := Wait.owners_perm id (waits_perm_of_calls calls)
  have ended : Wait.owners id
      (match (holding.future.resume response machine.events).progress with
        | .asks _ => []
        | .answered _ | .panicked _ => under { machine with calls := rest } name) =
      Wait.owners id (machine.under name) := by
    cases progress : (holding.future.resume response machine.events).progress with
    | answered | panicked => rfl
    | asks signal => exact absurd progress (Future.resume_ne_asks response _ _ signal)
  rw [Wait.owners_append] at left ⊢
  rw [resume_polling calls]
  change _ = Wait.owners id holding.future.waits + _ at left
  omega

/-- A wait is live from the move that makes it to the move that drops it. -/
theorem owners_move (next : Move ω σ ν) :
    Wait.owners id (machine.move next).machine.waits + Wait.owners id (machine.dropped next) =
      Wait.owners id machine.waits + Wait.owners id next.made := by
  cases next with
  | perform choice action =>
      cases action with
      | makeWait name event hold =>
          exact owners_store { machine with events := (Wait.make machine.events event hold).2 } id
            name ⟨event, .plain { event, hold }⟩ _
      | drop name => exact machine.owners_drop id name
      | poll name waker =>
          cases found : machine.futures.get? name with
          | none => simp only [move, perform, pollFuture, dropped, found]; rfl
          | some holding =>
              simp only [dropped, found]
              exact machine.owners_pollFuture id name waker found
      | race name signal => exact machine.owners_race id name signal
      | makeEvent | setEvent | wake | makeRegistry | dropRegistry =>
          exact congrArg (Wait.owners id) (machine.perform_waits choice rfl)
      | add | update | remove | releaseAll | releaseOne | drain =>
          exact congrArg (Wait.owners id) (machine.perform_waits choice rfl)
  | resume response choice =>
      cases calls : machine.calls with
      | nil => simp only [move, resume, dropped, calls]; rfl
      | cons call rest =>
          cases polls : call.polls? with
          | some poll =>
              cases call with
              | polling name holding waker =>
                  simp only [dropped, calls]
                  exact machine.owners_resumed id response choice calls
              | setting | releasingAll | releasingOne | draining | waking => cases polls
          | none =>
              have same := machine.resume_waits response choice calls polls
              cases call with
              | polling => cases polls
              | setting | releasingAll | releasingOne | draining | waking =>
                  simp only [move, dropped, calls, same, Move.made]

/-! ## Handles are owners -/

/-- A race that is polled, whatever its signal does meanwhile, still has its wait afterwards unless
it has given its answer. -/
theorem Polling.settles {waker : ω} {wait : Wait} {signal : Future σ} {events : Events ω}
    {polled : Future.Polled σ ω}
    (polling : Polling ν waker (.race (some wait) signal) events polled) :
    (polled.progress = .answered .completed ∨ polled.progress = .answered .cancelled) ∧
        (∃ left, polled.future = .race none left) ∨
      (polled.progress = .answered .pending ∨ ∃ panic, polled.progress = .panicked panic) ∧
        ∃ now left, polled.future = .race (some now) left ∧ now.event = wait.event ∧
          now.hold = wait.hold := by
  cases flag : (events.get wait.event).isSet with
  | true =>
      obtain ⟨completed, settled, -⟩ := polling.race_of_set flag
      exact .inl ⟨.inl completed, signal, settled⟩
  | false =>
      obtain ⟨token, enrolment, enlisted, answered, -, -, concludes⟩ := polling.race_of_unset flag
      cases concludes with
      | pending answer kept =>
          subst kept
          exact .inr ⟨.inl answer, _, _, rfl, rfl, rfl⟩
      | panicked panic broken kept =>
          subst kept
          exact .inr ⟨.inr ⟨panic, broken⟩, _, _, rfl, rfl, rfl⟩
      | fired _ _ _ cancelled settled => exact .inl ⟨.inr cancelled, _, settled⟩

/-- In every state of every run an event has one handle for each live wait that owns it, and one
more. Each move adds those of the waits that it makes and takes away those of the waits that it
drops. Of races that are polled, those that give their answer drop their wait, whether they are
completed or cancelled, and no others. -/
theorem handles_count_owners {history : List (Occurrence ω)} {machine : Machine ω σ ν}
    (run : Run history machine) (id : EventId) :
    (machine.events.get id).handles = 1 + Wait.owners id machine.waits ∧
    (∀ next : Move ω σ ν,
      ((machine.move next).machine.events.get id).handles +
          Wait.owners id (machine.dropped next) =
        (machine.events.get id).handles + Wait.owners id next.made) ∧
    ∀ (waker : ω) (wait : Wait) (signal : Future σ) (events : Events ω)
      (polled : Future.Polled σ ω), Polling ν waker (.race (some wait) signal) events polled →
      (polled.progress = .answered .completed ∨ polled.progress = .answered .cancelled) ∧
          (∃ left, polled.future = .race none left) ∨
        (polled.progress = .answered .pending ∨ ∃ panic, polled.progress = .panicked panic) ∧
          ∃ now left, polled.future = .race (some now) left ∧ now.event = wait.event ∧
            now.hold = wait.hold := by
  refine ⟨run.shared id, ?_, fun waker wait signal events polled polling => polling.settles⟩
  intro next
  have before := run.shared id
  have after := (run.step next).shared id
  have moved := machine.owners_move id next
  omega

/-- A race of one wait against another is polled and pending; then the event of the second one is
being set. -/
def sharedMoves : List (Move Pool.TaskId Nat Nat) :=
  [.perform 0 (.makeWait 0 ⟨0⟩ .owned), .perform 0 (.makeWait 1 ⟨1⟩ .owned),
    .perform 0 (.makeWait 2 ⟨0⟩ .borrowed), .perform 0 (.race 0 (.future 1)),
    .perform 0 (.poll 0 ⟨4⟩), .perform 0 (.setEvent ⟨1⟩)]

/-- The waker polls the race, which is cancelled by that: the first event loses a handle, and the
second one, whose wait is completed but not dropped, does not. -/
theorem handles_count_owners_cancelled :
    ∃ polled : Future.Polled Nat Pool.TaskId,
      Polling Nat ⟨5⟩
        (.race (some ⟨⟨0⟩, .owned, some ⟨0⟩, false⟩) (.plain ⟨⟨1⟩, .owned, some ⟨0⟩, false⟩))
        (follow sharedMoves).2.events polled ∧
      polled.progress = .answered .cancelled ∧ (∃ left, polled.future = .race none left) ∧
      ((follow sharedMoves).2.events.get ⟨0⟩).handles = 2 ∧
      (((follow sharedMoves).2.perform 0 (.poll 0 ⟨5⟩)).machine.events.get ⟨0⟩).handles = 1 ∧
      (((follow sharedMoves).2.perform 0 (.poll 0 ⟨5⟩)).machine.events.get ⟨1⟩).handles = 2 := by
  have run := run_follow sharedMoves
  have polling : Polling Nat (⟨5⟩ : Pool.TaskId) _ _ _ := .atOnce run
    (show (follow sharedMoves).2.futures.get? 0 = some _ from rfl) 0 (fun _ asks => by cases asks)
    Future.self_comesTo
  obtain ⟨counts, moves, races⟩ := handles_count_owners run ⟨0⟩
  refine ⟨_, polling, rfl, ?_, counts, ?_, ?_⟩
  · exact ((races _ _ _ _ _ polling).resolve_right fun unanswered => by
      obtain ⟨answer | ⟨panic, broken⟩, -⟩ := unanswered
      · cases answer
      · cases broken).2
  · have moved := moves (.perform 0 (.poll 0 ⟨5⟩))
    rw [counts] at moved
    exact Nat.add_right_cancel moved
  · exact (handles_count_owners (run.step (.perform 0 (.poll 0 ⟨5⟩))) ⟨1⟩).1

end Machine

end Latch
