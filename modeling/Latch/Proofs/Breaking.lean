import Latch.Proofs.Accounts
import Latch.Proofs.Release

/-!
# Wakers that break off

If one of the wakers that a set event calls breaks off, the call that set the event breaks off for
the same reason, and so do the calls that set other events and whose wakers led to it. The waiters
that were still to be woken are given up. The event stays set and without waiters, and its waits
complete when they are polled; nothing else comes of it.
-/

set_option autoImplicit false

namespace Latch

variable {ω σ ν : Type}

/-! ## Waits on set events -/

/-- A wait has nothing more to do with its event: it completes when it is polled, and nobody notices
when it is dropped. -/
structure Wait.Released [Waker ω] (wait : Wait) (events : Events ω) : Prop where
  completes : ∀ waker, wait.poll waker events =
    { outcome := .ok true, wait := { wait with token := none, completed := true }, events,
      trace := [] }
  silent : (wait.drop events).trace = []
  whole : (wait.drop events).panic? = none
  kept : ∀ id, ((wait.drop events).events.get id).registry = (events.get id).registry

theorem Owned.released_of_set [Waker ω] {events : Events ω} {waits : List Wait}
    (owned : Owned events waits) {wait : Wait} (live : wait ∈ waits)
    (set : (events.get wait.event).isSet = true) : wait.Released events := by
  have first : Owned events (wait :: waits.erase wait) := owned.perm (List.perm_cons_erase live)
  obtain ⟨silent, kept⟩ := first.drop_of_set set
  exact ⟨Wait.poll_of_set set, silent, first.drop.1, kept⟩

namespace Machine

variable [Waker ω] [DecidableEq ν]

/-! ## Callbacks as parts of runs -/

section

variable {base above : List (Call ω σ ν)} {machine next after : Machine ω σ ν}
  {history trace told : List (Occurrence ω)}

theorem Within.trans (early : Within base machine trace next) (late : Within base next told after) :
    Within base machine (trace ++ told) after := by
  induction early with
  | refl => exact late
  | perform choice action _ ih =>
      rw [List.append_assoc]
      exact .perform choice action (ih late)
  | resume calls response choice _ ih =>
      rw [List.append_assoc]
      exact .resume calls response choice (ih late)

/-- What leaves some suspended calls alone leaves those below them alone. -/
theorem Within.weaken (within : Within (above ++ base) machine trace after) :
    Within base machine trace after := by
  induction within with
  | refl => exact .refl
  | perform choice action _ ih => exact .perform choice action ih
  | resume calls response choice _ ih =>
      rw [← List.append_assoc] at calls
      exact .resume calls response choice ih

theorem Within.run (within : Within base machine trace after) (run : Run history machine) :
    Run (history ++ trace) after := by
  induction within generalizing history with
  | refl =>
      rw [List.append_nil]
      exact run
  | perform choice action _ ih =>
      rw [← List.append_assoc]
      exact ih (run.step (.perform choice action))
  | resume calls response choice _ ih =>
      rw [← List.append_assoc]
      exact ih (run.step (.resume response choice))

end

/-! ## Calls that break off -/

/-- A call that began with the turn `start` has called some wakers. The last of them did what it
liked and then broke off; those before it came back. -/
inductive BreaksOff (start : Turn ω σ ν) (panic : Panic) :
    List ω → List (Occurrence ω) → Turn ω σ ν → Prop
  | breaks {called : List ω} {trace inner : List (Occurrence ω)} {turn : Turn ω σ ν} {waker : ω}
      {after : Machine ω σ ν} (advances : Advances start called trace turn)
      (wakes : turn.control = .wake waker)
      (within : Within turn.machine.calls turn.machine inner after)
      (returned : after.calls = turn.machine.calls) (choice : Nat) :
      BreaksOff start panic (called ++ [waker])
        (trace ++ (inner ++ (after.resume (.panicked panic) choice).trace))
        (after.resume (.panicked panic) choice)

/-- A call that set an event and broke off. -/
structure Breach (ω σ ν : Type) where
  before : Machine ω σ ν
  event : EventId
  choice : Nat
  called : List ω
  trace : List (Occurrence ω)
  after : Turn ω σ ν

namespace Breach

def Breaks (breach : Breach ω σ ν) (panic : Panic) : Prop :=
  BreaksOff (breach.before.perform breach.choice (.setEvent breach.event)) panic breach.called
    breach.trace breach.after

/-- What is left when a waker broke off while an event was being set. -/
structure Contained (breach : Breach ω σ ν) (panic : Panic) : Prop where
  propagates : breach.after.control = .panicked panic
  returns : breach.after.machine.calls = breach.before.calls
  unset : (breach.before.events.get breach.event).isSet = false
  /-- The wakers that were called are the first ones in some order of the waiters. -/
  called : ∃ order : List (Token × ω),
    order.Perm (breach.before.events.get breach.event).registry.entries ∧
      0 < breach.called.length ∧ breach.called.length ≤ order.length ∧
      breach.called = (order.take breach.called.length).map Prod.snd ∧
      breach.trace.filter (Occurrence.releases breach.event) =
        .releasingAll (some breach.event) order.length ::
          (order.take breach.called.length).map (wakeOf breach.event)
  announced : Occurrence.messages (breach.trace.filter (Occurrence.releases breach.event)) =
    ["releasing all waiters count=" ++
      toString (breach.before.events.get breach.event).registry.size]
  /-- The other waiters are never called, and nobody is told that the event is set. -/
  quiet : ∀ trace later, Within [] breach.after.machine trace later →
    ∀ occurrence ∈ trace, occurrence.releases breach.event = false
  stays : ∀ trace later, Within [] breach.after.machine trace later →
    later.events.state breach.event = ⟨true, 0⟩
  owned : ∀ trace later, Within [] breach.after.machine trace later →
    Owned later.events later.waits
  released : ∀ trace later, Within [] breach.after.machine trace later →
    ∀ wait ∈ later.waits, wait.event = breach.event → wait.Released later.events

end Breach

theorem Advances.of_done {start turn : Turn ω σ ν} {called : List ω} {trace : List (Occurrence ω)}
    (advances : Advances start called trace turn) {reply : Reply}
    (done : start.control = .done reply) : turn = start := by
  induction advances with
  | start => rfl
  | back _ wakes _ _ _ _ _ ih =>
      rw [ih, done] at wakes
      cases wakes

section

variable {history trace : List (Occurrence ω)} {called : List ω} {machine : Machine ω σ ν}
  {choice : Nat} {turn : Turn ω σ ν}

theorem Advances.run {action : Action ω σ ν}
    (advances : Advances (machine.perform choice action) called trace turn)
    (run : Run history machine) : Run (history ++ trace) turn.machine := by
  induction advances with
  | start => exact run.step (.perform choice action)
  | back _ _ within _ response _ choice ih =>
      rw [← List.append_assoc, ← List.append_assoc]
      exact (within.run ih).step (.resume response choice)

/-- A waker is called by a release that is in progress. -/
theorem Advances.waking {event : EventId}
    (advances : Advances (machine.perform choice (.setEvent event)) called trace turn)
    (run : Run history machine) {waker : ω} (wakes : turn.control = .wake waker) :
    (machine.events.get event).isSet = false ∧ (turn.machine.events.get event).isSet = true ∧
      ∃ before rest entry,
        (before ++ entry :: rest).Perm (machine.events.get event).registry.entries ∧
          called = before.map Prod.snd ∧ waker = entry.2 ∧
          turn.machine.calls =
            .setting event (machine.events.get event).registry.size rest :: machine.calls ∧
          trace.filter (Occurrence.releases event) =
            .releasingAll (some event) (machine.events.get event).registry.size ::
              (before ++ [entry]).map (wakeOf event) := by
  cases flag : (machine.events.get event).isSet with
  | true =>
      have idle : machine.perform choice (.setEvent event) = machine.idle :=
        setEvent_of_set flag choice
      rw [idle] at advances
      rw [advances.of_done rfl] at wakes
      cases wakes
  | false =>
      obtain ⟨-, set, releasing⟩ := Advances.releasing advances run.owned flag
      refine ⟨rfl, set, ?_⟩
      generalize turn.machine.calls = calls, turn.control = control at *
      cases releasing with
      | ended => cases wakes
      | waking before rest entry all names told =>
          cases wakes
          exact ⟨before, rest, entry, all, names, rfl, rfl, told⟩

/-- The calls that were in progress when the call was made stay so. -/
theorem Advances.within {event : EventId} {base above : List (Call ω σ ν)}
    (advances : Advances (machine.perform choice (.setEvent event)) called trace turn)
    (run : Run history machine) (calls : machine.calls = above ++ base) :
    Within base machine trace turn.machine := by
  induction advances with
  | start =>
      have first : Within base machine ((machine.perform choice (.setEvent event)).trace ++ []) _ :=
        .perform choice (.setEvent event) .refl
      rwa [List.append_nil] at first
  | @back called trace inner turn waker after advances wakes within returned response _ choice ih =>
      obtain ⟨-, -, before, rest, entry, -, -, -, suspended, -⟩ := advances.waking run wakes
      have stack : after.calls = .setting event (machine.events.get event).registry.size rest ::
          (above ++ base) := by
        rw [returned, suspended, calls]
      have last : Within base after ((after.resume response choice).trace ++ []) _ :=
        .resume stack response choice .refl
      rw [List.append_nil] at last
      rw [suspended, calls, ← List.cons_append] at within
      exact ih.trans (within.weaken.trans last)

theorem BreaksOff.within {event : EventId} {panic : Panic} {base above : List (Call ω σ ν)}
    (breaks : BreaksOff (machine.perform choice (.setEvent event)) panic called trace turn)
    (run : Run history machine) (calls : machine.calls = above ++ base) :
    Within base machine trace turn.machine := by
  cases breaks with
  | @breaks called trace inner turn waker after advances wakes within returned pick =>
      obtain ⟨-, -, -, rest, -, -, -, -, suspended, -⟩ := advances.waking run wakes
      have stack : after.calls = .setting event (machine.events.get event).registry.size rest ::
          (above ++ base) := by
        rw [returned, suspended, calls]
      have last : Within base after ((after.resume (.panicked panic) pick).trace ++ []) _ :=
        .resume stack (.panicked panic) pick .refl
      rw [List.append_nil] at last
      rw [suspended, calls, ← List.cons_append] at within
      exact (advances.within run calls).trans (within.weaken.trans last)

/-- The call breaks off with its waker. The wakers called are the first ones in some order, and the
event is set and not being set any more. -/
theorem BreaksOff.spec {event : EventId} {panic : Panic}
    (breaks : BreaksOff (machine.perform choice (.setEvent event)) panic called trace turn)
    (run : Run history machine) :
    turn.control = .panicked panic ∧ turn.machine.calls = machine.calls ∧
      (machine.events.get event).isSet = false ∧ Settled event [] turn.machine ∧
      ∃ before rest entry,
        (before ++ entry :: rest).Perm (machine.events.get event).registry.entries ∧
          called = (before ++ [entry]).map Prod.snd ∧
          trace.filter (Occurrence.releases event) =
            .releasingAll (some event) (machine.events.get event).registry.size ::
              (before ++ [entry]).map (wakeOf event) := by
  cases breaks with
  | @breaks called trace inner turn waker after advances wakes within returned pick =>
      obtain ⟨unset, set, before, rest, entry, all, names, last, suspended, told⟩ :=
        advances.waking run wakes
      have ran := advances.run run
      have settled : Settled event turn.machine.calls turn.machine :=
        ⟨ran.owned, set, [], rfl, by simp⟩
      obtain ⟨still, silent⟩ := within.settled settled
      have quiet : inner.filter (Occurrence.releases event) = [] :=
        List.filter_eq_nil_iff.mpr fun occurrence member =>
          Bool.eq_false_iff.mp (silent occurrence member)
      -- The event was unset before, so no call that was in progress then is setting it.
      have idle : machine.releases event = [] := by
        rcases run.accounted event with waiting | ⟨entries, called, left, handed⟩
        · exact waiting.idle
        · rw [handed.set] at unset
          cases unset
      have owned := ((within.run ran).step (.resume (.panicked panic) pick)).owned
      have turns := resume_of_setting_panicked (returned.trans suspended) panic pick
      simp only [move, turns] at owned
      rw [turns]
      refine ⟨rfl, rfl, unset, ⟨owned, still.set, machine.calls, ?_, sets?_ne_of_releases idle⟩,
        before, rest, entry, all, ?_, ?_⟩
      · rw [List.append_nil]
      · rw [names, last, List.map_append]
        rfl
      · rw [List.filter_append, List.filter_append, told, quiet]
        exact List.append_nil _

end

/-- What holds once a waker broke off while an event was being set holds for good: no release of the
event is in progress, and none begins. -/
theorem Breach.Breaks.contained {history : List (Occurrence ω)} {breach : Breach ω σ ν}
    {panic : Panic} (breaks : breach.Breaks panic) (run : Run history breach.before) :
    breach.Contained panic := by
  obtain ⟨propagates, returns, unset, settled, before, rest, entry, all, names, told⟩ :=
    BreaksOff.spec breaks run
  have size : breach.called.length = (before ++ [entry]).length := by
    rw [names, List.length_map]
  have split : before ++ entry :: rest = (before ++ [entry]) ++ rest := List.append_cons ..
  have first : (before ++ entry :: rest).take breach.called.length = before ++ [entry] := by
    rw [size, split, List.take_left]
  have count : (before ++ entry :: rest).length =
      (breach.before.events.get breach.event).registry.size := all.length_eq
  refine ⟨propagates, returns, unset, ⟨before ++ entry :: rest, all, ?_, ?_, ?_, ?_⟩, ?_, ?_, ?_,
    ?_, ?_⟩
  · rw [size, List.length_append]
    exact Nat.succ_pos _
  · rw [size, split]
    exact (List.prefix_append _ rest).length_le
  · rw [first, names]
  · rw [first, count, told]
  · have messages := messages_release breach.event
      (breach.before.events.get breach.event).registry.size (before ++ [entry]) []
    rw [List.append_nil] at messages
    rw [told, messages]
    rfl
  · intro trace later within
    exact (within.settled settled).2
  · intro trace later within
    exact (within.settled settled).1.state
  · intro trace later within
    exact (within.settled settled).1.owned
  · intro trace later within wait live here
    have still := (within.settled settled).1
    exact still.owned.released_of_set live (here ▸ still.set)

/-! ## Calls within calls -/

/-- A panic goes through calls that set events, the outermost one and those within it: a waker of
the innermost one broke off on its own account, and a waker of each other one broke off after the
next one had done so while it ran. -/
inductive Unwinds (panic : Panic) : Breach ω σ ν → List (Breach ω σ ν) → Prop
  | raised {breach : Breach ω σ ν} (breaks : breach.Breaks panic) : Unwinds panic breach []
  | through {breach : Breach ω σ ν} {inner : List (Breach ω σ ν)}
      (unwinds : Unwinds panic breach inner) {machine reached : Machine ω σ ν} {event : EventId}
      {choice : Nat} {called : List ω} {trace early late : List (Occurrence ω)}
      {turn : Turn ω σ ν} {waker : ω}
      (advances : Advances (machine.perform choice (.setEvent event)) called trace turn)
      (wakes : turn.control = .wake waker)
      (before : Within turn.machine.calls turn.machine early breach.before)
      (after : Within turn.machine.calls breach.after.machine late reached)
      (returned : reached.calls = turn.machine.calls) (pick : Nat) :
      Unwinds panic
        { before := machine, event, choice, called := called ++ [waker]
          trace := trace ++ (early ++ (breach.trace ++ late) ++
            (reached.resume (.panicked panic) pick).trace)
          after := reached.resume (.panicked panic) pick } (breach :: inner)

theorem Unwinds.breaks {panic : Panic} {outermost : Breach ω σ ν} {inner : List (Breach ω σ ν)}
    (unwinds : Unwinds panic outermost inner) {history : List (Occurrence ω)}
    (run : Run history outermost.before) :
    ∀ breach ∈ outermost :: inner, breach.Breaks panic ∧ ∃ history, Run history breach.before := by
  induction unwinds generalizing history with
  | raised breaks =>
      intro breach member
      rw [List.mem_singleton.mp member]
      exact ⟨breaks, history, run⟩
  | @through breach inner _ machine reached event choice called trace early late turn waker advances
      wakes before after returned pick ih =>
      have ran := advances.run run
      have all := ih (before.run ran)
      -- The enclosing event is set by now, so its call is still there when the inner one begins.
      obtain ⟨-, set, -⟩ := advances.waking run wakes
      have settled : Settled event turn.machine.calls turn.machine :=
        ⟨ran.owned, set, [], rfl, by simp⟩
      obtain ⟨above, calls, -⟩ := (before.settled settled).1.above
      have inside := BreaksOff.within (all breach List.mem_cons_self).1 (before.run ran) calls
      have outer : BreaksOff (machine.perform choice (.setEvent event)) panic _ _ _ :=
        .breaks advances wakes (before.trans (inside.trans after)) returned pick
      intro other member
      rcases List.mem_cons.mp member with rfl | member
      · exact ⟨outer, history, run⟩
      · exact all other member

/-- If a waker breaks off while an event is being set, the call breaks off for the same reason. The
wakers called by then are the first ones in some order of the waiters, each called once; the others
are never called, and nobody is told that the event is set. The event stays set without waiters, its
waits complete or go without notice, and all registrations are owned by live waits, unless tokens
repeat. The same holds of each call around it that the panic goes through. -/
theorem setEvent_contains_panics {history : List (Occurrence ω)} {panic : Panic}
    {outermost : Breach ω σ ν} {inner : List (Breach ω σ ν)}
    (run : Run history outermost.before) (unwinds : Unwinds panic outermost inner) :
    ∀ breach ∈ outermost :: inner, breach.Contained panic := by
  intro breach member
  obtain ⟨breaks, history, run⟩ := unwinds.breaks run breach member
  exact breaks.contained run

/-- Two waits on the first event, and three on the second. -/
def brittleMoves : List (Move Pool.TaskId Nat Nat) :=
  [.perform 0 (.makeWait 0 ⟨0⟩ .owned), .perform 0 (.makeWait 1 ⟨0⟩ .borrowed),
    .perform 0 (.makeWait 2 ⟨1⟩ .owned), .perform 0 (.makeWait 3 ⟨1⟩ .borrowed),
    .perform 0 (.makeWait 4 ⟨1⟩ .owned), .perform 0 (.poll 0 ⟨0⟩), .perform 0 (.poll 1 ⟨1⟩),
    .perform 0 (.poll 2 ⟨2⟩), .perform 0 (.poll 3 ⟨3⟩), .perform 0 (.poll 4 ⟨4⟩)]

/-- A waker of the first event sets the second one, whose first waker drops a wait that is still to
be woken and comes back; its second one breaks off. -/
theorem setEvent_contains_panics_nested :
    ∃ outermost inner : Breach Pool.TaskId Nat Nat,
      Unwinds (.raised "gone") outermost [inner] ∧
        outermost.before = (follow brittleMoves).2 ∧ outermost.event = ⟨0⟩ ∧
        outermost.called = [⟨1⟩] ∧ inner.event = ⟨1⟩ ∧ inner.called = [⟨3⟩, ⟨4⟩] ∧
        outermost.Contained (.raised "gone") ∧ inner.Contained (.raised "gone") := by
  have run := run_follow brittleMoves
  have outer : Advances ((follow brittleMoves).2.perform 1 (.setEvent ⟨0⟩)) [] _ _ := .start
  have first : Advances (Machine.perform (Turn.machine
      ((follow brittleMoves).2.perform 1 (.setEvent ⟨0⟩))) 1 (.setEvent ⟨1⟩)) [⟨3⟩] _ _ :=
    Advances.start.back rfl (.perform 0 (.drop 4) .refl) rfl .ready nofun 1
  have breaks : BreaksOff _ (.raised "gone") _ _ _ := .breaks first rfl .refl rfl 0
  have raised : Unwinds (.raised "gone") ⟨_, ⟨1⟩, 1, _, _, _⟩ [] := .raised breaks
  have unwinds := raised.through outer rfl .refl .refl rfl 0
  have contained := setEvent_contains_panics run unwinds
  exact ⟨_, _, unwinds, rfl, rfl, rfl, rfl, rfl, contained _ List.mem_cons_self,
    contained _ (List.mem_cons_of_mem _ List.mem_cons_self)⟩

end Machine

end Latch
