import Latch.Proofs.Completion
import Latch.Proofs.Enrolment

/-!
# Incidents

What the waits and races do to the events, one incident at a time. A registry is in use during an
incident only, never between two of them, and code that is not part of the library is called
between incidents. Each incident finds the events as it expects them: a wait is registered only
while its event is unset, and a token that it brings along is a member's, if tokens do not repeat
yet.
-/

set_option autoImplicit false

namespace Latch

variable {σ ω : Type}

namespace Registry

variable [Waker ω] {registry : Registry ω} {token? : Option Token}

theorem update_of_member {token : Token} (member : token ∈ registry.members.keys) (waker : ω) :
    (registry.update token waker).1 ≠ .absent := by
  rw [Ne, update_absent_iff, Bool.not_eq_false]
  exact Table.contains_iff.mpr member

theorem enrol_added_iff (members : ∀ token, token? = some token → token ∈ registry.members.keys)
    (waker : ω) : (registry.enrol token? waker).2.1 = .added ↔ token? = none := by
  cases token? with
  | none => exact iff_of_true rfl rfl
  | some token =>
      have found := update_of_member (members token rfl) waker
      refine iff_of_false ?_ nofun
      unfold enrol
      cases updated : registry.update token waker with
      | mk refresh after =>
          rw [updated] at found
          cases refresh with
          | absent => exact absurd rfl found
          | kept | replaced => simp [updated]

end Registry

theorem Owned.acquire {events : Events ω} {waits : List Wait} (owned : Owned events waits)
    (id : EventId) :
    (events.get id).waiters.acquire = .ok ⟨(events.get id).registry, true⟩ :=
  Guarded.acquire_eq_ok_iff.mpr ⟨owned.free id, rfl⟩

/-- One thing that is done to an event, one call of foreign code, or one thing that is told. -/
inductive Incident (ω σ : Type) where
  | create
  | hold (event : EventId)
  | letGo (event : EventId)
  | register (event : EventId) (token? : Option Token) (waker : ω)
  | deregister (event : EventId) (token : Token)
  | trip (event : EventId)
  /-- A race polls its signal. -/
  | poll (signal : Future σ)
  /-- An external signal is asked. -/
  | ask (signal : σ)
  | wake (waker : ω)
  | tell (occurrence : Occurrence ω)

namespace Incident

variable [Waker ω]

/-- The events after an incident, and what the trace tells of it. -/
def happen (events : Events ω) :
    Incident ω σ → Except Panic (Events ω × List (Occurrence ω))
  | create => .ok (events.create.2, [])
  | hold id => .ok (events.modify id Event.hold, [])
  | letGo id => .ok (events.modify id Event.letGo, [])
  | register id token? waker =>
      match (events.get id).register token? waker with
      | .error panic => .error panic
      | .ok (token, enrolment, event) =>
          .ok (events.put id event, [Wait.enrolled id token waker enrolment])
  | deregister id token =>
      match (events.get id).deregister token with
      | .error panic => .error panic
      | .ok (present, event) =>
          .ok (events.put id event, if present then [.withdrawn id token] else [])
  | trip id =>
      match (events.get id).trip with
      | (.error panic, _) => .error panic
      | (.ok _, event) => .ok (events.put id event, [])
  | poll _ | ask _ | wake _ => .ok (events, [])
  | tell occurrence => .ok (events, [occurrence])

/-- How an incident expects to find the events. Unless the event has handed out more tokens than
there are, the token of a wait that is registered once more is a member's, so that only a wait
without a token becomes a new member. Registrations are told of by the incidents that make and end
them, and by no other. -/
def Expects (events : Events ω) : Incident ω σ → Prop
  | register id token? waker =>
      (events.get id).isSet = false ∧
        ((events.get id).registry.issued ≤ Token.limit →
          (∀ token, token? = some token →
            ((events.get id).registry.update token waker).1 ≠ .absent) ∧
          (((events.get id).registry.enrol token? waker).2.1 = .added ↔ token? = none))
  | trip id => (events.get id).isSet = false
  | tell occurrence => ∀ id, occurrence.enrols id = false
  | create | hold _ | letGo _ | deregister .. | poll _ | ask _ | wake _ => True

end Incident

/-- Incidents lead from some events to others, and a trace tells of them. Each of them finds all
registries free and the events as it expects them, and none breaks off. -/
inductive Passes [Waker ω] :
    Events ω → List (Incident ω σ) → List (Occurrence ω) → Events ω → Prop
  | nothing {events : Events ω} : Passes events [] [] events
  | next {events after last : Events ω} {incident : Incident ω σ}
      {incidents : List (Incident ω σ)} {told trace : List (Occurrence ω)}
      (free : ∀ id, (events.get id).waiters.inUse = false) (expected : incident.Expects events)
      (happens : incident.happen events = .ok (after, told))
      (rest : Passes after incidents trace last) :
      Passes events (incident :: incidents) (told ++ trace) last

namespace Passes

variable [Waker ω] {events middle last : Events ω} {first second : List (Incident ω σ)}
  {before after : List (Occurrence ω)} {waits : List Wait}

theorem append (head : Passes events first before middle) (tail : Passes middle second after last) :
    Passes events (first ++ second) (before ++ after) last := by
  induction head with
  | nothing => exact tail
  | next free expected happens _ ih =>
      rw [List.append_assoc]
      exact .next free expected happens (ih tail)

theorem single (owned : Owned events waits) {incident : Incident ω σ}
    (expected : incident.Expects events) (happens : incident.happen events = .ok (last, after)) :
    Passes events [incident] after last := by
  rw [← List.append_nil after]
  exact .next owned.free expected happens .nothing

theorem telling (owned : Owned events waits)
    (apart : ∀ occurrence ∈ after, ∀ id, occurrence.enrols id = false) :
    Passes events (after.map (.tell : Occurrence ω → Incident ω σ)) after events := by
  induction after with
  | nil => exact .nothing
  | cons occurrence rest ih =>
      have quiet : Incident.Expects events (.tell occurrence : Incident ω σ) :=
        apart occurrence List.mem_cons_self
      have later := ih fun other member => apart other (List.mem_cons_of_mem _ member)
      exact (single owned quiet rfl).append later

end Passes

/-! ## Waits

What the functions on waits and futures come to, each under a name like that of the function. -/

namespace Wait

variable [Waker ω] {events : Events ω} {wait : Wait} {others : List Wait}

def polling (wait : Wait) (waker : ω) (events : Events ω) : List (Incident ω σ) :=
  if (events.get wait.event).isSet then [] else [.register wait.event wait.token waker]

def dropping (wait : Wait) : List (Incident ω σ) :=
  (wait.token.map (.deregister wait.event)).toList ++
    match wait.hold with
    | .borrowed => []
    | .owned => [.letGo wait.event]

theorem polling_passes (owned : Owned events (wait :: others)) (waker : ω) :
    Passes events (wait.polling waker events : List (Incident ω σ)) (wait.poll waker events).trace
      (wait.poll waker events).events := by
  cases flag : (events.get wait.event).isSet with
  | true =>
      rw [poll_of_set flag, polling, if_pos flag]
      exact .nothing
  | false =>
      obtain ⟨token, enrolment, registry, enrols, -⟩ := owned.enrols flag waker
      rw [poll_of_unset flag (owned.free _) waker enrols, polling, if_neg (by simp [flag])]
      refine .single owned ⟨flag, ?_⟩ ?_
      · intro few
        have members : ∀ own, wait.token = some own →
            own ∈ (events.get wait.event).registry.members.keys :=
          fun own holds => owned.member List.mem_cons_self holds flag few
        exact ⟨fun own holds => Registry.update_of_member (members own holds) waker,
          Registry.enrol_added_iff members waker⟩
      · simp only [Incident.happen, Event.register, flag, owned.acquire, enrols]
        rfl

theorem dropping_passes (owned : Owned events (wait :: others)) :
    Passes events (wait.dropping : List (Incident ω σ)) (wait.drop events).trace
      (wait.drop events).events := by
  have withdrawn : Passes events ((wait.token.map (.deregister wait.event)).toList :
      List (Incident ω σ)) (wait.withdraw events).trace (wait.withdraw events).events := by
    cases holds : wait.token with
    | none =>
        simp only [withdraw, holds]
        exact .nothing
    | some token =>
        rw [withdraw_of_free (owned.free _) holds]
        refine .single owned trivial ?_
        simp only [Incident.happen, Event.deregister, owned.acquire]
        rfl
  rw [trace_drop]
  unfold dropping drop
  cases wait.hold with
  | borrowed => simpa using withdrawn
  | owned =>
      have letsGo : Passes (wait.withdraw events).events [(.letGo wait.event : Incident ω σ)] []
          ((wait.withdraw events).events.modify wait.event Event.letGo) :=
        .single owned.withdraw.2 trivial rfl
      simpa using withdrawn.append letsGo

end Wait

/-! ## Futures -/

/-- The signal of a race is handled while the wait of the race is left alone. -/
theorem Owned.behind [Waker ω] {events next : Events ω} {wait : Wait}
    {waits left others : List Wait} {trace : List (Occurrence ω)}
    (owned : Owned events (wait :: (waits ++ others)))
    (handles : Handles events waits trace next left) : Owned next (wait :: (left ++ others)) := by
  have inner : Owned events (waits ++ (wait :: others)) := owned.perm List.perm_middle.symm
  exact (inner.handled (handles.append _)).perm List.perm_middle

namespace Future

variable [Waker ω]

def dropping (future : Future σ) : List (Incident ω σ) := future.waits.flatMap Wait.dropping

/-- A signal that has fired ends the wait of its race. -/
def concluding (wait : Wait) : Progress σ → List (Incident ω σ)
  | .answered .completed | .answered .cancelled => wait.dropping ++ [.tell (.cancelled wait.event)]
  | .answered .pending | .asks _ | .panicked _ => []

def polling (waker : ω) : Future σ → Events ω → List (Incident ω σ)
  | plain wait, events => wait.polling waker events
  | race none _, _ => []
  | race (some wait) signal, events =>
      let first := wait.poll waker events
      wait.polling waker events ++
        match first.outcome with
        | .error _ => []
        | .ok true => first.wait.dropping
        | .ok false =>
            .poll signal :: (signal.polling waker first.events ++
              concluding first.wait (signal.poll waker first.events).progress)
  | external signal, _ => [.ask signal]
  | ready, _ | never, _ => []

def resuming (response : Response σ) : Future σ → Events ω → List (Incident ω σ)
  | race (some wait) signal, events =>
      signal.resuming response events ++
        concluding wait (signal.resume response events).progress
  | race none _, _ | plain _, _ | ready, _ | never, _ | external _, _ => []

variable {events : Events ω} {future : Future σ} {others : List Wait}

theorem dropping_passes (owned : Owned events (future.waits ++ others)) :
    Passes events (future.dropping : List (Incident ω σ)) (future.drop events).trace
      (future.drop events).events := by
  unfold dropping
  induction future generalizing events others with
  | plain wait =>
      rw [waits, List.flatMap_singleton]
      exact wait.dropping_passes owned
  | race wait signal ih =>
      cases wait with
      | none => exact ih owned
      | some wait =>
          have whole : Owned events (wait :: (signal.waits ++ others)) := owned
          exact (Wait.dropping_passes whole).append (ih whole.drop.2)
  | ready | never | external => exact .nothing

theorem settle_passes {wait : Wait} (owned : Owned events (wait :: others)) (signal : Future σ)
    (answer : Answer) (note : List (Occurrence ω))
    (apart : ∀ occurrence ∈ note, ∀ id, occurrence.enrols id = false) :
    Passes events (wait.dropping ++ note.map .tell : List (Incident ω σ))
      (settle wait signal answer note events).trace
      (settle wait signal answer note events).events := by
  rw [settle_of_owned owned]
  exact (Wait.dropping_passes owned).append (.telling owned.drop.2 apart)

theorem conclude_passes {wait : Wait} {polled : Polled σ ω} {incidents : List (Incident ω σ)}
    (owned : Owned polled.events (wait :: others))
    (passes : Passes events incidents polled.trace polled.events) :
    Passes events (incidents ++ concluding wait polled.progress) (conclude wait polled).trace
      (conclude wait polled).events := by
  have settles := settle_passes owned polled.future .cancelled [.cancelled wait.event]
    (by simp [Occurrence.enrols])
  unfold conclude
  cases progress : polled.progress with
  | asks | panicked =>
      rw [concluding, List.append_nil]
      exact passes
  | answered answer =>
      cases answer with
      | pending =>
          rw [concluding, List.append_nil]
          exact passes
      | completed | cancelled =>
          exact passes.append settles

theorem polling_passes (owned : Owned events (future.waits ++ others)) (waker : ω) :
    Passes events (future.polling waker events) (future.poll waker events).trace
      (future.poll waker events).events := by
  -- The wait of a race stands among the others while its signal is polled.
  induction future generalizing events others with
  | plain wait => exact wait.polling_passes owned waker
  | race wait signal ih =>
      cases wait with
      | none => exact .nothing
      | some wait =>
          have whole : Owned events (wait :: (signal.waits ++ others)) := owned
          have first := Wait.polling_passes (σ := σ) whole waker
          have after := whole.poll waker
          simp only [poll, polling]
          cases outcome : (wait.poll waker events).outcome with
          | error panic =>
              simp only [List.append_nil]
              exact first
          | ok ready =>
              cases ready with
              | true =>
                  have settles := settle_passes after signal .completed [] (by simp)
                  rw [List.map_nil, List.append_nil] at settles
                  exact first.append settles
              | false =>
                  have ended := after.behind (signal.poll_handles waker _)
                  have inner := ih (after.perm List.perm_middle.symm)
                  have asked : Passes (wait.poll waker events).events
                      [(.poll signal : Incident ω σ)] [] (wait.poll waker events).events :=
                    .single after trivial rfl
                  exact first.append (asked.append (conclude_passes ended inner))
  | ready | never => exact .nothing
  | external signal => exact .single owned trivial rfl

theorem resuming_passes (owned : Owned events (future.waits ++ others)) (response : Response σ) :
    Passes events (future.resuming response events : List (Incident ω σ))
      (future.resume response events).trace (future.resume response events).events := by
  induction future generalizing events others with
  | plain | ready | never => exact .nothing
  | race wait signal ih =>
      cases wait with
      | none => exact .nothing
      | some wait =>
          have whole : Owned events (wait :: (signal.waits ++ others)) := owned
          have ended := whole.behind (signal.resume_handles response events)
          exact conclude_passes ended (ih (whole.perm List.perm_middle.symm))
  | external => cases response <;> exact .nothing

/-! ## How polls end -/

/-- A poll breaks off only if a race in the future was settled before. -/
theorem poll_panicked {waker : ω} {panic : Panic} (owned : Owned events (future.waits ++ others))
    (broken : (future.poll waker events).progress = .panicked panic) :
    panic = .polledAfterCompletion := by
  induction future generalizing events others with
  | plain wait =>
      cases flag : (events.get wait.event).isSet with
      | true =>
          rw [poll_plain_of_set flag] at broken
          cases broken
      | false =>
          obtain ⟨token, enrolment, enlisted, -, pending⟩ :=
            poll_plain_of_unset (σ := σ) owned flag waker
          rw [pending] at broken
          cases broken
  | race wait signal ih =>
      cases wait with
      | none =>
          cases broken
          rfl
      | some wait =>
          have whole : Owned events (wait :: (signal.waits ++ others)) := owned
          cases flag : (events.get wait.event).isSet with
          | true =>
              have completed := (poll_race_of_set whole flag waker signal).1
              cases completed.symm.trans broken
          | false =>
              obtain ⟨token, enrolment, enlisted, first, polled⟩ :=
                poll_race_of_unset whole flag waker signal
              have after := whole.poll waker
              rw [first] at after
              rw [polled] at broken
              have ended := after.behind (signal.poll_handles waker enlisted)
              exact ih (after.perm List.perm_middle.symm) ((conclude_ends ended).panicked broken)
  | ready | never | external => cases broken

/-- Going on with a poll breaks off only if the signal did. -/
theorem resume_panicked {response : Response σ} {panic : Panic}
    (owned : Owned events (future.waits ++ others))
    (broken : (future.resume response events).progress = .panicked panic) :
    response = .panicked panic := by
  induction future generalizing events others with
  | plain | ready | never => cases broken
  | race wait signal ih =>
      cases wait with
      | none => cases broken
      | some wait =>
          have whole : Owned events (wait :: (signal.waits ++ others)) := owned
          have ended := whole.behind (signal.resume_handles response events)
          exact ih (whole.perm List.perm_middle.symm) ((conclude_ends ended).panicked broken)
  | external =>
      cases response <;> cases broken
      rfl

/-- A poll that asks for an external signal does nothing after it has asked. -/
theorem polling_of_asks {waker : ω} {signal : σ}
    (asks : (future.poll waker events).progress = .asks signal) :
    ∃ before, future.polling waker events = before ++ [.ask signal] := by
  induction future generalizing events with
  | plain wait =>
      simp only [poll] at asks
      split at asks <;> cases asks
  | race wait inner ih =>
      cases wait with
      | none => cases asks
      | some wait =>
          simp only [poll, polling] at asks ⊢
          cases outcome : (wait.poll waker events).outcome with
          | error => simp only [outcome] at asks; cases asks
          | ok ready =>
              cases ready with
              | true =>
                  simp only [outcome] at asks
                  exact absurd asks settle_ne_asks
              | false =>
                  simp only [outcome] at asks
                  have innerAsks := conclude_asks.mp asks
                  obtain ⟨before, same⟩ := ih innerAsks
                  refine ⟨wait.polling waker events ++ .poll inner :: before, ?_⟩
                  simp [same, innerAsks, concluding]
  | ready | never => cases asks
  | external own =>
      cases asks
      exact ⟨[], rfl⟩

end Future

end Latch
