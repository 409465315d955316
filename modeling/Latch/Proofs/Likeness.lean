import Latch.Proofs.Renumbering

/-!
# Futures beside a hidden wait

What is done with a future comes to the same in two runs that differ in one wait, registered in one
of them and missing in the other: the same answers, the same future and the same occurrences, with
the tokens renumbered, as long as those of the wait's event do not repeat.
-/

set_option autoImplicit false

namespace Latch

variable {ω σ ν : Type}

/-- A wait on the event is in one run and not in the other; its token is the hidden one, once it has
one. -/
structure Gap where
  event : EventId
  hidden : Option Token := none

namespace Gap

variable (gap : Gap)

/-- How the other run numbers a token of an event. -/
def renumber (event : EventId) (token : Token) : Token :=
  if event = gap.event then token.skip gap.hidden else token

theorem renumber_here {event : EventId} (here : event = gap.event) :
    gap.renumber event = Token.skip gap.hidden :=
  funext fun _ => if_pos here

theorem renumber_there {event : EventId} (there : event ≠ gap.event) : gap.renumber event = id :=
  funext fun _ => if_neg there

/-- A wait that does not hold the hidden token. -/
def Clear (wait : Wait) : Prop :=
  wait.event = gap.event → ∀ token, wait.token = some token → gap.hidden ≠ some token

end Gap

def Wait.renumber (gap : Gap) (wait : Wait) : Wait :=
  { wait with token := wait.token.map (gap.renumber wait.event) }

def Future.renumber (gap : Gap) : Future σ → Future σ
  | plain wait => plain (wait.renumber gap)
  | race wait signal => race (wait.map (Wait.renumber gap)) (signal.renumber gap)
  | ready => ready
  | never => never
  | external signal => external signal

def Occurrence.renumber (gap : Gap) : Occurrence ω → Occurrence ω
  | .registered event token waker => .registered event (gap.renumber event token) waker
  | .refreshed event token waker replaced =>
      .refreshed event (gap.renumber event token) waker replaced
  | .withdrawn event token => .withdrawn event (gap.renumber event token)
  | .woken (some event) token waker => .woken (some event) (gap.renumber event token) waker
  | .woken none token waker => .woken none token waker
  | .exchanged token waker => .exchanged token waker
  | .cancelled event => .cancelled event
  | .releasingAll event? count => .releasingAll event? count
  | .releasingOne token => .releasingOne token
  | .eventSet event released => .eventSet event released

theorem Event.statistics_of_free {event : Event ω} (free : event.waiters.inUse = false) :
    event.statistics = .ok ⟨event.registry.size⟩ := by
  have read : event.waiters.read = .ok event.registry := Guarded.read_eq_ok_iff.mpr ⟨free, rfl⟩
  simp only [statistics, read]

/-- Two runs' events: the same, but for the hidden member of one registry. -/
structure Events.Alike (gap : Gap) (events other : Events ω) : Prop where
  next : other.next = events.next
  flags : ∀ id, (other.get id).isSet = (events.get id).isSet
  free : ∀ id, (events.get id).waiters.inUse = false
  otherFree : ∀ id, (other.get id).waiters.inUse = false
  elsewhere : ∀ id, id ≠ gap.event → (other.get id).registry = (events.get id).registry
  hides : Registry.Hides gap.hidden (!(events.get gap.event).isSet)
    (events.get gap.event).registry (other.get gap.event).registry

namespace Events.Alike

variable {gap : Gap} {events other next otherNext : Events ω}

theorem contains_eq (alike : events.Alike gap other) {id : EventId} {token : Token}
    (clear : id = gap.event → gap.hidden ≠ some token) :
    (other.get id).registry.contains (gap.renumber id token) =
      (events.get id).registry.contains token := by
  unfold Gap.renumber
  split
  · next here =>
      subst here
      exact alike.hides.contains_eq (clear rfl)
  · next there => rw [alike.elsewhere id there]

theorem size_of_not_mem (alike : events.Alike gap other) {id : EventId}
    (absent : id = gap.event → ∀ token, gap.hidden = some token →
      token ∉ (events.get id).registry.members.keys) :
    (other.get id).registry.size = (events.get id).registry.size := by
  by_cases here : id = gap.event
  · subst here
    exact alike.hides.size_of_not_mem (absent rfl)
  · rw [alike.elsewhere id here]

/-- The registries of an event may change in the same way. -/
theorem put (alike : events.Alike gap other) {id : EventId} {registry otherRegistry : Registry ω}
    (elsewhere : id ≠ gap.event → otherRegistry = registry)
    (here : id = gap.event → Registry.Hides gap.hidden (!(events.get gap.event).isSet)
      registry otherRegistry) :
    (events.put id { events.get id with waiters := ⟨registry, false⟩ }).Alike gap
      (other.put id { other.get id with waiters := ⟨otherRegistry, false⟩ }) := by
  have flags := alike.flags
  constructor
  · exact alike.next
  · intro there
    rw [get_put, get_put]
    split
    · exact flags id
    · exact flags there
  · intro there
    rw [get_put]
    split
    · rfl
    · exact alike.free there
  · intro there
    rw [get_put]
    split
    · rfl
    · exact alike.otherFree there
  · intro there different
    rw [get_put, get_put]
    split
    · next same =>
        subst same
        exact elsewhere different
    · exact alike.elsewhere there different
  · rw [get_put, get_put]
    split
    · next same =>
        subst same
        exact here rfl
    · exact alike.hides

/-- Once an event is set its hidden member is gone, too. -/
theorem trip (alike : events.Alike gap other) (id : EventId) :
    (events.put id (events.get id).tripped).Alike gap (other.put id (other.get id).tripped) := by
  constructor
  · exact alike.next
  · intro there
    rw [get_put, get_put]
    split
    · rfl
    · exact alike.flags there
  · intro there
    rw [get_put]
    split
    · rfl
    · exact alike.free there
  · intro there
    rw [get_put]
    split
    · rfl
    · exact alike.otherFree there
  · intro there different
    rw [get_put, get_put]
    split
    · rfl
    · exact alike.elsewhere there different
  · rw [get_put, get_put]
    split
    · exact ⟨rfl, nofun, nofun⟩
    · exact alike.hides

/-- What is done with the hidden member changes one of the registries only. -/
theorem hide (alike : events.Alike gap other) {hidden : Option Token} {registry : Registry ω}
    (hides : Registry.Hides hidden (!(events.get gap.event).isSet) registry
      (other.get gap.event).registry) :
    (events.put gap.event
      { events.get gap.event with waiters := ⟨registry, false⟩ }).Alike ⟨gap.event, hidden⟩
        other := by
  constructor
  · exact alike.next
  · intro there
    rw [get_put]
    split
    · next same => rw [same, alike.flags]
    · exact alike.flags there
  · intro there
    rw [get_put]
    split
    · rfl
    · exact alike.free there
  · exact alike.otherFree
  · intro there different
    rw [get_put, if_neg different]
    exact alike.elsewhere there different
  · rw [get_put, if_pos rfl]
    exact hides

theorem of_same (alike : events.Alike gap other) (unmade : next.next = events.next)
    (flags : ∀ id, (next.get id).isSet = (events.get id).isSet)
    (waiters : ∀ id, (next.get id).waiters = (events.get id).waiters) : next.Alike gap other := by
  constructor
  · exact alike.next.trans unmade.symm
  · intro id
    rw [flags]
    exact alike.flags id
  · intro id
    rw [waiters]
    exact alike.free id
  · exact alike.otherFree
  · intro id different
    have same := alike.elsewhere id different
    rw [Event.registry, Event.registry, ← waiters id] at same
    exact same
  · have hides := alike.hides
    rw [Event.registry, ← waiters gap.event, ← flags gap.event] at hides
    exact hides

theorem of_otherSame (alike : events.Alike gap other) (unmade : otherNext.next = other.next)
    (flags : ∀ id, (otherNext.get id).isSet = (other.get id).isSet)
    (waiters : ∀ id, (otherNext.get id).waiters = (other.get id).waiters) :
    events.Alike gap otherNext := by
  constructor
  · exact unmade.trans alike.next
  · intro id
    rw [flags]
    exact alike.flags id
  · exact alike.free
  · intro id
    rw [waiters]
    exact alike.otherFree id
  · intro id different
    have same := alike.elsewhere id different
    rw [Event.registry, ← waiters id] at same
    exact same
  · have hides := alike.hides
    simp only [Event.registry, ← waiters gap.event] at hides
    exact hides

theorem modify (alike : events.Alike gap other) (id : EventId) {change : Event ω → Event ω}
    (flag : ∀ event, (change event).isSet = event.isSet)
    (waiters : ∀ event, (change event).waiters = event.waiters) :
    (events.modify id change).Alike gap (other.modify id change) := by
  have first : (events.modify id change).Alike gap other :=
    alike.of_same rfl (events.isSet_modify id change flag) (events.waiters_modify id change waiters)
  exact first.of_otherSame rfl (other.isSet_modify id change flag)
    (other.waiters_modify id change waiters)

end Events.Alike

/-! ## Waits -/

structure Wait.Polled.Alike (gap : Gap) (polled other : Polled ω) : Prop where
  outcome : other.outcome = polled.outcome
  wait : other.wait = polled.wait.renumber gap
  clear : gap.Clear polled.wait
  events : polled.events.Alike gap other.events
  trace : other.trace = polled.trace.map (Occurrence.renumber gap)

structure Dropped.Alike (gap : Gap) (dropped other : Dropped ω) : Prop where
  events : dropped.events.Alike gap other.events
  trace : other.trace = dropped.trace.map (Occurrence.renumber gap)
  panic? : other.panic? = dropped.panic?

namespace Wait

variable {gap : Gap} {events other : Events ω} {wait : Wait}

theorem enrolled_renumber (event : EventId) (token : Token) (waker : ω) (enrolment : Enrolment) :
    (enrolled event token waker enrolment).renumber gap =
      enrolled event (gap.renumber event token) waker enrolment := by
  cases enrolment <;> rfl

theorem make_alike (alike : events.Alike gap other) (event : EventId) (hold : Hold) :
    (make other event hold).1 = (make events event hold).1.renumber gap ∧
      gap.Clear (make events event hold).1 ∧
      (make events event hold).2.Alike gap (make other event hold).2 := by
  refine ⟨rfl, fun _ => nofun, ?_⟩
  cases hold with
  | borrowed => exact alike
  | owned => exact alike.modify event (fun _ => rfl) fun _ => rfl

theorem poll_alike [Waker ω] (alike : events.Alike gap other) (clear : gap.Clear wait)
    (waker : ω)
    (few : ((wait.poll waker events).events.get gap.event).registry.issued ≤ Token.limit) :
    (wait.poll waker events).Alike gap ((wait.renumber gap).poll waker other) := by
  have flag : (other.get (wait.renumber gap).event).isSet = (events.get wait.event).isSet :=
    alike.flags wait.event
  cases set : (events.get wait.event).isSet with
  | true =>
      rw [set] at flag
      rw [poll_of_set set, poll_of_set flag]
      exact ⟨rfl, rfl, fun _ => nofun, alike, rfl⟩
  | false =>
      rw [set] at flag
      cases enrols : (events.get wait.event).registry.enrol wait.token waker with
      | mk token rest =>
          obtain ⟨enrolment, registry⟩ := rest
          rw [poll_of_unset set (alike.free _) waker enrols] at few ⊢
          -- Beside the hidden wait a token may be renumbered; elsewhere the registries are equal.
          by_cases here : wait.event = gap.event
          · have hides := alike.hides
            rw [← here, set] at hides
            rw [← here, Events.get_put_self] at few
            obtain ⟨shown, next, moves, after⟩ := hides.enrol (clear here) enrols few
            have moved : (wait.renumber gap).token = wait.token.map (Token.skip gap.hidden) := by
              rw [renumber, gap.renumber_here here]
            rw [← moved] at moves
            rw [poll_of_unset flag (alike.otherFree _) waker moves]
            refine ⟨rfl, ?_, ?_, alike.put (absurd here) ?_, ?_⟩
            · rw [renumber, renumber, gap.renumber_here here]
              rfl
            · intro _ own same
              cases same
              exact shown
            · intro _
              rw [← here, set]
              exact after
            · rw [List.map_singleton, enrolled_renumber, gap.renumber_here here]
              rfl
          · have kept : (wait.renumber gap).token = wait.token := by
              rw [renumber, gap.renumber_there here, Option.map_id]
              rfl
            have moves : (other.get (wait.renumber gap).event).registry.enrol
                (wait.renumber gap).token waker = (token, enrolment, registry) := by
              rw [kept]
              exact (alike.elsewhere wait.event here) ▸ enrols
            rw [poll_of_unset flag (alike.otherFree _) waker moves]
            refine ⟨rfl, ?_, fun same => absurd same here, alike.put (fun _ => rfl) (absurd · here),
              ?_⟩
            · rw [renumber, renumber, gap.renumber_there here]
              rfl
            · rw [List.map_singleton, enrolled_renumber, gap.renumber_there here]
              rfl

theorem withdraw_alike (alike : events.Alike gap other) (clear : gap.Clear wait) :
    (wait.withdraw events).Alike gap ((wait.renumber gap).withdraw other) := by
  cases holds : wait.token with
  | none =>
      have moved : (wait.renumber gap).token = none := by
        simp only [renumber, holds, Option.map_none]
      simp only [withdraw, holds, moved]
      exact ⟨alike, rfl, rfl⟩
  | some token =>
      have moved : (wait.renumber gap).token = some (gap.renumber wait.event token) := by
        simp only [renumber, holds, Option.map_some]
      have shown : wait.event = gap.event → gap.hidden ≠ some token :=
        fun here => clear here token holds
      rw [withdraw_of_free (alike.free _) holds, withdraw_of_free (alike.otherFree _) moved]
      refine ⟨alike.put ?_ ?_, ?_, rfl⟩
      · intro there
        rw [Gap.renumber, if_neg there]
        exact congrArg (Registry.remove · token) (alike.elsewhere _ there)
      · intro here
        rw [Gap.renumber, if_pos here]
        have hides := alike.hides
        rw [← here] at hides ⊢
        exact hides.remove (shown here)
      · have same : (other.get (wait.renumber gap).event).registry.contains
            (gap.renumber wait.event token) = (events.get wait.event).registry.contains token :=
          alike.contains_eq shown
        rw [same]
        split <;> rfl

theorem drop_alike (alike : events.Alike gap other) (clear : gap.Clear wait) :
    (wait.drop events).Alike gap ((wait.renumber gap).drop other) := by
  have withdrawn := withdraw_alike alike clear
  cases hold : wait.hold with
  | borrowed =>
      have same : (wait.renumber gap).hold = .borrowed := hold
      simp only [drop, hold, same]
      exact withdrawn
  | owned =>
      have same : (wait.renumber gap).hold = .owned := hold
      simp only [drop, hold, same]
      exact ⟨withdrawn.events.modify wait.event (fun _ => rfl) fun _ => rfl, withdrawn.trace,
        withdrawn.panic?⟩

end Wait

/-! ## Futures -/

namespace Future

/-- Nothing changes for a future whose tokens come before the hidden one. -/
theorem renumber_eq (gap : Gap) {future : Future σ}
    (early : ∀ wait ∈ future.waits, wait.event = gap.event → ∀ token, wait.token = some token →
      token.skip gap.hidden = token) : future.renumber gap = future := by
  have kept : ∀ wait : Wait, (wait.event = gap.event → ∀ token, wait.token = some token →
      token.skip gap.hidden = token) → wait.renumber gap = wait := by
    intro wait before
    obtain ⟨event, hold, token, completed⟩ := wait
    cases token with
    | none => rfl
    | some token =>
        unfold Wait.renumber
        by_cases here : event = gap.event
        · rw [gap.renumber_here here, Option.map_some, before here token rfl]
        · rw [gap.renumber_there here]
          rfl
  induction future with
  | plain wait => rw [renumber, kept wait (early wait List.mem_cons_self)]
  | race wait signal ih =>
      cases wait with
      | none => rw [renumber, ih early, Option.map_none]
      | some wait =>
          rw [renumber, ih fun inner member => early inner (List.mem_cons_of_mem _ member),
            Option.map_some, kept wait (early wait List.mem_cons_self)]
  | ready | never | external => rfl

theorem isRegistered?_renumber (gap : Gap) (future : Future σ) :
    (future.renumber gap).isRegistered? = future.isRegistered? := by
  cases future with
  | plain wait =>
      simp only [renumber, isRegistered?, Wait.isRegistered, Wait.renumber, Option.isSome_map]
  | race | ready | never | external => rfl

theorem isTerminated_renumber (gap : Gap) (future : Future σ) :
    (future.renumber gap).isTerminated = future.isTerminated := by
  cases future with
  | race wait signal => cases wait <;> rfl
  | plain | ready | never | external => rfl

structure Polled.Alike (gap : Gap) (polled other : Polled σ ω) : Prop where
  progress : other.progress = polled.progress
  future : other.future = polled.future.renumber gap
  clear : ∀ wait ∈ polled.future.waits, gap.Clear wait
  events : polled.events.Alike gap other.events
  trace : other.trace = polled.trace.map (Occurrence.renumber gap)

variable {gap : Gap} {events other : Events ω}

theorem Polled.Alike.after {polled otherPolled : Polled σ ω} (alike : polled.Alike gap otherPolled)
    {before otherBefore : List (Occurrence ω)}
    (first : otherBefore = before.map (Occurrence.renumber gap)) :
    Polled.Alike gap { polled with trace := before ++ polled.trace }
      { otherPolled with trace := otherBefore ++ otherPolled.trace } where
  progress := alike.progress
  future := alike.future
  clear := alike.clear
  events := alike.events
  trace := by rw [first, alike.trace, List.map_append]

theorem settle_alike {wait : Wait} {signal : Future σ} (alike : events.Alike gap other)
    (clear : gap.Clear wait) (clears : ∀ inner ∈ signal.waits, gap.Clear inner) (answer : Answer)
    {note otherNote : List (Occurrence ω)}
    (noted : otherNote = note.map (Occurrence.renumber gap)) :
    (settle wait signal answer note events).Alike gap
      (settle (wait.renumber gap) (signal.renumber gap) answer otherNote other) := by
  have dropped := Wait.drop_alike alike clear
  unfold settle
  simp only [dropped.panic?]
  split
  · exact ⟨rfl, rfl, clears, dropped.events, dropped.trace⟩
  · refine ⟨rfl, rfl, clears, dropped.events, ?_⟩
    rw [dropped.trace, noted, List.map_append]

theorem conclude_alike {wait : Wait} {polled otherPolled : Polled σ ω} (clear : gap.Clear wait)
    (alike : polled.Alike gap otherPolled) :
    (conclude wait polled).Alike gap (conclude (wait.renumber gap) otherPolled) := by
  have kept : Polled.Alike gap { polled with future := race (some wait) polled.future }
      { otherPolled with future := race (some (wait.renumber gap)) otherPolled.future } := by
    refine ⟨alike.progress, ?_, ?_, alike.events, alike.trace⟩
    · rw [alike.future]
      rfl
    · intro inner member
      rcases List.mem_cons.mp member with rfl | member
      · exact clear
      · exact alike.clear inner member
  have noted : [Occurrence.cancelled (ω := ω) wait.event] =
      [.cancelled wait.event].map (Occurrence.renumber gap) := rfl
  have settled := settle_alike alike.events clear alike.clear .cancelled noted
  rw [← alike.future] at settled
  have same := alike.progress
  cases reached : polled.progress with
  | asks | panicked =>
      rw [reached] at same
      simpa only [conclude, reached, same] using kept
  | answered answer =>
      rw [reached] at same
      cases answer with
      | pending =>
          simpa only [conclude, reached, same] using kept
      | completed | cancelled =>
          simp only [conclude, reached, same]
          exact settled.after alike.trace

theorem drop_alike {future : Future σ} (alike : events.Alike gap other)
    (clears : ∀ wait ∈ future.waits, gap.Clear wait) :
    (future.drop events).Alike gap ((future.renumber gap).drop other) := by
  induction future generalizing events other with
  | plain wait => exact Wait.drop_alike alike (clears wait List.mem_cons_self)
  | race wait signal ih =>
      cases wait with
      | none => exact ih alike clears
      | some wait =>
          have first := Wait.drop_alike alike (clears wait List.mem_cons_self)
          have second := ih first.events fun inner member =>
            clears inner (List.mem_cons_of_mem _ member)
          refine ⟨second.events, ?_, ?_⟩
          · simp only [drop, renumber, Option.map_some, first.trace, second.trace, List.map_append]
          · simp only [drop, renumber, Option.map_some, first.panic?, second.panic?]
  | ready | never | external => exact ⟨alike, rfl, rfl⟩

theorem resume_alike {response : Response σ} {future : Future σ} (alike : events.Alike gap other)
    (clears : ∀ wait ∈ future.waits, gap.Clear wait) :
    (future.resume response events).Alike gap ((future.renumber gap).resume response other) := by
  induction future generalizing events other with
  | plain | ready | never => exact ⟨rfl, rfl, clears, alike, rfl⟩
  | race wait signal ih =>
      cases wait with
      | none => exact ⟨rfl, rfl, clears, alike, rfl⟩
      | some wait =>
          exact conclude_alike (clears wait List.mem_cons_self)
            (ih alike fun inner member => clears inner (List.mem_cons_of_mem _ member))
  | external => cases response <;> exact ⟨rfl, rfl, nofun, alike, rfl⟩

theorem poll_alike [Waker ω] {waker : ω} {future : Future σ} (alike : events.Alike gap other)
    (clears : ∀ wait ∈ future.waits, gap.Clear wait)
    (few : ((future.poll waker events).events.get gap.event).registry.issued ≤ Token.limit) :
    (future.poll waker events).Alike gap ((future.renumber gap).poll waker other) := by
  induction future generalizing events other with
  | plain wait =>
      have polled := Wait.poll_alike alike (clears wait List.mem_cons_self) waker few
      refine ⟨?_, ?_, ?_, polled.events, polled.trace⟩
      · simp only [poll, renumber, polled.outcome]
      · simp only [poll, renumber, polled.wait]
      · intro inner member
        rw [List.mem_singleton.mp member]
        exact polled.clear
  | race wait signal ih =>
      cases wait with
      | none => exact ⟨rfl, rfl, clears, alike, rfl⟩
      | some wait =>
          have registers :
              ((wait.poll waker events).events.get gap.event).registry.issued ≤ Token.limit := by
            refine Nat.le_trans ?_ few
            simp only [poll]
            split
            · exact Nat.le_refl _
            · exact Nat.le_of_eq (issued_settle _ _ _ _ _ _).symm
            · rw [issued_conclude]
              exact (signal.poll_handles waker _).issued_le gap.event
          have first := Wait.poll_alike alike (clears wait List.mem_cons_self) waker registers
          have inner : ∀ inner ∈ signal.waits, gap.Clear inner :=
            fun inner member => clears inner (List.mem_cons_of_mem _ member)
          simp only [poll] at few
          simp only [poll, renumber, Option.map_some, first.outcome]
          split
          · refine ⟨rfl, ?_, ?_, first.events, first.trace⟩
            · simp only [renumber, Option.map_some, first.wait]
            · intro other member
              rcases List.mem_cons.mp member with rfl | member
              · exact first.clear
              · exact inner other member
          · have unnoted : [] = ([] : List (Occurrence ω)).map (Occurrence.renumber gap) := rfl
            have settled := settle_alike first.events first.clear inner .completed unnoted
            rw [← first.wait] at settled
            exact settled.after first.trace
          · next pending =>
              simp only [pending, issued_conclude] at few
              have concluded := conclude_alike first.clear (ih first.events inner few)
              rw [← first.wait] at concluded
              exact concluded.after first.trace
  | ready | never | external =>
      exact ⟨rfl, rfl, fun _ member => absurd member List.not_mem_nil, alike, rfl⟩

end Future

/-! ## The hidden wait -/

namespace Wait

variable {event : EventId} {hidden : Option Token} {events other : Events ω} {wait : Wait}

/-- Polled on an unset event, the hidden wait holds the hidden token. -/
theorem poll_hidden [Waker ω] (alike : events.Alike ⟨event, hidden⟩ other)
    (here : wait.event = event) (holds : wait.token = hidden)
    (unset : (events.get event).isSet = false)
    (member : ∀ own, hidden = some own → own ∈ (events.get event).registry.members.keys)
    (waker : ω)
    (few : ((wait.poll waker events).events.get event).registry.issued ≤ Token.limit) :
    ∃ token, (hidden = none ∧ token = (events.get event).registry.next ∧
          (events.get event).registry.issued < Token.limit ∨ hidden = some token) ∧
      (wait.poll waker events).outcome = .ok false ∧
      (wait.poll waker events).wait = { wait with token := some token } ∧
      (wait.poll waker events).events.Alike ⟨event, some token⟩ other ∧
      ((wait.poll waker events).events.get event).isSet = false ∧
      ∀ own, .withdrawn event own ∉ (wait.poll waker events).trace := by
  subst here
  subst holds
  cases enrols : (events.get wait.event).registry.enrol wait.token waker with
  | mk token rest =>
      obtain ⟨enrolment, registry⟩ := rest
      have hides := alike.hides
      simp only [unset] at hides
      rw [poll_of_unset unset (alike.free _) waker enrols] at few ⊢
      rw [Events.get_put_self] at few
      obtain ⟨after, own⟩ := hides.enrol_hidden member enrols few
      refine ⟨token, own, rfl, rfl, alike.hide ?_, ?_, ?_⟩
      · simp only [unset]
        exact after
      · rw [Events.get_put_self]
        exact unset
      · intro other told
        cases enrolment <;> cases List.mem_singleton.mp told

theorem drop_hidden (alike : events.Alike ⟨event, hidden⟩ other) (here : wait.event = event)
    (holds : wait.token = hidden)
    (member : ∀ own, hidden = some own → own ∈ (events.get event).registry.members.keys) :
    (wait.drop events).panic? = none ∧ (wait.drop events).events.Alike ⟨event, hidden⟩ other ∧
      (wait.drop events).trace = hidden.toList.map (.withdrawn event) := by
  subst here
  subst holds
  have withdrawn : (wait.withdraw events).panic? = none ∧
      (wait.withdraw events).events.Alike ⟨wait.event, wait.token⟩ other ∧
      (wait.withdraw events).trace = wait.token.toList.map (.withdrawn wait.event) := by
    cases held : wait.token with
    | none =>
        have idle : wait.withdraw events = { events } := by simp only [withdraw, held]
        rw [idle]
        exact ⟨rfl, held ▸ alike, rfl⟩
    | some token =>
        have present : (events.get wait.event).registry.contains token = true :=
          Table.contains_iff.mpr (member token held)
        rw [withdraw_of_free (alike.free _) held, present]
        refine ⟨rfl, alike.hide ?_, rfl⟩
        have hides := alike.hides
        rw [held] at hides
        exact hides.remove_hidden
  obtain ⟨whole, after, told⟩ := withdrawn
  unfold drop
  cases hold : wait.hold with
  | borrowed => exact ⟨whole, after, told⟩
  | owned =>
      refine ⟨whole, after.of_same rfl ?_ ?_, told⟩
      · exact Events.isSet_modify _ wait.event Event.letGo fun _ => rfl
      · exact Events.waiters_modify _ wait.event Event.letGo fun _ => rfl

end Wait

end Latch
