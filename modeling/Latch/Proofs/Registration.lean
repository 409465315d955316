import Latch.Proofs.Ownership

/-!
# Waits that will be woken

A wait is registered for a waker if its event is unset and holds, under the wait's token, a waker
that wakes the same task. A poll that comes back pending leaves every wait of the future registered
for the waker of the poll, and handling other waits keeps it so.
-/

set_option autoImplicit false

namespace Latch

variable {σ ω : Type}

namespace Future

/-- A poll has not come to an end: it is pending, or asks for a signal. -/
def Progress.isOpen : Progress σ → Bool
  | .answered .pending | .asks _ => true
  | .answered .completed | .answered .cancelled | .panicked _ => false

theorem settle_isOpen {wait : Wait} {signal : Future σ} {answer : Answer}
    {note : List (Occurrence ω)} {events : Events ω}
    (opened : Progress.isOpen (settle wait signal answer note events).progress = true) :
    answer = .pending := by
  unfold settle at opened
  simp only at opened
  split at opened
  · cases opened
  · cases answer with
    | pending => rfl
    | completed | cancelled => cases opened

/-- Only a poll that was left open is open after its race was concluded. -/
theorem conclude_isOpen {wait : Wait} {polled : Polled σ ω}
    (concluded : Progress.isOpen (conclude wait polled).progress = true) :
    Progress.isOpen polled.progress = true ∧
      conclude wait polled = { polled with future := race (some wait) polled.future } := by
  unfold conclude at concluded ⊢
  split
  · next pending => exact ⟨by rw [pending]; rfl, rfl⟩
  · next signal asks => exact ⟨by rw [asks]; rfl, rfl⟩
  · next panic panicked =>
      simp only [panicked] at concluded
      cases concluded
  · next completed =>
      simp only [completed] at concluded
      cases settle_isOpen concluded
  · next cancelled =>
      simp only [cancelled] at concluded
      cases settle_isOpen concluded

theorem resume_isOpen {response : Response σ} {future : Future σ} {events : Events ω}
    (opened : Progress.isOpen (future.resume response events).progress = true) :
    (future.resume response events).progress = .answered .pending ∧
      (future.resume response events).events = events ∧
      (future.resume response events).future.waits = future.waits := by
  induction future generalizing events with
  | plain | ready | never => exact ⟨rfl, rfl, rfl⟩
  | race wait signal ih =>
      cases wait with
      | none => exact ⟨rfl, rfl, rfl⟩
      | some wait =>
          simp only [resume] at opened ⊢
          obtain ⟨still, same⟩ := conclude_isOpen opened
          obtain ⟨pending, unchanged, waits⟩ := ih still
          rw [same]
          exact ⟨pending, unchanged, congrArg (wait :: ·) waits⟩
  | external =>
      cases response with
      | pending => exact ⟨rfl, rfl, rfl⟩
      | ready | panicked => cases opened

end Future

variable [Waker ω]

/-- The event of a wait is unset and has a waker under the wait's token that does for the given
one. -/
def Wait.RegisteredFor (wait : Wait) (events : Events ω) (waker : ω) : Prop :=
  (events.get wait.event).isSet = false ∧
    ∃ token stored, wait.token = some token ∧
      (events.get wait.event).registry.get? token = some stored ∧ willWake stored waker = true

theorem Handles.registeredFor {events next : Events ω} {waits left others : List Wait}
    {trace : List (Occurrence ω)} (handles : Handles events waits trace next left)
    (owned : Owned events (waits ++ others)) {wait : Wait} (live : wait ∈ others) {waker : ω}
    (registered : wait.RegisteredFor events waker)
    (few : (next.get wait.event).registry.issued ≤ Token.limit) :
    wait.RegisteredFor next waker := by
  obtain ⟨unset, token, stored, holds, found, wakes⟩ := registered
  exact ⟨(handles.isSet wait.event).trans unset, token, stored, holds,
    handles.keeps owned live holds found few, wakes⟩

/-- When an event changes, its registry may have held a waker that does for the wait's; the waits on
other events stay registered. -/
theorem Wait.RegisteredFor.put {wait : Wait} {events : Events ω} {waker : ω}
    (registered : wait.RegisteredFor events waker) (id : EventId) (event : Event ω) :
    wait.RegisteredFor (events.put id event) waker ∨
      ∃ stored ∈ (events.get id).registry.members.values, willWake stored waker = true := by
  obtain ⟨unset, token, stored, holds, found, does⟩ := registered
  by_cases here : wait.event = id
  · rw [here] at found
    exact .inr ⟨stored, Table.mem_values_of_get? found, does⟩
  · have elsewhere : (events.put id event).get wait.event = events.get wait.event := by
      rw [Events.get_put, if_neg here]
    refine .inl ⟨?_, token, stored, holds, ?_, does⟩
    · rw [elsewhere]
      exact unset
    · rw [elsewhere]
      exact found

theorem Registry.willWake_of_enrol [LawfulWaker ω] {registry after : Registry ω}
    {token? : Option Token} {waker : ω} {token : Token} {enrolment : Enrolment}
    (enrols : registry.enrol token? waker = (token, enrolment, after)) :
    ∃ stored, after.get? token = some stored ∧ willWake stored waker = true := by
  have added : ∀ registry : Registry ω, ∃ stored,
      (registry.add waker).get? registry.next = some stored ∧ willWake stored waker = true := by
    intro registry
    exact ⟨waker, by rw [Registry.get?_add, if_pos rfl], LawfulWaker.refl waker⟩
  cases token? with
  | none =>
      cases enrols
      exact added registry
  | some own =>
      cases updated : registry.update own waker with
      | mk refresh refreshed =>
          simp only [enrol, updated] at enrols
          cases refresh with
          | absent =>
              cases enrols
              exact added refreshed
          | kept | replaced =>
              have member : registry.contains own = true := by
                cases found : registry.contains own with
                | true => rfl
                | false =>
                    have absent := (registry.update_absent_iff own waker).mpr found
                    rw [updated] at absent
                    cases absent
              obtain ⟨stored, found, wakes⟩ : ∃ stored,
                  (registry.update own waker).2.get? own = some stored ∧
                    willWake stored waker = true := Registry.willWake_of_update member
              rw [updated] at found
              cases enrols
              exact ⟨stored, found, wakes⟩

theorem Wait.registeredFor_of_poll [LawfulWaker ω] {events : Events ω} {wait : Wait}
    {waits : List Wait} (owned : Owned events (wait :: waits)) {waker : ω}
    (pending : (wait.poll waker events).outcome = .ok false) :
    (wait.poll waker events).wait.RegisteredFor (wait.poll waker events).events waker := by
  cases flag : (events.get wait.event).isSet with
  | true =>
      rw [poll_of_set flag] at pending
      cases pending
  | false =>
      obtain ⟨token, enrolment, registry, enrols, -⟩ := owned.enrols flag waker
      obtain ⟨stored, found, wakes⟩ := Registry.willWake_of_enrol enrols
      rw [poll_of_unset flag (owned.free _) waker enrols]
      refine ⟨?_, token, stored, rfl, ?_, wakes⟩
      · simp only [Events.get_put_self]
        exact flag
      · simp only [Events.get_put_self]
        exact found

namespace Future

theorem registeredFor_of_poll [LawfulWaker ω] {waker : ω} {future : Future σ}
    {events : Events ω} {others : List Wait} (owned : Owned events (future.waits ++ others))
    (opened : Progress.isOpen (future.poll waker events).progress = true)
    (few : (future.poll waker events).events.Few) :
    ∀ wait ∈ (future.poll waker events).future.waits,
      wait.RegisteredFor (future.poll waker events).events waker := by
  induction future generalizing events others with
  | plain wait =>
      intro polled member
      have pending : (wait.poll waker events).outcome = .ok false := by
        simp only [poll] at opened
        split at opened
        · cases opened
        · cases opened
        · assumption
      rw [List.mem_singleton.mp member]
      exact Wait.registeredFor_of_poll owned pending
  | race wait signal ih =>
      cases wait with
      | none => cases opened
      | some wait =>
          simp only [poll] at opened ⊢
          split at opened
          · cases opened
          · cases settle_isOpen opened
          · next pending =>
              obtain ⟨still, same⟩ := conclude_isOpen opened
              simp only [poll, pending, same] at few
              have polled : Owned (wait.poll waker events).events
                  (signal.waits ++ ((wait.poll waker events).wait :: others)) := by
                have whole : Owned events (wait :: (signal.waits ++ others)) := owned
                exact (whole.poll waker).perm List.perm_middle.symm
              have registered := Wait.registeredFor_of_poll owned pending
              have kept := (signal.poll_handles waker (wait.poll waker events).events).registeredFor
                polled List.mem_cons_self registered (few _)
              intro other member
              simp only at member ⊢
              rw [same] at member ⊢
              rcases List.mem_cons.mp member with rfl | inner
              · exact kept
              · exact ih polled still few other inner
  | ready | never | external =>
      intro wait member
      cases member

end Future

end Latch
