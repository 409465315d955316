import Latch.Future

/-!
# Handling waits

Whatever is done with futures comes down to a few things done with waits, one after another. The
relation `Handles` tells which, and leaves open on which events and in which order; what every
handling keeps is kept by the polls and drops of futures, and by whole runs.
-/

set_option autoImplicit false

namespace Latch

variable {σ ω : Type}

/-- Whether an occurrence belongs to the release of an event's waiters. -/
def Occurrence.releases (event : EventId) : Occurrence ω → Bool
  | .releasingAll (some id) _ | .woken (some id) .. | .eventSet id _ => id = event
  | .releasingAll none _ | .woken none .. | .releasingOne _ => false
  | .registered .. | .refreshed .. | .exchanged .. | .withdrawn .. | .cancelled _ => false

/-- An occurrence that tells neither of a wait's registration nor of an event's release. -/
def Occurrence.isAside : Occurrence ω → Bool
  | .cancelled _ | .exchanged .. | .releasingOne _ | .releasingAll none _ | .woken none .. => true
  | .registered .. | .refreshed .. | .withdrawn .. | .eventSet .. => false
  | .releasingAll (some _) _ | .woken (some _) .. => false

theorem Occurrence.releases_of_isAside {occurrence : Occurrence ω}
    (aside : occurrence.isAside = true) (event : EventId) : occurrence.releases event = false := by
  cases occurrence with
  | cancelled | exchanged | releasingOne => rfl
  | registered | refreshed | withdrawn | eventSet => cases aside
  | releasingAll event? count =>
      cases event? with
      | none => rfl
      | some => cases aside
  | woken event? token waker =>
      cases event? with
      | none => rfl
      | some => cases aside

/-- Giving up its share of the event is not told of. -/
theorem Wait.trace_drop (wait : Wait) (events : Events ω) :
    (wait.drop events).trace = (wait.withdraw events).trace := by
  unfold drop
  split <;> rfl

theorem Wait.mem_trace_of_drop {wait : Wait} {events : Events ω} {occurrence : Occurrence ω}
    (told : occurrence ∈ (wait.drop events).trace) :
    ∃ token, occurrence = .withdrawn wait.event token := by
  rw [trace_drop] at told
  unfold Wait.withdraw at told
  split at told
  · cases told
  · next token holds =>
      split at told
      · cases told
      · split at told
        · exact ⟨token, List.mem_singleton.mp told⟩
        · cases told

/-- Waits are made, polled and dropped in turn, which leads from some events and waits to others and
leaves a trace. -/
inductive Handles [Waker ω] :
    Events ω → List Wait → List (Occurrence ω) → Events ω → List Wait → Prop
  | nothing {events : Events ω} {waits : List Wait} : Handles events waits [] events waits
  | create {events : Events ω} {waits : List Wait} : Handles events waits [] events.create.2 waits
  | make {events : Events ω} {waits : List Wait} (event : EventId) (hold : Hold) :
      Handles events waits [] (Wait.make events event hold).2
        ((Wait.make events event hold).1 :: waits)
  | poll {events : Events ω} {waits : List Wait} (waker : ω) (wait : Wait) :
      Handles events (wait :: waits) (wait.poll waker events).trace
        (wait.poll waker events).events ((wait.poll waker events).wait :: waits)
  | drop {events : Events ω} {waits : List Wait} (wait : Wait) :
      Handles events (wait :: waits) (wait.drop events).trace (wait.drop events).events waits
  | note {events : Events ω} {waits : List Wait} {occurrence : Occurrence ω}
      (aside : occurrence.isAside = true) : Handles events waits [occurrence] events waits
  | reorder {events : Events ω} {waits other : List Wait} (same : waits.Perm other) :
      Handles events waits [] events other
  | trans {first second third : Events ω} {waits others left : List Wait}
      {before after : List (Occurrence ω)} (head : Handles first waits before second others)
      (tail : Handles second others after third left) :
      Handles first waits (before ++ after) third left

namespace Handles

variable [Waker ω] {events next : Events ω} {waits left : List Wait} {trace : List (Occurrence ω)}

theorem append (handled : Handles events waits trace next left) (others : List Wait) :
    Handles events (waits ++ others) trace next (left ++ others) := by
  induction handled with
  | nothing => exact .nothing
  | create => exact .create
  | make event hold => exact .make event hold
  | poll waker wait => exact .poll waker wait
  | drop wait => exact .drop wait
  | note aside => exact .note aside
  | reorder same => exact .reorder (same.append_right others)
  | trans _ _ head tail => exact .trans head tail

theorem reordered (handled : Handles events waits trace next left) {before after : List Wait}
    (first : before.Perm waits) (last : left.Perm after) :
    Handles events before trace next after := by
  have whole := (Handles.reorder first).trans (handled.trans (.reorder last))
  rwa [List.nil_append, List.append_nil] at whole

theorem cons (handled : Handles events waits trace next left) (wait : Wait) :
    Handles events (wait :: waits) trace next (wait :: left) :=
  (handled.append [wait]).reordered (List.perm_append_singleton wait waits).symm
    (List.perm_append_singleton wait left)

theorem noted {note : List (Occurrence ω)}
    (aside : ∀ occurrence ∈ note, occurrence.isAside = true) :
    Handles events waits note events waits := by
  induction note with
  | nil => exact .nothing
  | cons occurrence rest ih =>
      exact (Handles.note (aside occurrence List.mem_cons_self)).trans
        (ih fun other member => aside other (List.mem_cons_of_mem _ member))

theorem trace_not_releases (handled : Handles events waits trace next left) (event : EventId) :
    ∀ occurrence ∈ trace, occurrence.releases event = false := by
  induction handled with
  | nothing | create | make | reorder =>
      intro occurrence member
      cases member
  | @poll events waits waker wait =>
      intro occurrence member
      simp only [Wait.poll] at member
      split at member
      · cases member
      · split at member
        · cases member
        · next token enrolment enrolled registered =>
            rw [List.mem_singleton] at member
            subst member
            cases enrolment <;> rfl
  | @drop events waits wait =>
      intro occurrence member
      obtain ⟨token, rfl⟩ := Wait.mem_trace_of_drop member
      rfl
  | note aside =>
      intro occurrence member
      rw [List.mem_singleton.mp member]
      exact Occurrence.releases_of_isAside aside event
  | trans _ _ head tail =>
      intro occurrence member
      rcases List.mem_append.mp member with early | late
      · exact head occurrence early
      · exact tail occurrence late

end Handles

namespace Future

variable [Waker ω]

theorem drop_handles (future : Future σ) (events : Events ω) :
    Handles events future.waits (future.drop events).trace (future.drop events).events [] := by
  induction future generalizing events with
  | plain wait => exact .drop wait
  | race wait signal ih =>
      cases wait with
      | none => exact ih events
      | some wait => exact (Handles.drop wait).trans (ih _)
  | ready | never | external => exact .nothing

theorem settle_handles {wait : Wait} {signal : Future σ} {answer : Answer}
    {note : List (Occurrence ω)} {events : Events ω} (aside : ∀ told ∈ note, told.isAside = true) :
    Handles events (wait :: signal.waits) (settle wait signal answer note events).trace
      (settle wait signal answer note events).events
      (settle wait signal answer note events).future.waits := by
  unfold settle
  simp only
  split
  · exact .drop wait
  · exact (Handles.drop wait).trans (.noted aside)

theorem conclude_handles {events : Events ω} {waits : List Wait} {wait : Wait}
    {polled : Polled σ ω}
    (handled : Handles events waits polled.trace polled.events (wait :: polled.future.waits)) :
    Handles events waits (conclude wait polled).trace (conclude wait polled).events
      (conclude wait polled).future.waits := by
  unfold conclude
  split
  any_goals exact handled
  all_goals
    exact handled.trans (settle_handles (by simp [Occurrence.isAside]))

theorem poll_handles (waker : ω) (future : Future σ) (events : Events ω) :
    Handles events future.waits (future.poll waker events).trace
      (future.poll waker events).events (future.poll waker events).future.waits := by
  induction future generalizing events with
  | plain wait => exact .poll waker wait
  | race wait signal ih =>
      cases wait with
      | none => exact .nothing
      | some wait =>
          have polled : Handles events (wait :: signal.waits) (wait.poll waker events).trace
              (wait.poll waker events).events
              ((wait.poll waker events).wait :: signal.waits) := .poll waker wait
          simp only [poll]
          split
          · exact polled
          · exact polled.trans (settle_handles (by simp))
          · exact polled.trans (conclude_handles ((ih _).cons _))
  | ready | never | external => exact .nothing

theorem resume_handles (response : Response σ) (future : Future σ) (events : Events ω) :
    Handles events future.waits (future.resume response events).trace
      (future.resume response events).events (future.resume response events).future.waits := by
  induction future generalizing events with
  | plain | ready | never => exact .nothing
  | race wait signal ih =>
      cases wait with
      | none => exact .nothing
      | some wait => exact conclude_handles ((ih events).cons wait)
  | external =>
      cases response <;> exact .nothing

end Future

end Latch
