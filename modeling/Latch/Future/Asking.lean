import Latch.Future

/-!
# Asking futures

A poll asks for an external signal exactly when it comes to the end of a chain of unsettled races
and finds one there. The statements below tie the signal that a poll asks for to the place that the
answer goes to.
-/

set_option autoImplicit false

namespace Latch.Future

variable {σ ω : Type}

/-- The external signal at the end of a chain of unsettled races. -/
def asked? : Future σ → Option σ
  | external signal => some signal
  | race (some _) signal => signal.asked?
  | race none _ | plain _ | ready | never => none

/-- Puts another external signal at the end of a chain of unsettled races. -/
def withAsked (next : σ) : Future σ → Future σ
  | external _ => external next
  | race (some wait) signal => race (some wait) (signal.withAsked next)
  | future => future

/-- Settling a race asks for nothing. -/
theorem settle_ne_asks {wait : Wait} {signal : Future σ} {answer : Answer}
    {note : List (Occurrence ω)} {events : Events ω} {next : σ} :
    (settle wait signal answer note events).progress ≠ .asks next := by
  cases broken : (wait.drop events).panic? <;> simp [settle, broken]

theorem conclude_asks {wait : Wait} {polled : Polled σ ω} {signal : σ} :
    (conclude wait polled).progress = .asks signal ↔ polled.progress = .asks signal := by
  unfold conclude
  split
  · simp
  · simp
  · simp
  · simp_all [settle_ne_asks]
  · simp_all [settle_ne_asks]

theorem conclude_future {wait : Wait} {polled : Polled σ ω} {signal : σ}
    (asks : polled.progress = .asks signal) :
    (conclude wait polled).future = race (some wait) polled.future := by
  simp [conclude, asks]

/-- A poll leaves the signal that it asks for where it found it. -/
theorem asked?_of_poll_asks [Waker ω] {waker : ω} {future : Future σ} {events : Events ω}
    {signal : σ} (asks : (future.poll waker events).progress = .asks signal) :
    (future.poll waker events).future.asked? = some signal := by
  fun_induction poll waker future events with
  | case1 => split at asks <;> cases asks
  | case2 => cases asks
  | case3 => cases asks
  | case4 => exact absurd asks settle_ne_asks
  | case5 wait inner events first pending concluded ih =>
      have innerAsks := conclude_asks.mp asks
      change (conclude first.wait (inner.poll waker first.events)).future.asked? = some signal
      rw [conclude_future innerAsks]
      exact ih innerAsks
  | case6 => cases asks
  | case7 => cases asks
  | case8 => simpa [asked?] using asks

theorem resume_ne_asks (response : Response σ) (future : Future σ) (events : Events ω)
    (signal : σ) : (future.resume response events).progress ≠ .asks signal := by
  induction future generalizing events with
  | plain | ready | never => nofun
  | race wait inner ih =>
      cases wait with
      | none => nofun
      | some wait => exact fun asks => ih events (conclude_asks.mp asks)
  | external => cases response <;> nofun

/-- A signal that is still pending takes its own place again, and so the whole future is pending. -/
theorem resume_pending {next signal : σ} {future : Future σ} {events : Events ω}
    (asked : future.asked? = some signal) :
    future.resume (.pending next) events =
      { progress := .answered .pending, future := future.withAsked next, events } := by
  induction future with
  | external => rfl
  | race wait inner ih =>
      cases wait with
      | none => cases asked
      | some wait =>
          have resumed := ih asked
          simp [resume, resumed, conclude, withAsked]
  | plain | ready | never => cases asked

end Latch.Future
