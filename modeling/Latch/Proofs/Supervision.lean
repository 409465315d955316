import Latch.Watchdog

/-!
# Supervision

The worker and the supervisor of a watchdog make their moves in any order, and the supervisor's
patience may end at every moment at which it still waits for a message. What it says in the end is
what the body came to, unless its patience ended first; it waits for nothing that does not happen.
-/

set_option autoImplicit false

namespace Latch.Watchdog

variable {α : Type} {body : Body α} {moves : List Move} {state next : State α} {move : Move}

/-! ## Moves -/

/-- What each move asks of a state, and what it makes of it. -/
inductive Makes (state : State α) : Move → State α → Prop
  | returns {value : α} (running : state.worker = .running)
      (returned : state.body = .returns value) :
      Makes state .finish { state with worker := .sending value }
  | panics {panic : Panic} (running : state.worker = .running)
      (panicked : state.body = .panics panic) :
      Makes state .finish { state with worker := .unwinding panic }
  | send {value : α} (sending : state.worker = .sending value) :
      Makes state .send { state with
        worker := .leaving
        message? := if state.supervisor.isReceiving then some value else state.message? }
  | leave (leaving : state.worker = .leaving) :
      Makes state .close { state with worker := .ending none }
  | unwind {panic : Panic} (unwinding : state.worker = .unwinding panic) :
      Makes state .close { state with worker := .ending (some panic) }
  | exit {panic? : Option Panic} (ending : state.worker = .ending panic?) :
      Makes state .exit { state with worker := .gone panic? }
  | take {value : α} (receiving : state.supervisor = .receiving)
      (sent : state.message? = some value) :
      Makes state .receive { state with message? := none, supervisor := .joining (some value) }
  | miss (receiving : state.supervisor = .receiving) (empty : state.message? = none)
      (closed : state.worker.hasClosed = true) :
      Makes state .receive { state with supervisor := .joining none }
  | timeOut (receiving : state.supervisor = .receiving) :
      Makes state .timeOut { state with supervisor := .done .timedOut }
  | join {message? : Option α} {panic? : Option Panic}
      (joining : state.supervisor = .joining message?) (gone : state.worker = .gone panic?) :
      Makes state .join { state with supervisor := .done (verdict message? panic?) }

theorem step?_eq_some_iff : state.step? move = some next ↔ Makes state move next := by
  constructor
  · intro made
    cases move with
    | finish =>
        simp only [State.step?] at made
        split at made
        · next running returned =>
            cases made
            exact .returns running returned
        · next running panicked =>
            cases made
            exact .panics running panicked
        · cases made
    | send =>
        simp only [State.step?] at made
        split at made
        · next sending =>
            cases made
            exact .send sending
        · cases made
    | close =>
        simp only [State.step?] at made
        split at made
        · next leaving =>
            cases made
            exact .leave leaving
        · next unwinding =>
            cases made
            exact .unwind unwinding
        · cases made
    | exit =>
        simp only [State.step?] at made
        split at made
        · next ending =>
            cases made
            exact .exit ending
        · cases made
    | receive =>
        simp only [State.step?] at made
        split at made
        · next receiving sent =>
            cases made
            exact .take receiving sent
        · next receiving empty =>
            split at made
            · next closed =>
                cases made
                exact .miss receiving empty closed
            · cases made
        · cases made
    | timeOut =>
        simp only [State.step?] at made
        split at made
        · next receiving =>
            cases made
            exact .timeOut receiving
        · cases made
    | join =>
        simp only [State.step?] at made
        split at made
        · next joining gone =>
            cases made
            exact .join joining gone
        · cases made
  · intro makes
    cases makes <;> simp [State.step?, *]

/-- A state that some moves lead to. Each of them could be made when it was its turn. -/
inductive Run (body : Body α) : List Move → State α → Prop
  | start : Run body [] { body }
  | step {moves : List Move} {state next : State α} {move : Move} (run : Run body moves state)
      (made : state.step? move = some next) : Run body (moves ++ [move]) next

/-- Those of the moves that can be made when it is their turn. -/
def State.made (state : State α) : List Move → List Move
  | [] => []
  | move :: rest =>
      match state.step? move with
      | none => state.made rest
      | some next => move :: next.made rest

/-- Following moves is a run, in which the moves are left out that cannot be made. -/
theorem Run.follow (run : Run body moves state) (others : List Move) :
    Run body (moves ++ state.made others) (state.follow others) := by
  induction others generalizing moves state with
  | nil => rwa [State.made, List.append_nil]
  | cons move rest ih =>
      rw [State.follow, List.foldl_cons, State.made]
      cases made : state.step? move with
      | none => exact ih run
      | some next =>
          have goesOn := ih (run.step made)
          rwa [List.append_assoc] at goesOn

/-! ## What a run rests on -/

/-- How the worker of a body that ends is gone: by itself, or by the panic of the body. -/
def Body.end? : Body α → Option (Option Panic)
  | returns _ => some none
  | panics panic => some (some panic)
  | hangs => none

/-- How far the worker of a body may be. -/
inductive Worker.Follows (body : Body α) : Worker α → Prop
  | running : Follows body .running
  | sending {value : α} (returned : body = .returns value) : Follows body (.sending value)
  | leaving {value : α} (returned : body = .returns value) : Follows body .leaving
  | unwinding {panic : Panic} (panicked : body = .panics panic) : Follows body (.unwinding panic)
  | ending {panic? : Option Panic} (ended : body.end? = some panic?) :
      Follows body (.ending panic?)
  | gone {panic? : Option Panic} (ended : body.end? = some panic?) : Follows body (.gone panic?)

/-- What the supervisor may know of a body after some moves. -/
inductive Supervisor.Knows (body : Body α) (moves : List Move) : Supervisor α → Prop
  | receiving (patient : .timeOut ∉ moves) : Knows body moves .receiving
  | told {value : α} (patient : .timeOut ∉ moves) (returned : body = .returns value) :
      Knows body moves (.joining (some value))
  | untold {panic : Panic} (patient : .timeOut ∉ moves) (panicked : body = .panics panic) :
      Knows body moves (.joining none)
  | returned {value : α} (patient : .timeOut ∉ moves) (returned : body = .returns value) :
      Knows body moves (.done (.returned value))
  | raised {panic : Panic} (patient : .timeOut ∉ moves) (panicked : body = .panics panic) :
      Knows body moves (.done (.raised panic))
  | timedOut (impatient : .timeOut ∈ moves) : Knows body moves (.done .timedOut)

/-- Only the end of its patience tells the supervisor something by itself. -/
theorem Supervisor.Knows.append {supervisor : Supervisor α} (knows : supervisor.Knows body moves)
    (patient : move ≠ .timeOut) : supervisor.Knows body (moves ++ [move]) := by
  have same : .timeOut ∈ moves ++ [move] ↔ Move.timeOut ∈ moves := by simp [patient.symm]
  cases knows with
  | receiving patient => exact .receiving (mt same.mp patient)
  | told patient returned => exact .told (mt same.mp patient) returned
  | untold patient panicked => exact .untold (mt same.mp patient) panicked
  | returned patient returned => exact .returned (mt same.mp patient) returned
  | raised patient panicked => exact .raised (mt same.mp patient) panicked
  | timedOut impatient => exact .timedOut (same.mpr impatient)

/-- Whether the worker has nothing to send any more. -/
def Worker.hasSent : Worker α → Bool
  | leaving | ending _ | gone _ => true
  | running | sending _ | unwinding _ => false

/-- A message is what the body returned. It is in the channel from when the worker sent it until
the supervisor takes it. -/
structure Sound (body : Body α) (moves : List Move) (state : State α) : Prop where
  body_eq : state.body = body
  worker : state.worker.Follows body
  supervisor : state.supervisor.Knows body moves
  message : ∀ value, state.message? = some value → body = .returns value
  kept : state.supervisor = .receiving → state.worker.hasSent = true → ∀ value,
    body = .returns value → state.message? = some value

namespace Sound

theorem start (body : Body α) : Sound body [] { body } where
  body_eq := rfl
  worker := .running
  supervisor := .receiving List.not_mem_nil
  message := nofun
  kept := nofun

/-- A worker that has let go of the channel has sent what the body returned, if it returned. -/
theorem panicked_of_closed (sound : Sound body moves state)
    (receiving : state.supervisor = .receiving) (empty : state.message? = none)
    (closed : state.worker.hasClosed = true) : ∃ panic, body = .panics panic := by
  have unsent : ∀ value, body = .returns value → state.worker.hasSent = false := by
    intro value returned
    rw [Bool.eq_false_iff]
    intro sent
    cases empty.symm.trans (sound.kept receiving sent value returned)
  have follows := sound.worker
  cases at? : state.worker with
  | running | sending | leaving | unwinding =>
      rw [at?] at closed
      cases closed
  | ending panic? | gone panic? =>
      rw [at?] at follows unsent
      cases body with
      | returns value => cases unsent value rfl
      | panics panic => exact ⟨panic, rfl⟩
      | hangs => nomatch follows

/-- A move of the worker other than the sending leaves the channel as it is. -/
theorem works (sound : Sound body moves state) (patient : move ≠ .timeOut) {worker : Worker α}
    (follows : worker.Follows body)
    (sends : ∀ value, body = .returns value → worker.hasSent = true →
      state.worker.hasSent = true) :
    Sound body (moves ++ [move]) { state with worker } where
  body_eq := sound.body_eq
  worker := follows
  supervisor := sound.supervisor.append patient
  message := sound.message
  kept receiving sent value returned :=
    sound.kept receiving (sends value returned sent) value returned

theorem step (sound : Sound body moves state) (made : state.step? move = some next) :
    Sound body (moves ++ [move]) next := by
  have follows := sound.worker
  have knows := sound.supervisor
  cases step?_eq_some_iff.mp made with
  | returns running returned =>
      exact sound.works (by decide) (.sending (sound.body_eq.symm.trans returned)) nofun
  | panics running panicked =>
      exact sound.works (by decide) (.unwinding (sound.body_eq.symm.trans panicked)) nofun
  | @send value sending =>
      rw [sending] at follows
      cases follows with
      | sending returned =>
          refine ⟨sound.body_eq, .leaving returned, knows.append (by decide), ?_, ?_⟩
          · intro other sent
            simp only at sent
            split at sent
            · cases sent
              exact returned
            · exact sound.message other sent
          · intro receiving _ other same
            cases returned.symm.trans same
            have waits : state.supervisor = .receiving := receiving
            simp only [waits]
            rfl
  | leave leaving =>
      rw [leaving] at follows
      cases follows with
      | leaving returned =>
          refine sound.works (by decide) (.ending (by rw [returned]; rfl)) fun _ _ _ => ?_
          rw [leaving]
          rfl
  | unwind unwinding =>
      rw [unwinding] at follows
      cases follows with
      | unwinding panicked =>
          refine sound.works (by decide) (.ending (by rw [panicked]; rfl)) fun _ returned _ => ?_
          cases panicked.symm.trans returned
  | exit ending =>
      rw [ending] at follows
      cases follows with
      | ending ended =>
          refine sound.works (by decide) (.gone ended) fun _ _ _ => ?_
          rw [ending]
          rfl
  | take receiving sent =>
      rw [receiving] at knows
      cases knows.append (by decide : Move.receive ≠ .timeOut) with
      | receiving patient =>
          exact ⟨sound.body_eq, follows, .told patient (sound.message _ sent), nofun, nofun⟩
  | miss receiving empty closed =>
      obtain ⟨panic, panicked⟩ := sound.panicked_of_closed receiving empty closed
      rw [receiving] at knows
      cases knows.append (by decide : Move.receive ≠ .timeOut) with
      | receiving patient =>
          exact ⟨sound.body_eq, follows, .untold patient panicked, sound.message, nofun⟩
  | timeOut receiving =>
      have impatient : Move.timeOut ∈ moves ++ [.timeOut] := by simp
      exact ⟨sound.body_eq, follows, .timedOut impatient, sound.message, nofun⟩
  | join joining gone =>
      rw [joining] at knows
      rw [gone] at follows
      cases follows with
      | gone ended =>
          refine ⟨sound.body_eq, sound.worker, ?_, sound.message, nofun⟩
          cases knows.append (by decide : Move.join ≠ .timeOut) with
          | told patient returned =>
              rw [returned] at ended
              cases ended
              exact .returned patient returned
          | untold patient panicked =>
              rw [panicked] at ended
              cases ended
              exact .raised patient panicked

end Sound

theorem Run.sound (run : Run body moves state) : Sound body moves state := by
  induction run with
  | start => exact .start body
  | step _ made sound => exact sound.step made

/-! ## Every run ends -/

/-- How many moves the worker can make yet. -/
def Worker.left : Worker α → Nat
  | running => 4
  | sending _ => 3
  | leaving | unwinding _ => 2
  | ending _ => 1
  | gone _ => 0

/-- How many moves the supervisor can make yet. -/
def Supervisor.left : Supervisor α → Nat
  | receiving => 2
  | joining _ => 1
  | done _ => 0

def State.left (state : State α) : Nat := state.worker.left + state.supervisor.left

theorem left_lt (made : state.step? move = some next) : next.left < state.left := by
  cases step?_eq_some_iff.mp made <;> simp [State.left, Worker.left, Supervisor.left, *]

theorem Run.length_le (run : Run body moves state) : moves.length + state.left ≤ 6 := by
  induction run with
  | start => exact Nat.le_refl _
  | step _ made ih =>
      have less := left_lt made
      rw [List.length_append, List.length_singleton]
      omega

/-- Nothing can happen any more, unless the supervisor's patience ends. -/
def State.Resting (state : State α) : Prop := ∀ move, move ≠ .timeOut → state.step? move = none

theorem State.Resting.not_makes (resting : state.Resting) (patient : move ≠ .timeOut) :
    ¬ Makes state move next := by
  intro makes
  cases (resting move patient).symm.trans (step?_eq_some_iff.mpr makes)

namespace Sound

/-- A worker comes to rest when it is gone, or in a body that never ends. -/
theorem worker_of_resting (sound : Sound body moves state) (resting : state.Resting) :
    state.worker = .running ∧ body = .hangs ∨ ∃ panic?, state.worker = .gone panic? := by
  cases reached : state.worker with
  | running =>
      refine .inl ⟨rfl, ?_⟩
      cases comes : state.body with
      | returns => exact absurd (.returns reached comes) (resting.not_makes (by decide))
      | panics => exact absurd (.panics reached comes) (resting.not_makes (by decide))
      | hangs => exact sound.body_eq.symm.trans comes
  | sending => exact absurd (.send reached) (resting.not_makes (by decide))
  | leaving => exact absurd (.leave reached) (resting.not_makes (by decide))
  | unwinding => exact absurd (.unwind reached) (resting.not_makes (by decide))
  | ending => exact absurd (.exit reached) (resting.not_makes (by decide))
  | gone panic? => exact .inr ⟨panic?, rfl⟩

/-- A supervisor that is patient and has nothing to wait for says what the body came to. -/
theorem verdict_of_resting (sound : Sound body moves state) (patient : .timeOut ∉ moves)
    (resting : state.Resting) : state.verdict? = direct body := by
  have knows := sound.supervisor
  have rests := sound.worker_of_resting resting
  cases reached : state.supervisor with
  | receiving =>
      rcases rests with ⟨-, rfl⟩ | ⟨panic?, gone⟩
      · simp only [State.verdict?, reached, direct]
      · cases sent : state.message? with
        | some value => exact absurd (.take reached sent) (resting.not_makes (by decide))
        | none =>
            have closed : state.worker.hasClosed = true := by rw [gone]; rfl
            exact absurd (.miss reached sent closed) (resting.not_makes (by decide))
  | joining message? =>
      rcases rests with ⟨-, rfl⟩ | ⟨panic?, gone⟩
      · rw [reached] at knows
        nomatch knows
      · exact absurd (.join reached gone) (resting.not_makes (by decide))
  | done verdict =>
      rw [reached] at knows
      cases knows with
      | returned _ returned => simp only [State.verdict?, reached, returned, direct]
      | raised _ panicked => simp only [State.verdict?, reached, panicked, direct]
      | timedOut impatient => exact absurd impatient patient

end Sound

/-- A run can be brought to rest without the supervisor's patience coming to an end. -/
theorem Run.exists_resting (run : Run body moves state) :
    ∃ later last, Run body (moves ++ later) last ∧ .timeOut ∉ later ∧ last.Resting := by
  induction left : state.left using Nat.strongRecOn generalizing moves state with
  | ind left ih =>
      by_cases resting : state.Resting
      · exact ⟨[], state, by rwa [List.append_nil], List.not_mem_nil, resting⟩
      · obtain ⟨move, moves?⟩ := Classical.not_forall.mp resting
        obtain ⟨patient, possible⟩ := Classical.not_imp.mp moves?
        obtain ⟨next, made⟩ := Option.ne_none_iff_exists'.mp possible
        obtain ⟨later, last, goesOn, without, rests⟩ :=
          ih next.left (left ▸ left_lt made) (run.step made) rfl
        refine ⟨move :: later, last, ?_, ?_, rests⟩
        · rwa [List.append_assoc] at goesOn
        · simp [without, patient.symm]

/-! ## Verdicts -/

/-- However the moves of the worker and the supervisor are interleaved, the supervisor returns only
what the body returned, goes on with a panic only if the body panicked with it, and says nothing
else unless its patience has ended, which it then says. The worker is gone as the body ended,
whether or not anybody waits for it. A run makes a few moves only and can always be brought to rest
without the supervisor's patience coming to an end; what has been said by then is what is said if
there is no watchdog. -/
theorem watchdog_is_transparent (run : Run body moves state) :
    (∀ verdict, state.verdict? = some verdict →
      (∃ value, verdict = .returned value ∧ body = .returns value) ∨
      (∃ panic, verdict = .raised panic ∧ body = .panics panic) ∨
      (verdict = .timedOut ∧ .timeOut ∈ moves ∧
        verdict.result = .error "test exceeded 10s timeout - likely a lost wake-up")) ∧
    (.timeOut ∈ moves → state.verdict? = some .timedOut) ∧
    (∀ panic?, state.worker = .gone panic? → body.end? = some panic?) ∧
    moves.length ≤ 6 ∧
    (.timeOut ∉ moves →
      (state.Resting → state.verdict? = supervise (some "1") body) ∧
      ∃ later last, Run body (moves ++ later) last ∧ .timeOut ∉ moves ++ later ∧
        last.Resting) := by
  have sound := run.sound
  have knows := sound.supervisor
  refine ⟨?_, ?_, ?_, ?_, ?_⟩
  · intro verdict said
    cases reached : state.supervisor with
    | receiving | joining =>
        simp only [State.verdict?, reached] at said
        cases said
    | done =>
        simp only [State.verdict?, reached] at said
        cases said
        rw [reached] at knows
        cases knows with
        | returned _ returned => exact .inl ⟨_, rfl, returned⟩
        | raised _ panicked => exact .inr (.inl ⟨_, rfl, panicked⟩)
        | timedOut impatient => exact .inr (.inr ⟨rfl, impatient, rfl⟩)
  · intro impatient
    cases reached : state.supervisor with
    | receiving =>
        rw [reached] at knows
        cases knows with
        | receiving patient => exact absurd impatient patient
    | joining =>
        rw [reached] at knows
        cases knows with
        | told patient | untold patient => exact absurd impatient patient
    | done verdict =>
        rw [reached] at knows
        simp only [State.verdict?, reached]
        cases knows with
        | returned patient | raised patient => exact absurd impatient patient
        | timedOut => rfl
  · intro panic? gone
    have follows := sound.worker
    rw [gone] at follows
    cases follows with
    | gone ended => exact ended
  · have bounded := run.length_le
    omega
  · intro patient
    refine ⟨sound.verdict_of_resting patient, ?_⟩
    obtain ⟨later, last, goesOn, without, rests⟩ := run.exists_resting
    refine ⟨later, last, goesOn, ?_, rests⟩
    simp [patient, without]

/-- The worker sends its value at the moment at which the supervisor gives up. -/
def lateMoves : List Move := [.finish, .send, .timeOut, .close, .exit]

/-- The supervisor learns that there is no message before the worker is gone. -/
def panickedMoves : List Move := [.finish, .close, .receive, .exit, .join]

theorem watchdog_is_transparent_in_race :
    Run (.returns 42) lateMoves (({ body := .returns 42 } : State Nat).follow lateMoves) ∧
      (({ body := .returns 42 } : State Nat).follow lateMoves).verdict? = some .timedOut ∧
      Run (.panics (.raised "lost")) panickedMoves
        (({ body := .panics (.raised "lost") } : State Nat).follow panickedMoves) ∧
      (({ body := .panics (.raised "lost") } : State Nat).follow panickedMoves).Resting ∧
      (({ body := .panics (.raised "lost") } : State Nat).follow panickedMoves).verdict? =
        supervise (some "1") (.panics (.raised "lost")) := by
  have late : Run (.returns 42) lateMoves
      (({ body := .returns 42 } : State Nat).follow lateMoves) := Run.start.follow lateMoves
  have panicked : Run (.panics (.raised "lost")) panickedMoves
      (({ body := .panics (.raised "lost") } : State Nat).follow panickedMoves) :=
    Run.start.follow panickedMoves
  have resting :
      (({ body := .panics (.raised "lost") } : State Nat).follow panickedMoves).Resting := by
    intro move patient
    cases move with
    | timeOut => exact absurd rfl patient
    | finish | send | close | exit | receive | join => rfl
  exact ⟨late, (watchdog_is_transparent late).2.1 (by decide), panicked, resting,
    ((watchdog_is_transparent panicked).2.2.2.2 (by decide)).1 resting⟩

end Latch.Watchdog
