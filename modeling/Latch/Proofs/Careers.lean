import Latch.Proofs.Sharing

/-!
# Careers

A wait, or a race, does not stay where it was made. It is held under a name or in the hands of a
call that polls it, and moves into a race when it is made the signal of one. This module follows a
future from place to place, and takes down when it is polled and what it answers.
-/

set_option autoImplicit false

namespace Latch

variable {ω σ ν : Type}

/-! ## Futures inside futures -/

namespace Future

/-- What is come to from a future by going from races to their signals so many times. -/
def part? : Nat → Future σ → Option (Future σ)
  | 0, future => some future
  | depth + 1, race _ signal => signal.part? depth
  | _ + 1, plain _ | _ + 1, ready | _ + 1, never | _ + 1, external _ => none

/-- The wait that a poll begins with. -/
def wait? : Future σ → Option Wait
  | plain wait => some wait
  | race wait _ => wait
  | ready | never | external _ => none

/-- A future is polled, or goes on when its signal came back, and finds the events like this. -/
inductive Stage (ω σ : Type) where
  | polls (waker : ω) (found : Events ω)
  | resumes (response : Response σ) (found : Events ω)

namespace Stage

variable [Waker ω]

def apply (future : Future σ) : Stage ω σ → Polled σ ω
  | polls waker found => future.poll waker found
  | resumes response found => future.resume response found

def found : Stage ω σ → Events ω
  | polls _ found | resumes _ found => found

/-- What is done with the signal of a race, if anything is. -/
def inner? (wait : Wait) : Stage ω σ → Option (Stage ω σ)
  | polls waker found =>
      match (wait.poll waker found).outcome with
      | .ok false => some (.polls waker (wait.poll waker found).events)
      | .ok true | .error _ => none
  | resumes response found => some (.resumes response found)

/-- What is done with the part of a future, if anything is. -/
def at? : Nat → Future σ → Stage ω σ → Option (Stage ω σ)
  | 0, _, stage => some stage
  | depth + 1, .race (some wait) signal, stage => (stage.inner? wait).bind (at? depth signal)
  | _ + 1, .race none _, _ | _ + 1, .plain _, _ | _ + 1, .ready, _ | _ + 1, .never, _ => none
  | _ + 1, .external _, _ => none

theorem apply_handles (stage : Stage ω σ) (future : Future σ) :
    Handles stage.found future.waits (stage.apply future).trace (stage.apply future).events
      (stage.apply future).future.waits := by
  cases stage with
  | polls waker found => exact future.poll_handles waker found
  | resumes response found => exact future.resume_handles response found

/-- A stage of a race leaves it with what the stage made of its signal. -/
theorem apply_race (stage : Stage ω σ) (wait? : Option Wait) (signal : Future σ) :
    ∃ after?, (stage.apply (.race wait? signal)).future =
      .race after? (((wait?.bind stage.inner?).elim signal fun inner =>
        (inner.apply signal).future)) := by
  cases wait? with
  | none => cases stage <;> exact ⟨none, rfl⟩
  | some wait =>
      cases stage with
      | resumes response found =>
          rcases future_conclude wait (signal.resume response found) with kept | settled
          · exact ⟨_, kept⟩
          · exact ⟨_, settled⟩
      | polls waker found =>
          simp only [apply, poll, Option.bind_some, inner?]
          cases outcome : (wait.poll waker found).outcome with
          | error panic => exact ⟨_, rfl⟩
          | ok answer =>
              cases answer with
              | true => exact ⟨none, future_settle ..⟩
              | false =>
                  rcases future_conclude (wait.poll waker found).wait
                    (signal.poll waker (wait.poll waker found).events) with kept | settled
                  · exact ⟨_, kept⟩
                  · exact ⟨_, settled⟩

theorem part?_apply {stage : Stage ω σ} {future part : Future σ} {depth : Nat}
    (found : future.part? depth = some part) :
    (stage.apply future).future.part? depth =
      some ((stage.at? depth future).elim part fun inner => (inner.apply part).future) := by
  induction depth generalizing future stage with
  | zero =>
      cases found
      rfl
  | succ depth ih =>
      cases future with
      | plain | ready | never | external => cases found
      | race wait? signal =>
          obtain ⟨after?, same⟩ := stage.apply_race wait? signal
          rw [same]
          cases wait? with
          | none => exact found
          | some wait =>
              simp only [part?, at?, Option.bind_some]
              cases inner : stage.inner? wait with
              | none => exact found
              | some next => exact ih found

end Stage

end Future

/-! ## Places -/

/-- Where a caller's future is: under its name, or in the hands of a call that polls it. The calls
are counted from the outermost one. -/
inductive Spot (ν : Type) where
  | held (name : ν)
  | inHand (level : Nat)
  deriving DecidableEq

/-- A spot, and how many races the future there has to be gone into. -/
structure Place (ν : Type) where
  spot : Spot ν
  depth : Nat := 0

def Call.future? : Call ω σ ν → Option (Future σ)
  | .polling _ holding _ => some holding.future
  | .setting .. | .releasingAll .. | .releasingOne .. | .draining .. | .waking .. => none

theorem Call.future?_of_polls? {call : Call ω σ ν} (noPoll : call.polls? = none) :
    call.future? = none := by
  cases call with
  | polling => cases noPoll
  | setting | releasingAll | releasingOne | draining | waking => rfl

/-- The future in the hands of a call, counted from the outermost one. -/
def Call.inHand? (calls : List (Call ω σ ν)) (level : Nat) : Option (Future σ) :=
  calls.reverse[level]?.bind Call.future?

theorem Call.inHand?_cons (call : Call ω σ ν) (calls : List (Call ω σ ν)) (level : Nat) :
    Call.inHand? (call :: calls) level =
      if level = calls.length then call.future? else Call.inHand? calls level := by
  unfold Call.inHand?
  rw [List.reverse_cons]
  split
  · next top => simp [top]
  · next below =>
      rcases Nat.lt_or_gt_of_ne below with under | above
      · rw [List.getElem?_append_left (by simpa using under)]
      · have outside : calls.length + 1 ≤ level := above
        rw [List.getElem?_eq_none (by simpa using outside),
          List.getElem?_eq_none (by simpa using Nat.le_of_lt above)]

theorem Call.inHand?_length (calls : List (Call ω σ ν)) :
    Call.inHand? calls calls.length = none := by
  rw [Call.inHand?, List.getElem?_eq_none (by simp), Option.bind_none]

theorem Call.inHand?_quiet {call : Call ω σ ν} (noPoll : call.polls? = none)
    (calls : List (Call ω σ ν)) (level : Nat) :
    Call.inHand? (call :: calls) level = Call.inHand? calls level := by
  rw [Call.inHand?_cons, Call.future?_of_polls? noPoll]
  split
  · next top => rw [top, Call.inHand?_length]
  · rfl

theorem Turn.Quiet.inHand? {base : List (Call ω σ ν)} {turn : Turn ω σ ν} (quiet : turn.Quiet base)
    (level : Nat) : Call.inHand? turn.machine.calls level = Call.inHand? base level := by
  unfold Turn.Quiet at quiet
  split at quiet
  · obtain ⟨call, calls, noPoll⟩ := quiet
    rw [calls, Call.inHand?_quiet noPoll]
  · exact quiet.elim
  · rw [quiet]
  · rw [quiet]

/-- Whether a call asks for an external signal. -/
def Control.asks : Control ω σ → Bool
  | .ask _ => true
  | .wake _ | .done _ | .panicked _ => false

def Progress.asks? : Progress σ → Bool
  | .asks _ => true
  | .answered _ | .panicked _ => false

namespace Machine

variable [DecidableEq ν]

def future? (machine : Machine ω σ ν) : Spot ν → Option (Future σ)
  | .held name => (machine.futures.get? name).map (·.future)
  | .inHand level => Call.inHand? machine.calls level

def part? (machine : Machine ω σ ν) (place : Place ν) : Option (Future σ) :=
  (machine.future? place.spot).bind (Future.part? place.depth)

variable [Waker ω]

/-- What a move does with the future at a spot, if anything. -/
def stage? (machine : Machine ω σ ν) : Move ω σ ν → Spot ν → Option (Future.Stage ω σ)
  | .perform _ (.poll name waker), .held own =>
      if own = name then some (.polls waker machine.events) else none
  | .resume response _, .inHand level =>
      if level + 1 = machine.calls.length then some (.resumes response machine.events) else none
  | .perform .., _ | .resume .., .held _ => none

/-- Where a future is after a move; nowhere, if it was dropped. -/
def carry (machine : Machine ω σ ν) (next : Move ω σ ν) (place : Place ν) : Option (Place ν) :=
  match next with
  | .perform _ (.makeWait name _ _) | .perform _ (.drop name) =>
      if place.spot = .held name then none else some place
  | .perform choice (.poll name waker) =>
      if place.spot = .held name ∧ (machine.perform choice (.poll name waker)).control.asks then
        some { place with spot := .inHand machine.calls.length }
      else some place
  | .perform _ (.race name (.future other)) =>
      match machine.future? (.held name) with
      | some (.plain _) =>
          if place.spot = .held other ∧ other ≠ name then
            some { spot := .held name, depth := place.depth + 1 }
          else some place
      | _ => some place
  | .resume .. =>
      match machine.calls with
      | .polling name _ _ :: rest =>
          if place.spot = .inHand rest.length then some { place with spot := .held name }
          else if place.spot = .held name then none
          else some place
      | _ => some place
  | .perform .. => some place

/-- What a move does with the future at a place, if anything. -/
def visit? (machine : Machine ω σ ν) (next : Move ω σ ν) (place : Place ν) :
    Option (Future.Stage ω σ) :=
  (machine.future? place.spot).bind fun root =>
    (machine.stage? next place.spot).bind (Future.Stage.at? place.depth root)

/-! ## What a move does with the futures -/

/-- What becomes of the futures in a move: all stay where they are, or one is dropped, made, raced
or seen to. -/
inductive Shift (machine : Machine ω σ ν) (next : Move ω σ ν) (after : Machine ω σ ν) : Prop
  | still (futures : ∀ spot, after.future? spot = machine.future? spot)
      (carries : ∀ place root, machine.future? place.spot = some root →
        machine.carry next place = some place)
      (idle : ∀ spot root, machine.future? spot = some root → machine.stage? next spot = none)
  | dropped (name : ν)
      (futures : ∀ spot, after.future? spot =
        if spot = .held name then none else machine.future? spot)
      (carries : ∀ place, machine.carry next place =
        if place.spot = .held name then none else some place)
      (idle : ∀ spot, machine.stage? next spot = none)
  | made (name : ν) (event : EventId) (hold : Hold)
      (futures : ∀ spot, after.future? spot =
        if spot = .held name then some (.plain { event, hold }) else machine.future? spot)
      (carries : ∀ place, machine.carry next place =
        if place.spot = .held name then none else some place)
      (idle : ∀ spot, machine.stage? next spot = none)
  | raced (name : ν) (wait : Wait) (signal : Future σ)
      (was : machine.future? (.held name) = some (.plain wait))
      (bare : signal.wait? = none ∧ signal.isRace = false)
      (asks : ∃ choice signal, next = .perform choice (.race name signal))
      (futures : ∀ spot, after.future? spot =
        if spot = .held name then some (.race (some wait) signal) else machine.future? spot)
      (carries : ∀ place, machine.carry next place = some place)
      (idle : ∀ spot, machine.stage? next spot = none)
  | handed (name other : ν) (wait : Wait) (signal : Future σ) (apart : other ≠ name)
      (was : machine.future? (.held name) = some (.plain wait))
      (hands : machine.future? (.held other) = some signal)
      (asks : ∃ choice, next = .perform choice (.race name (.future other)))
      (futures : ∀ spot, after.future? spot =
        if spot = .held name then some (.race (some wait) signal)
        else if spot = .held other then none else machine.future? spot)
      (carries : ∀ place, machine.carry next place =
        if place.spot = .held other then some { spot := .held name, depth := place.depth + 1 }
        else some place)
      (idle : ∀ spot, machine.stage? next spot = none)
  | staged (source target : Spot ν) (root : Future σ) (stage : Future.Stage ω σ)
      (was : machine.future? source = some root)
      (asks : ∀ level, target = .inHand level → (stage.apply root).progress.asks? = true)
      (futures : ∀ spot, after.future? spot =
        if spot = target then some (stage.apply root).future
        else if spot = source then none else machine.future? spot)
      (carries : ∀ place other, machine.future? place.spot = some other →
        machine.carry next place =
          if place.spot = source then some { place with spot := target }
          else if place.spot = target then none else some place)
      (stages : ∀ spot other, machine.future? spot = some other →
        machine.stage? next spot = if spot = source then some stage else none)

section

variable {machine : Machine ω σ ν}

omit [Waker ω] in
theorem future?_congr {after : Machine ω σ ν} (futures : after.futures = machine.futures)
    (calls : ∀ level, Call.inHand? after.calls level = Call.inHand? machine.calls level)
    (spot : Spot ν) : after.future? spot = machine.future? spot := by
  cases spot with
  | held own => simp only [future?, futures]
  | inHand level => exact calls level

omit [Waker ω] in
theorem future?_insert (machine : Machine ω σ ν) (futures : Table ν (Holding σ)) (name : ν)
    (holding : Holding σ) (spot : Spot ν) :
    future? { machine with futures := futures.insert name holding } spot =
      if spot = .held name then some holding.future else future? { machine with futures } spot := by
  cases spot with
  | inHand level => simp only [future?, reduceCtorEq, if_false]
  | held own =>
      simp only [future?, Table.get?_insert, Spot.held.injEq]
      split <;> rfl

omit [Waker ω] in
theorem future?_erase (machine : Machine ω σ ν) (futures : Table ν (Holding σ)) (name : ν)
    (spot : Spot ν) :
    future? { machine with futures := futures.erase name } spot =
      if spot = .held name then none else future? { machine with futures } spot := by
  cases spot with
  | inHand level => simp only [future?, reduceCtorEq, if_false]
  | held own =>
      simp only [future?, Table.get?_erase, Spot.held.injEq]
      split <;> rfl

omit [Waker ω] in
theorem store_future? (machine : Machine ω σ ν) (name : ν) (holding : Holding σ)
    (control : Control ω σ) (spot : Spot ν) :
    (machine.store name holding control).machine.future? spot =
      if spot = .held name then some holding.future else machine.future? spot := by
  rw [← future?_insert]
  refine future?_congr ?_ (fun level => ?_) spot
  · unfold store
    simp only
    split <;> rfl
  · rw [(machine.store_spec name holding control).2.1]

omit [Waker ω] in
theorem store_asks (machine : Machine ω σ ν) (name : ν) (holding : Holding σ)
    {control : Control ω σ} (silent : control.asks = false) :
    (machine.store name holding control).control.asks = false := by
  obtain ⟨-, -, same | ⟨panic, same⟩⟩ := machine.store_spec name holding control
  · rw [same, silent]
  · rw [same]
    rfl

omit [Waker ω] in
theorem afterPoll_asks (machine : Machine ω σ ν) (name : ν) (event : EventId) (waker : ω)
    (polled : Future.Polled σ ω) :
    (machine.afterPoll name event waker polled).control.asks = polled.progress.asks? := by
  unfold afterPoll
  cases polled.progress with
  | answered answer => exact store_asks _ name _ rfl
  | panicked panic => exact store_asks _ name _ rfl
  | asks signal => rfl

omit [Waker ω] in
/-- Where a poll leads to: the future is back under its name, or in the hands of the call. -/
theorem afterPoll_future? (machine : Machine ω σ ν) (name : ν) (event : EventId) (waker : ω)
    (polled : Future.Polled σ ω) (spot : Spot ν) :
    (machine.afterPoll name event waker polled).machine.future? spot =
      if spot = (if polled.progress.asks? then .inHand machine.calls.length else .held name)
      then some polled.future else machine.future? spot := by
  have stored := fun control : Control ω σ =>
    store_future? { machine with events := polled.events } name ⟨event, polled.future⟩ control spot
  unfold afterPoll
  cases polled.progress with
  | answered answer => exact stored _
  | panicked panic => exact stored _
  | asks signal =>
      simp only [Progress.asks?, if_true]
      cases spot with
      | held own => simp only [future?, reduceCtorEq, if_false]; rfl
      | inHand level =>
          simp only [future?, push, Call.inHand?_cons, Spot.inHand.injEq]
          rfl

theorem perform_shift_of_nameless (choice : Nat) {action : Action ω σ ν}
    (nameless : action.names = []) :
    Shift machine (.perform choice action) (machine.perform choice action).machine := by
  have noPoll : action.polls? = none := by
    cases action with
    | poll => cases nameless
    | makeEvent | setEvent | makeWait | drop | race | wake => rfl
    | makeRegistry | dropRegistry | add | update | remove => rfl
    | releaseAll | releaseOne | drain => rfl
  have futures : (machine.perform choice action).machine.futures = machine.futures :=
    congrArg (·.machine.futures) (machine.perform_nameless machine.futures choice nameless)
  refine .still ?_ ?_ ?_
  · exact future?_congr futures (machine.perform_quiet choice noPoll).inHand?
  · intro place root _
    cases action with
    | makeWait | poll | drop | race => cases nameless
    | makeEvent | setEvent | wake | makeRegistry | dropRegistry => rfl
    | add | update | remove | releaseAll | releaseOne | drain => rfl
  · intro spot root _
    cases action with
    | makeWait | poll | drop | race => cases nameless
    | makeEvent | setEvent | wake | makeRegistry | dropRegistry => rfl
    | add | update | remove | releaseAll | releaseOne | drain => rfl

theorem perform_shift_of_poll (choice : Nat) (name : ν) (waker : ω) :
    Shift machine (.perform choice (.poll name waker))
      (machine.perform choice (.poll name waker)).machine := by
  cases found : machine.futures.get? name with
  | none =>
      have idle : machine.perform choice (.poll name waker) = machine.idle := by
        simp only [perform, pollFuture, found]
      refine .still ?_ ?_ ?_
      · intro spot
        rw [idle]
        rfl
      · intro place root _
        simp only [carry, idle, Machine.idle, Control.asks, Bool.false_eq_true, and_false, if_false]
      · intro spot root there
        cases spot with
        | inHand level => rfl
        | held own =>
            refine if_neg ?_
            rintro rfl
            simp only [future?, found] at there
            cases there
  | some holding =>
      have polled : machine.perform choice (.poll name waker) =
          { machine with futures := machine.futures.erase name }.afterPoll name holding.event waker
            (holding.future.poll waker machine.events) := by
        simp only [perform, pollFuture, found]
      have was : machine.future? (.held name) = some holding.future := by
        simp only [future?, found, Option.map_some]
      have left := machine.future?_erase machine.futures name
      have after := afterPoll_future? { machine with futures := machine.futures.erase name } name
        holding.event waker (holding.future.poll waker machine.events)
      have asks : (machine.perform choice (.poll name waker)).control.asks =
          (holding.future.poll waker machine.events).progress.asks? := by
        rw [polled, afterPoll_asks]
      rw [← polled] at after
      simp only [left] at after
      refine .staged (.held name) _ holding.future (.polls waker machine.events) was ?_ after ?_ ?_
      · intro level top
        split at top
        · next asks => exact asks
        · cases top
      · intro place other there
        have below : place.spot ≠ .inHand machine.calls.length := by
          intro top
          rw [top, future?, Call.inHand?_length] at there
          cases there
        simp only [carry, asks]
        cases (holding.future.poll waker machine.events).progress.asks? with
        | true => simp only [and_true, below, if_true, if_false]
        | false =>
            simp only [Bool.false_eq_true, and_false, if_false]
            by_cases here : place.spot = .held name
            · rw [if_pos here, ← here]
            · rw [if_neg here, if_neg here]
      · intro spot other _
        cases spot with
        | inHand level => rfl
        | held own => simp only [stage?, Spot.held.injEq]

omit [Waker ω] in
theorem resume_quiet_of_polls? {call : Call ω σ ν} {rest : List (Call ω σ ν)}
    (calls : machine.calls = call :: rest) (noPoll : call.polls? = none) (response : Response σ)
    (choice : Nat) : (machine.resume response choice).Quiet rest := by
  cases response with
  | panicked panic =>
      simp only [resume, calls]
      cases call with
      | polling => cases noPoll
      | setting | releasingAll | releasingOne | draining | waking => exact rfl
  | ready | pending =>
      refine (resume_quiet calls noPoll ?_ choice).2.2.1
      rintro panic ⟨⟩

theorem resume_shift_of_polling {name : ν} {holding : Holding σ} {waker : ω}
    {rest : List (Call ω σ ν)} (calls : machine.calls = .polling name holding waker :: rest)
    (response : Response σ) (choice : Nat) :
    Shift machine (.resume response choice) (machine.resume response choice).machine := by
  have silent : (holding.future.resume response machine.events).progress.asks? = false := by
    cases progress : (holding.future.resume response machine.events).progress with
    | answered | panicked => rfl
    | asks signal => exact absurd progress (Future.resume_ne_asks response _ _ signal)
  have after := afterPoll_future? { machine with calls := rest } name holding.event waker
    (holding.future.resume response machine.events)
  rw [← resume_polling calls response choice] at after
  simp only [silent, Bool.false_eq_true, if_false] at after
  have was : machine.future? (.inHand rest.length) = some holding.future := by
    rw [future?, calls, Call.inHand?_cons, if_pos rfl]
    rfl
  have left : ∀ spot, future? { machine with calls := rest } spot =
      if spot = .inHand rest.length then none else machine.future? spot := by
    intro spot
    cases spot with
    | held own => simp only [future?, reduceCtorEq, if_false]
    | inHand level =>
        simp only [future?, calls, Call.inHand?_cons, Spot.inHand.injEq]
        split
        · next top => rw [top, Call.inHand?_length]
        · rfl
  simp only [left] at after
  refine .staged (.inHand rest.length) (.held name) holding.future
    (.resumes response machine.events) was ?_ after ?_ ?_
  · rintro level ⟨⟩
  · intro place other _
    simp only [carry, calls]
  · intro spot other there
    cases spot with
    | held own => rfl
    | inHand level =>
        simp only [stage?, calls, List.length_cons, Nat.add_right_cancel_iff, Spot.inHand.injEq]

theorem resume_shift_of_quiet {call : Call ω σ ν} {rest : List (Call ω σ ν)}
    (calls : machine.calls = call :: rest) (noPoll : call.polls? = none) (response : Response σ)
    (choice : Nat) :
    Shift machine (.resume response choice) (machine.resume response choice).machine := by
  have futures : (machine.resume response choice).machine.futures = machine.futures := by
    refine congrArg (·.machine.futures)
      (machine.resume_nameless machine.futures response choice ?_)
    intro name holding waker others polling
    cases calls.symm.trans polling
    cases noPoll
  refine .still ?_ ?_ ?_
  · refine future?_congr futures fun level => ?_
    rw [calls, Call.inHand?_quiet noPoll]
    exact (resume_quiet_of_polls? calls noPoll response choice).inHand? level
  · intro place root _
    cases call with
    | polling => cases noPoll
    | setting | releasingAll | releasingOne | draining | waking => simp only [carry, calls]
  · intro spot root there
    cases spot with
    | held own => rfl
    | inHand level =>
        refine if_neg ?_
        intro top
        rw [calls, List.length_cons, Nat.add_right_cancel_iff] at top
        rw [future?, calls, Call.inHand?_quiet noPoll, top, Call.inHand?_length] at there
        cases there

theorem resume_shift (response : Response σ) (choice : Nat) :
    Shift machine (.resume response choice) (machine.resume response choice).machine := by
  cases calls : machine.calls with
  | nil =>
      refine .still ?_ ?_ ?_
      · intro spot
        simp only [resume, calls]
        rfl
      · intro place root _
        simp only [carry, calls]
      · intro spot root there
        cases spot with
        | held own => rfl
        | inHand level => simp only [stage?, calls, List.length_nil, Nat.add_one_ne_zero, if_false]
  | cons call rest =>
      cases call with
      | polling => exact resume_shift_of_polling calls response choice
      | setting | releasingAll | releasingOne | draining | waking =>
          exact resume_shift_of_quiet calls rfl response choice

theorem perform_shift_of_makeWait (choice : Nat) (name : ν) (event : EventId) (hold : Hold) :
    Shift machine (.perform choice (.makeWait name event hold))
      (machine.perform choice (.makeWait name event hold)).machine := by
  refine .made name event hold ?_ (fun _ => rfl) fun spot => by cases spot <;> rfl
  exact store_future? { machine with events := (Wait.make machine.events event hold).2 } name
    ⟨event, .plain { event, hold }⟩ (.done .nothing)

theorem perform_shift_of_drop (choice : Nat) (name : ν) :
    Shift machine (.perform choice (.drop name)) (machine.perform choice (.drop name)).machine := by
  refine .dropped name ?_ (fun _ => rfl) fun spot => by cases spot <;> rfl
  intro spot
  cases found : machine.futures.get? name with
  | some holding =>
      simp only [perform, dropFuture, found]
      exact machine.future?_erase machine.futures name spot
  | none =>
      simp only [perform, dropFuture, found]
      by_cases here : spot = .held name
      · rw [if_pos here, here, future?, Machine.idle, found, Option.map_none]
      · rw [if_neg here]
        rfl

omit [Waker ω] in
theorem future?_race {name : ν} {wait : Wait} :
    machine.future? (.held name) = some (.plain wait) ↔
      ∃ event, machine.futures.get? name = some ⟨event, .plain wait⟩ := by
  simp only [future?, Option.map_eq_some_iff]
  constructor
  · rintro ⟨⟨event, future⟩, found, same⟩
    cases same
    exact ⟨event, found⟩
  · rintro ⟨event, found⟩
    exact ⟨_, found, rfl⟩

theorem perform_shift_of_race (choice : Nat) (name : ν) (signal : Signal σ ν) :
    Shift machine (.perform choice (.race name signal))
      (machine.perform choice (.race name signal)).machine := by
  have idle : ∀ spot, machine.stage? (.perform choice (.race name signal)) spot = none := by
    intro spot
    cases spot <;> rfl
  have still : machine.perform choice (.race name signal) = machine.idle →
      (∀ place root, machine.future? place.spot = some root →
        machine.carry (.perform choice (.race name signal)) place = some place) →
      Shift machine (.perform choice (.race name signal))
        (machine.perform choice (.race name signal)).machine := by
    intro same carries
    refine .still ?_ carries fun spot _ _ => idle spot
    intro spot
    rw [same]
    rfl
  by_cases plain : ∃ wait, machine.future? (.held name) = some (.plain wait)
  · obtain ⟨wait, was⟩ := plain
    obtain ⟨event, found⟩ := future?_race.mp was
    have bare : ∀ future, takeSignal? (machine.futures.erase name) signal =
        some (future, machine.futures.erase name) →
        future.wait? = none ∧ future.isRace = false →
        (∀ place, machine.carry (.perform choice (.race name signal)) place = some place) →
        Shift machine (.perform choice (.race name signal))
          (machine.perform choice (.race name signal)).machine := by
      intro future taken bare carries
      refine .raced name wait future was bare ⟨choice, signal, rfl⟩ ?_ carries idle
      intro spot
      simp only [perform, raceFuture, found, taken]
      rw [future?_insert, future?_erase]
      split <;> rfl
    cases signal with
    | ready => exact bare _ rfl ⟨rfl, rfl⟩ fun _ => rfl
    | never => exact bare _ rfl ⟨rfl, rfl⟩ fun _ => rfl
    | external signal => exact bare _ rfl ⟨rfl, rfl⟩ fun _ => rfl
    | future other =>
        have carries : ∀ place, machine.carry (.perform choice (.race name (.future other))) place =
            if place.spot = .held other ∧ other ≠ name then
              some { spot := .held name, depth := place.depth + 1 }
            else some place := by
          intro place
          simp only [carry, was]
        by_cases apart : other = name
        · subst apart
          refine still ?_ ?_
          · simp only [perform, raceFuture, found, takeSignal?, Table.get?_erase_self,
              Option.map_none]
          · intro place root _
            simp only [carries, ne_eq, not_true_eq_false, and_false, if_false]
        · cases hands : machine.futures.get? other with
          | none =>
              refine still ?_ ?_
              · simp only [perform, raceFuture, found, takeSignal?, Table.get?_erase, if_neg apart,
                  hands, Option.map_none]
              · intro place root there
                rw [carries, if_neg]
                rintro ⟨here, -⟩
                rw [here, future?, hands] at there
                cases there
          | some holding =>
              refine .handed name other wait holding.future apart was ?_ ⟨choice, rfl⟩ ?_ ?_ idle
              · rw [future?, hands, Option.map_some]
              · intro spot
                simp only [perform, raceFuture, found, takeSignal?, Table.get?_erase, if_neg apart,
                  hands, Option.map_some]
                rw [future?_insert, future?_erase, future?_erase]
                split
                · rfl
                · rfl
              · intro place
                rw [carries]
                simp only [ne_eq, apart, not_false_eq_true, and_true]
  · refine still ?_ ?_
    · simp only [perform, raceFuture]
      split
      · next event wait found => exact absurd ⟨wait, future?_race.mpr ⟨event, found⟩⟩ plain
      · rfl
    · intro place root _
      cases signal with
      | ready | never | external => rfl
      | future other =>
          simp only [carry]
          split
          · next wait was => exact absurd ⟨wait, was⟩ plain
          · rfl

theorem move_shift (machine : Machine ω σ ν) (next : Move ω σ ν) :
    Shift machine next (machine.move next).machine := by
  cases next with
  | resume response choice => exact resume_shift response choice
  | perform choice action =>
      cases action with
      | makeWait name event hold => exact perform_shift_of_makeWait choice name event hold
      | poll name waker => exact perform_shift_of_poll choice name waker
      | drop name => exact perform_shift_of_drop choice name
      | race name signal => exact perform_shift_of_race choice name signal
      | makeEvent | setEvent | wake | makeRegistry | dropRegistry =>
          exact perform_shift_of_nameless choice rfl
      | add | update | remove | releaseAll | releaseOne | drain =>
          exact perform_shift_of_nameless choice rfl

/-- What a move makes of the future at a place, which it carries along. -/
inductive Fares (machine : Machine ω σ ν) (next : Move ω σ ν) (place : Place ν)
    (part after : Future σ) : Prop
  | left (unvisited : machine.visit? next place = none) (same : after = part)
  | raced (unvisited : machine.visit? next place = none) (wait : Wait) (signal : Future σ)
      (was : part = .plain wait) (now : after = .race (some wait) signal)
  | visited (stage : Future.Stage ω σ) (visits : machine.visit? next place = some stage)
      (now : after = (stage.apply part).future)

theorem visit?_of_idle {next : Move ω σ ν} {place : Place ν} {root : Future σ}
    (there : machine.future? place.spot = some root)
    (idle : machine.stage? next place.spot = none) : machine.visit? next place = none := by
  rw [visit?, there, Option.bind_some, idle, Option.bind_none]

omit [Waker ω] in
theorem part?_of_future? {spot : Spot ν} {root : Future σ}
    (there : machine.future? spot = some root) (depth : Nat) :
    machine.part? ⟨spot, depth⟩ = root.part? depth := by
  rw [part?, there, Option.bind_some]

theorem fares {next : Move ω σ ν} {place after : Place ν} {part : Future σ}
    (there : machine.part? place = some part) (carried : machine.carry next place = some after) :
    ∃ now, (machine.move next).machine.part? after = some now ∧
      Fares machine next place part now := by
  obtain ⟨root, found, inner⟩ := Option.bind_eq_some_iff.mp there
  have same : (machine.move next).machine.future? place.spot = machine.future? place.spot →
      machine.visit? next place = none → some place = some after →
      ∃ now, (machine.move next).machine.part? after = some now ∧
        Fares machine next place part now := by
    rintro still unvisited ⟨⟩
    rw [found] at still
    exact ⟨part, (part?_of_future? still _).trans inner, .left unvisited rfl⟩
  -- The wait of a race stands where the plain wait stood.
  have raced : ∀ wait signal, root = .plain wait → machine.visit? next place = none →
      (machine.move next).machine.future? place.spot = some (.race (some wait) signal) →
      some place = some after →
      ∃ now, (machine.move next).machine.part? after = some now ∧
        Fares machine next place part now := by
    rintro wait signal rfl unvisited stands ⟨⟩
    obtain ⟨spot, depth⟩ := place
    cases depth with
    | zero =>
        cases inner
        exact ⟨_, (part?_of_future? stands _).trans rfl, .raced unvisited wait signal rfl rfl⟩
    | succ depth => cases inner
  cases move_shift machine next with
  | still futures carries idle =>
      refine same (futures _) (visit?_of_idle found (idle _ root found)) ?_
      rw [← carries place root found, carried]
  | dropped name futures carries idle | made name _ _ futures carries idle =>
      rw [carries] at carried
      split at carried
      · cases carried
      · next apart =>
          exact same ((futures _).trans (if_neg apart)) (visit?_of_idle found (idle _)) carried
  | raced name wait signal was bare asks futures carries idle =>
      have unvisited := visit?_of_idle found (idle place.spot)
      rw [carries] at carried
      by_cases here : place.spot = .held name
      · have plain : root = .plain wait := by
          rw [here, was] at found
          exact (Option.some.inj found).symm
        exact raced wait signal plain unvisited ((futures _).trans (if_pos here)) carried
      · exact same ((futures _).trans (if_neg here)) unvisited carried
  | handed name other wait signal apart was hands asks futures carries idle =>
      have unvisited := visit?_of_idle found (idle place.spot)
      rw [carries] at carried
      by_cases moved : place.spot = .held other
      · rw [if_pos moved] at carried
        cases carried
        rw [moved, hands] at found
        cases found
        have stands := futures (.held name)
        rw [if_pos rfl] at stands
        exact ⟨part, (part?_of_future? stands (place.depth + 1)).trans inner, .left unvisited rfl⟩
      · rw [if_neg moved] at carried
        by_cases here : place.spot = .held name
        · have plain : root = .plain wait := by
            rw [here, was] at found
            exact (Option.some.inj found).symm
          exact raced wait signal plain unvisited ((futures _).trans (if_pos here)) carried
        · refine same ((futures _).trans ?_) unvisited carried
          rw [if_neg here, if_neg moved]
  | staged source target other stage was asks futures carries stages =>
      have staged := stages place.spot root found
      rw [carries place root found] at carried
      by_cases here : place.spot = source
      · rw [if_pos here] at carried staged
        cases carried
        rw [here, was] at found
        cases found
        have stands := futures target
        rw [if_pos rfl] at stands
        refine ⟨_, (part?_of_future? stands place.depth).trans (stage.part?_apply inner), ?_⟩
        have visits : machine.visit? next place = stage.at? place.depth root := by
          rw [visit?, here, was, Option.bind_some, ← here, staged, Option.bind_some]
        cases reached : stage.at? place.depth root with
        | none => exact .left (visits.trans reached) rfl
        | some inner => exact .visited inner (visits.trans reached) rfl
      · rw [if_neg here] at carried staged
        split at carried
        · cases carried
        · next apart =>
            refine same ((futures _).trans ?_) (visit?_of_idle found staged) carried
            rw [if_neg apart, if_neg here]

omit [Waker ω] in
theorem waits_perm_of_future? {spot : Spot ν} {future : Future σ}
    (found : machine.future? spot = some future) :
    ∃ others, machine.waits.Perm (future.waits ++ others) := by
  cases spot with
  | held name =>
      obtain ⟨holding, stored, rfl⟩ := Option.map_eq_some_iff.mp found
      exact ⟨_, waits_perm_of_get? stored⟩
  | inHand level =>
      obtain ⟨call, suspended, hands⟩ := Option.bind_eq_some_iff.mp found
      have member : call ∈ machine.calls := List.mem_reverse.mp (List.mem_of_getElem? suspended)
      obtain ⟨above, below, split⟩ := List.append_of_mem member
      have waits : call.waits = future.waits := by
        cases call with
        | polling => cases hands; rfl
        | setting | releasingAll | releasingOne | draining | waking => cases hands
      refine ⟨held machine.futures ++ (above.flatMap Call.waits ++ below.flatMap Call.waits), ?_⟩
      rw [Machine.waits, split, List.flatMap_append, List.flatMap_cons, waits]
      refine ((List.perm_append_comm_assoc _ _ _).append_left _).trans ?_
      exact List.perm_append_comm_assoc _ _ _

omit [Waker ω] in
theorem stage?_eq_some {next : Move ω σ ν} {spot : Spot ν} {stage : Future.Stage ω σ}
    (staged : machine.stage? next spot = some stage) :
    (∃ choice name waker, next = .perform choice (.poll name waker) ∧ spot = .held name ∧
        stage = .polls waker machine.events) ∨
      ∃ response choice level, next = .resume response choice ∧ spot = .inHand level ∧
        stage = .resumes response machine.events := by
  cases next with
  | perform choice action =>
      cases action with
      | poll name waker =>
          cases spot with
          | inHand => cases staged
          | held own =>
              simp only [stage?] at staged
              split at staged
              · next same =>
                  cases staged
                  exact .inl ⟨choice, name, waker, rfl, congrArg _ same, rfl⟩
              · cases staged
      | makeEvent | setEvent | makeWait | drop | race | wake => cases staged
      | makeRegistry | dropRegistry | add | update | remove => cases staged
      | releaseAll | releaseOne | drain => cases staged
  | resume response choice =>
      cases spot with
      | held => cases staged
      | inHand level =>
          simp only [stage?] at staged
          split at staged
          · cases staged
            exact .inr ⟨response, choice, level, rfl, rfl, rfl⟩
          · cases staged

omit [Waker ω] in
theorem stage?_found {next : Move ω σ ν} {spot : Spot ν} {stage : Future.Stage ω σ}
    (staged : machine.stage? next spot = some stage) : stage.found = machine.events := by
  rcases stage?_eq_some staged with ⟨_, _, _, -, -, rfl⟩ | ⟨_, _, _, -, -, rfl⟩ <;> rfl

theorem exists_stage {next : Move ω σ ν} {place : Place ν} {part : Future σ}
    (there : machine.part? place = some part) {inner : Future.Stage ω σ}
    (visits : machine.visit? next place = some inner) :
    ∃ root stage, machine.future? place.spot = some root ∧
      root.part? place.depth = some part ∧ machine.stage? next place.spot = some stage ∧
      stage.at? place.depth root = some inner := by
  obtain ⟨root, found, inside⟩ := Option.bind_eq_some_iff.mp there
  rw [visit?, found, Option.bind_some] at visits
  obtain ⟨stage, staged, reached⟩ := Option.bind_eq_some_iff.mp visits
  exact ⟨root, stage, found, inside, staged, reached⟩

end

end Machine

/-! ## What a career is made of -/

/-- What is followed: a wait, also when it is raced, or a race. -/
inductive Kind where
  | wait
  | race

/-- What is taken down of a wait or a race. -/
inductive Note (ω : Type) where
  /-- A poll begins, and finds the event like this. -/
  | begun (waker : ω) (set : Bool)
  /-- What the trace records of a wait that is polled. -/
  | told (occurrence : Occurrence ω)
  | answered (answer : Answer)
  | broke (panic : Panic)

namespace Kind

/-- Whether a future is a wait, or a race that still has its wait; or whether it is a race. -/
def stands : Kind → Future σ → Bool
  | wait, part => part.wait?.isSome
  | race, part => part.isRace

def isTerminated : Kind → Future σ → Bool
  | wait, part => part.wait?.any Wait.isTerminated
  | race, part => part.isTerminated

end Kind

def Progress.notes : Progress σ → List (Note ω)
  | .answered answer => [.answered answer]
  | .panicked panic => [.broke panic]
  | .asks _ => []

variable [Waker ω]

/-- How a wait that is polled answers. -/
def Wait.answers (polled : Wait.Polled ω) : Note ω :=
  match polled.outcome with
  | .ok true => .answered .completed
  | .ok false => .answered .pending
  | .error panic => .broke panic

def Wait.notes (wait : Wait) (waker : ω) (found : Events ω) : List (Note ω) :=
  .begun waker (found.get wait.event).isSet ::
    ((wait.poll waker found).trace.map .told ++ [Wait.answers (wait.poll waker found)])

theorem Wait.notes_of_set {wait : Wait} {found : Events ω}
    (set : (found.get wait.event).isSet = true)
    (waker : ω) : wait.notes waker found = [.begun waker true, .answered .completed] := by
  simp only [notes, poll_of_set set, set, answers, List.map_nil, List.nil_append]

/-- What is taken down of a future that is polled, or goes on. -/
def Future.Stage.notes (part : Future σ) : Kind → Future.Stage ω σ → List (Note ω)
  | .wait, .polls waker found => part.wait?.elim [] (Wait.notes · waker found)
  | .wait, .resumes .. => []
  | .race, .polls waker found =>
      .begun waker (part.wait?.any fun wait => (found.get wait.event).isSet) ::
        (part.poll waker found).progress.notes
  | .race, .resumes response found => (part.resume response found).progress.notes

namespace Machine

variable [DecidableEq ν]

/-- What is taken down of the future at a place. -/
def notes (machine : Machine ω σ ν) (kind : Kind) (next : Move ω σ ν) (place : Place ν) :
    List (Note ω) :=
  match machine.part? place, machine.visit? next place with
  | some part, some stage => stage.notes part kind
  | _, _ => []

theorem notes_of_unvisited {machine : Machine ω σ ν} {next : Move ω σ ν} {place : Place ν}
    (unvisited : machine.visit? next place = none) (kind : Kind) :
    machine.notes kind next place = [] := by
  unfold notes
  rw [unvisited]
  cases machine.part? place <;> rfl

theorem notes_of_visits {machine : Machine ω σ ν} {next : Move ω σ ν} {place : Place ν}
    {part : Future σ} (there : machine.part? place = some part) {stage : Future.Stage ω σ}
    (visits : machine.visit? next place = some stage) (kind : Kind) :
    machine.notes kind next place = stage.notes part kind := by
  unfold notes
  rw [there, visits]

/-- A machine came about by moves that keep to a rule. -/
inductive Ruled (rule : Machine ω σ ν → Move ω σ ν → Prop) :
    List (Occurrence ω) → Machine ω σ ν → Prop
  | start : Ruled rule [] {}
  | step {history : List (Occurrence ω)} {machine : Machine ω σ ν}
      (ruled : Ruled rule history machine) (next : Move ω σ ν) (allowed : rule machine next) :
      Ruled rule (history ++ (machine.move next).trace) (machine.move next).machine

/-- A wait or a race was made in a run that keeps to a rule, and is at this place now; the log tells
when it was polled since, and what it answered. The last move may have been the end of it. -/
inductive Career (rule : Machine ω σ ν → Move ω σ ν → Prop) :
    Kind → List (Occurrence ω) → Machine ω σ ν → Place ν → List (Note ω) → Prop
  | made {history : List (Occurrence ω)} {machine : Machine ω σ ν}
      (ruled : Ruled rule history machine) (choice : Nat) (name : ν) (event : EventId) (hold : Hold)
      (allowed : rule machine (.perform choice (.makeWait name event hold))) :
      Career rule .wait
        (history ++ (machine.perform choice (.makeWait name event hold)).trace)
        (machine.perform choice (.makeWait name event hold)).machine { spot := .held name } []
  | raced {history : List (Occurrence ω)} {machine : Machine ω σ ν}
      (ruled : Ruled rule history machine) (choice : Nat) (name : ν) (signal : Signal σ ν)
      (allowed : rule machine (.perform choice (.race name signal))) {wait : Wait}
      {future : Future σ} (was : machine.future? (.held name) = some (.plain wait))
      (now : (machine.perform choice (.race name signal)).machine.future? (.held name) =
        some (.race (some wait) future)) :
      Career rule .race (history ++ (machine.perform choice (.race name signal)).trace)
        (machine.perform choice (.race name signal)).machine { spot := .held name } []
  | step {kind : Kind} {history : List (Occurrence ω)} {machine : Machine ω σ ν}
      {place after : Place ν} {log : List (Note ω)} {part : Future σ}
      (career : Career rule kind history machine place log)
      (there : machine.part? place = some part) (stands : kind.stands part = true)
      (next : Move ω σ ν) (allowed : rule machine next)
      (carried : machine.carry next place = some after) :
      Career rule kind (history ++ (machine.move next).trace) (machine.move next).machine after
        (log ++ machine.notes kind next place)

section

variable {rule : Machine ω σ ν → Move ω σ ν → Prop} {history : List (Occurrence ω)}
  {machine : Machine ω σ ν} {kind : Kind} {place : Place ν} {log : List (Note ω)}

theorem Ruled.run (ruled : Ruled rule history machine) : Run history machine := by
  induction ruled with
  | start => exact .start
  | step _ next _ run => exact run.step next

theorem Career.ruled (career : Career rule kind history machine place log) :
    Ruled rule history machine := by
  induction career with
  | made ruled choice name event hold allowed => exact ruled.step _ allowed
  | raced ruled choice name signal allowed => exact ruled.step _ allowed
  | step _ _ _ next allowed _ ruled => exact ruled.step next allowed

end

end Machine

end Latch
