import Latch.Pool.Task
import Latch.Proofs.Ownership
import Latch.Proofs.Steps
import Mathlib.Data.List.Perm.Basic

/-!
# Runs

A run makes calls and lets suspended calls go on, in any order. The main statement here is that a
run never loses track of a registration: a set event has no waiters, and an unset event has those
that live waits own, each of them once. Tokens are words, so this is said of an event only while it
has handed out no more tokens than there are.
-/

set_option autoImplicit false

namespace Latch

variable {ω σ ν : Type}

theorem perm_of_pick? {α : Type} {items : List α} {choice : Nat} {item : α} {rest : List α}
    (picked : pick? items choice = some (item, rest)) : items.Perm (item :: rest) := by
  simp only [pick?, Option.map_eq_some_iff, Prod.mk.injEq] at picked
  obtain ⟨_, found, rfl, rfl⟩ := picked
  obtain ⟨inside, rfl⟩ := List.getElem?_eq_some_iff.mp found
  exact (List.getElem_cons_eraseIdx_perm inside).symm

namespace Machine

/-! ## Setting an event -/

theorem continueSet_nil (machine : Machine ω σ ν) (event : EventId) (released choice : Nat) :
    machine.continueSet event released [] choice =
      { machine, trace := [.eventSet event released], control := .done .nothing } := rfl

theorem continueSet_of_ne_nil (machine : Machine ω σ ν) (event : EventId) (released choice : Nat)
    {remaining : List (Token × ω)} (waiting : remaining ≠ []) :
    ∃ entry rest, remaining.Perm (entry :: rest) ∧
      machine.continueSet event released remaining choice =
        { machine := machine.push (.setting event released rest)
          trace := [.woken (some event) entry.1 entry.2], control := .wake entry.2 } := by
  unfold continueSet
  cases picked : pick? remaining choice with
  | none => exact absurd (pick?_eq_none_iff.mp picked) waiting
  | some result => exact ⟨result.1, result.2, perm_of_pick? picked, rfl⟩

theorem continueSet_same (machine : Machine ω σ ν) (event : EventId) (released choice : Nat)
    (remaining : List (Token × ω)) :
    (machine.continueSet event released remaining choice).machine.events = machine.events ∧
      (machine.continueSet event released remaining choice).machine.futures = machine.futures ∧
      (machine.continueSet event released remaining choice).machine.waits = machine.waits := by
  unfold continueSet
  split
  · exact ⟨rfl, rfl, rfl⟩
  · exact ⟨rfl, rfl, rfl⟩

theorem setEvent_of_set {machine : Machine ω σ ν} {id : EventId}
    (set : (machine.events.get id).isSet = true) (choice : Nat) :
    machine.setEvent id choice = machine.idle := by
  simp only [setEvent, Event.trip, set, if_true]

/-- An unset event is set first and has its registry taken out; then the release begins. -/
theorem setEvent_eq_of_unset {machine : Machine ω σ ν} {id : EventId}
    (free : (machine.events.get id).waiters.inUse = false)
    (unset : (machine.events.get id).isSet = false) (choice : Nat) :
    machine.setEvent id choice =
      let registry := (machine.events.get id).registry
      let tripped := machine.events.put id (machine.events.get id).tripped
      let turn := { machine with events := tripped }.continueSet id registry.size registry.entries
        choice
      { turn with trace := .releasingAll (some id) registry.size :: turn.trace } := by
  simp only [setEvent, Event.trip_of_unset unset free]

theorem setEvent_of_unset {machine : Machine ω σ ν} {id : EventId}
    (owned : Owned machine.events machine.waits) (unset : (machine.events.get id).isSet = false)
    (choice : Nat) :
    ∃ event, event.isSet = true ∧ Owned (machine.events.put id event) machine.waits ∧
      machine.setEvent id choice =
        let registry := (machine.events.get id).registry
        let turn := { machine with events := machine.events.put id event }.continueSet id
          registry.size registry.entries choice
        { turn with trace := .releasingAll (some id) registry.size :: turn.trace } :=
  ⟨_, rfl, owned.tripped id, setEvent_eq_of_unset (owned.free id) unset choice⟩

/-! ## Handing out tokens -/

section

variable [Waker ω] [DecidableEq ν]

/-- The future that stood under the name is dropped, which hands out no token. -/
theorem issued_le_store (machine : Machine ω σ ν) (name : ν) (holding : Holding σ)
    (control : Control ω σ) (id : EventId) :
    (machine.events.get id).registry.issued ≤
      ((machine.store name holding control).machine.events.get id).registry.issued := by
  unfold store
  split
  · exact Nat.le_refl _
  · next previous found => exact (previous.future.drop_handles machine.events).issued_le id

theorem issued_le_afterPoll (machine : Machine ω σ ν) (name : ν) (event : EventId) (waker : ω)
    (polled : Future.Polled σ ω) (id : EventId) :
    (polled.events.get id).registry.issued ≤
      ((machine.afterPoll name event waker polled).machine.events.get id).registry.issued := by
  unfold afterPoll
  simp only
  split
  · exact issued_le_store { machine with events := polled.events } name _ _ id
  · exact issued_le_store { machine with events := polled.events } name _ _ id
  · exact Nat.le_refl _

theorem issued_le_pollFuture {machine : Machine ω σ ν} {name : ν} {holding : Holding σ}
    (found : machine.futures.get? name = some holding) (waker : ω) (id : EventId) :
    ((holding.future.poll waker machine.events).events.get id).registry.issued ≤
      ((machine.pollFuture name waker).machine.events.get id).registry.issued := by
  simp only [pollFuture, found]
  exact issued_le_afterPoll _ name holding.event waker _ id

end

/-! ## Runs -/

variable [DecidableEq ν]

/-- A waiter that breaks off takes the call that set the event with it. -/
theorem resume_of_setting_panicked {machine : Machine ω σ ν} {event : EventId} {released : Nat}
    {remaining : List (Token × ω)} {rest : List (Call ω σ ν)}
    (calls : machine.calls = .setting event released remaining :: rest) (panic : Panic)
    (choice : Nat) :
    machine.resume (.panicked panic) choice =
      { machine := { machine with calls := rest }, control := .panicked panic } := by
  simp only [resume, calls]

variable [Waker ω]

inductive Move (ω σ ν : Type) where
  | perform (choice : Nat) (action : Action ω σ ν)
  | resume (response : Response σ) (choice : Nat)

def move (machine : Machine ω σ ν) : Move ω σ ν → Turn ω σ ν
  | .perform choice action => machine.perform choice action
  | .resume response choice => machine.resume response choice

/-- A machine came about by moves in any order; the history tells what happened meanwhile. -/
inductive Run : List (Occurrence ω) → Machine ω σ ν → Prop
  | start : Run [] {}
  | step {history : List (Occurrence ω)} {machine : Machine ω σ ν} (run : Run history machine)
      (next : Move ω σ ν) :
      Run (history ++ (machine.move next).trace) (machine.move next).machine

/-- The history and the machine that some moves lead to. -/
def follow (moves : List (Move ω σ ν)) : List (Occurrence ω) × Machine ω σ ν :=
  moves.foldl
    (fun reached next =>
      (reached.1 ++ (reached.2.move next).trace, (reached.2.move next).machine))
    ([], {})

theorem run_follow (moves : List (Move ω σ ν)) : Run (follow moves).1 (follow moves).2 := by
  have general : ∀ (moves : List (Move ω σ ν)) (reached : List (Occurrence ω) × Machine ω σ ν),
      Run reached.1 reached.2 →
        Run (moves.foldl (fun reached next => (reached.1 ++ (reached.2.move next).trace,
            (reached.2.move next).machine)) reached).1
          (moves.foldl (fun reached next => (reached.1 ++ (reached.2.move next).trace,
            (reached.2.move next).machine)) reached).2 := by
    intro moves
    induction moves with
    | nil => exact fun _ run => run
    | cons next rest ih => exact fun reached run => ih _ (run.step next)
  exact general moves ([], {}) .start

/-- What handling waits and setting events keep of the events and the live waits. -/
structure Lasting (Kept : Events ω → List Wait → Prop) : Prop where
  handled : ∀ {events next : Events ω} {waits left : List Wait} {trace : List (Occurrence ω)},
    Handles events waits trace next left → Kept events waits → Kept next left
  tripped : ∀ {events : Events ω} {waits : List Wait} (id : EventId), Kept events waits →
    Kept (events.put id (events.get id).tripped) waits

theorem owned_lasting : Lasting (Owned (ω := ω)) :=
  ⟨fun handles owned => owned.handled handles, fun id owned => owned.tripped id⟩

section

variable {Kept : Events ω → List Wait → Prop} {machine : Machine ω σ ν}

theorem perform_keeps (lasting : Lasting Kept) (owned : Owned machine.events machine.waits)
    (kept : Kept machine.events machine.waits) (choice : Nat) (action : Action ω σ ν) :
    Kept (machine.perform choice action).machine.events
      (machine.perform choice action).machine.waits := by
  by_cases sets : ∃ event, action = .setEvent event
  · obtain ⟨id, rfl⟩ := sets
    change Kept (machine.setEvent id choice).machine.events
      (machine.setEvent id choice).machine.waits
    cases flag : (machine.events.get id).isSet with
    | true =>
        rw [setEvent_of_set flag]
        exact kept
    | false =>
        have same := setEvent_eq_of_unset (owned.free id) flag choice
        obtain ⟨events, -, waits⟩ := continueSet_same
          { machine with events := machine.events.put id (machine.events.get id).tripped } id
          (machine.events.get id).registry.size choice (machine.events.get id).registry.entries
        rw [same]
        simp only [events, waits]
        exact lasting.tripped id kept
  · have works := machine.perform_works choice fun event same => sets ⟨event, same⟩
    exact lasting.handled (works.handled (.refl _)) kept

theorem resume_keeps (lasting : Lasting Kept) (kept : Kept machine.events machine.waits)
    (response : Response σ) (choice : Nat) :
    Kept (machine.resume response choice).machine.events
      (machine.resume response choice).machine.waits := by
  cases calls : machine.calls with
  | nil =>
      simp only [resume, calls]
      exact kept
  | cons call rest =>
      cases sets : call.sets? with
      | none =>
          have works := resume_works calls sets response choice
          exact lasting.handled (works.handled (waits_perm_of_calls calls)) kept
      | some id =>
          cases call with
          | setting event released remaining =>
              have left : Kept machine.events (Machine.waits { machine with calls := rest }) :=
                lasting.handled (.reorder (waits_perm_of_calls calls)) kept
              obtain ⟨events, -, waits⟩ := continueSet_same { machine with calls := rest } event
                released choice remaining
              simp only [resume, calls]
              cases response with
              | panicked panic => exact left
              | ready | pending =>
                  simp only [events, waits]
                  exact left
          | polling | releasingAll | releasingOne | draining | waking => cases sets

theorem move_keeps (lasting : Lasting Kept) (owned : Owned machine.events machine.waits)
    (kept : Kept machine.events machine.waits) (next : Move ω σ ν) :
    Kept (machine.move next).machine.events (machine.move next).machine.waits := by
  cases next with
  | perform choice action => exact perform_keeps lasting owned kept choice action
  | resume response choice => exact resume_keeps lasting kept response choice

theorem perform_owned (owned : Owned machine.events machine.waits) (choice : Nat)
    (action : Action ω σ ν) :
    Owned (machine.perform choice action).machine.events
      (machine.perform choice action).machine.waits :=
  perform_keeps owned_lasting owned owned choice action

theorem resume_owned (owned : Owned machine.events machine.waits) (response : Response σ)
    (choice : Nat) :
    Owned (machine.resume response choice).machine.events
      (machine.resume response choice).machine.waits :=
  resume_keeps owned_lasting owned response choice

theorem move_owned (owned : Owned machine.events machine.waits) (next : Move ω σ ν) :
    Owned (machine.move next).machine.events (machine.move next).machine.waits :=
  move_keeps owned_lasting owned owned next

end

/-- Registrations are owned by live waits throughout a run, also while a callback runs and after one
has broken off. -/
theorem Run.owned {history : List (Occurrence ω)} {machine : Machine ω σ ν}
    (run : Run history machine) : Owned machine.events machine.waits := by
  induction run with
  | start => exact .empty
  | step _ next owned => exact move_owned owned next

/-- In every state of every run, a set event has no waiters; the members of an unset event's
registry are the tokens of the live waits on it, no two of which share one; and the event counts
those waits that are registered. The event must not have handed out more tokens than there are. -/
theorem registrations_of_run {history : List (Occurrence ω)} {machine : Machine ω σ ν}
    (run : Run history machine) (id : EventId)
    (few : (machine.events.get id).registry.issued ≤ Token.limit) :
    ((machine.events.get id).isSet = true →
      (machine.events.get id).registry.members.keys = []) ∧
    ((machine.events.get id).isSet = false →
      (∀ token, token ∈ (machine.events.get id).registry.members.keys ↔
        ∃ wait ∈ machine.waits, wait.event = id ∧ wait.token = some token) ∧
      (Wait.tokensOn id machine.waits).Nodup) ∧
    (machine.events.get id).statistics = .ok ⟨if (machine.events.get id).isSet then 0
      else (machine.waits.filter fun wait =>
        wait.event = id ∧ wait.isRegistered = true).length⟩ := by
  have owned := run.owned
  refine ⟨owned.released id, ?_, owned.statistics id fun _ => few⟩
  intro unset
  constructor
  · intro token
    rw [(owned.held id unset few).mem_iff]
    exact Wait.mem_tokensOn
  · exact owned.nodup unset few

/-- Two waits on the second event are registered and one was dropped; the waiter of the first event
is being woken, and polls a race that asks its signal. -/
def nestedMoves : List (Move Pool.TaskId Nat Nat) :=
  [.perform 0 .makeEvent, .perform 0 .makeEvent, .perform 0 (.makeWait 0 ⟨0⟩ .borrowed),
    .perform 0 (.makeWait 1 ⟨1⟩ .owned), .perform 0 (.makeWait 2 ⟨1⟩ .borrowed),
    .perform 0 (.makeWait 3 ⟨1⟩ .owned), .perform 0 (.poll 0 ⟨0⟩), .perform 0 (.poll 1 ⟨1⟩),
    .perform 0 (.poll 2 ⟨2⟩), .perform 0 (.drop 1), .perform 0 (.race 2 (.external 7)),
    .perform 0 (.poll 3 ⟨3⟩), .perform 0 (.setEvent ⟨0⟩), .perform 0 (.poll 2 ⟨5⟩)]

theorem registrations_of_run_nested :
    Run (follow nestedMoves).1 (follow nestedMoves).2 ∧
      (follow nestedMoves).2.calls.length = 2 ∧
      ((follow nestedMoves).2.events.get ⟨0⟩).registry.members.keys = [] ∧
      (⟨1⟩ : Token) ∈ ((follow nestedMoves).2.events.get ⟨1⟩).registry.members.keys ∧
      (Wait.tokensOn ⟨1⟩ (follow nestedMoves).2.waits).Nodup ∧
      ((follow nestedMoves).2.events.get ⟨1⟩).statistics = .ok ⟨2⟩ := by
  have run := run_follow nestedMoves
  have first := registrations_of_run run ⟨0⟩ (by decide)
  have second := registrations_of_run run ⟨1⟩ (by decide)
  have unset : ((follow nestedMoves).2.events.get ⟨1⟩).isSet = false := by decide
  refine ⟨run, by decide, first.1 (by decide), ?_, (second.2.1 unset).2, ?_⟩
  · exact ((second.2.1 unset).1 ⟨1⟩).mpr (by decide)
  · rw [second.2.2]
    rfl

end Machine

end Latch
