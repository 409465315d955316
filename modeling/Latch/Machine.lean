import Latch.Future

/-!
# Runs with callbacks

Waking a waker or polling an external signal runs code that is not part of this library, and that
code may call the library again. A machine therefore stands still at every callback: the call that
is in progress is kept on a stack, its caller may perform further calls meanwhile, and in the end it
says how the callback came back. Between any two steps the whole state is visible.
-/

set_option autoImplicit false

namespace Latch

/-- A future in its owner's hands, with the event that it was made on. -/
structure Holding (σ : Type) where
  event : EventId
  future : Future σ
  deriving Repr

/-- A call that waits for a callback to come back. A future or registry that is being worked on is
part of the call and not to be found under its name. -/
inductive Call (ω σ ν : Type) where
  /-- An event was set; the remaining waiters that it released have still to be woken. -/
  | setting (event : EventId) (released : Nat) (remaining : List (Token × ω))
  /-- A registry releases all its members, and the remaining ones have still to be woken. -/
  | releasingAll (name : ν) (registry : Registry ω) (released : Nat)
      (remaining : List (Token × ω))
  /-- A registry wakes the member that it released. -/
  | releasingOne (name : ν) (registry : Registry ω) (token : Token)
  /-- A registry releases one member after another; the released ones are listed last first. -/
  | draining (name : ν) (registry : Registry ω) (released : List Token)
  /-- A future is being polled and asked for an external signal. -/
  | polling (name : ν) (holding : Holding σ) (waker : ω)
  /-- A caller wakes a waker that it keeps, or one that it gives away. -/
  | waking (waker : ω) (kept : Bool)

/-- The events, the futures and registries that their owners hold by name, and the calls in
progress, innermost first. -/
structure Machine (ω σ ν : Type) where
  events : Events ω := {}
  futures : Table ν (Holding σ) := ∅
  registries : Table ν (Registry ω) := ∅
  calls : List (Call ω σ ν) := []

/-- What a wait is raced against. -/
inductive Signal (σ ν : Type) where
  | ready
  | never
  | external (signal : σ)
  /-- Another future, which moves into the race. -/
  | future (name : ν)

/-- A call that a caller can make. -/
inductive Action (ω σ ν : Type) where
  | makeEvent
  | setEvent (event : EventId)
  | makeWait (name : ν) (event : EventId) (hold : Hold)
  | poll (name : ν) (waker : ω)
  | drop (name : ν)
  | race (name : ν) (signal : Signal σ ν)
  | wake (waker : ω) (kept : Bool)
  | makeRegistry (name : ν) (capacity? : Option Nat)
  | dropRegistry (name : ν)
  | add (name : ν) (waker : ω)
  | update (name : ν) (token : Token) (waker : ω)
  | remove (name : ν) (token : Token)
  | releaseAll (name : ν)
  | releaseOne (name : ν)
  | drain (name : ν)

/-- What a call answers in the end. -/
inductive Reply where
  | nothing
  | event (id : EventId)
  /-- The answer of a poll, and how the event stood when the poll ended. -/
  | polled (answer : Answer) (event : EventState)
  | token (token? : Option Token)
  | found (present : Bool)
  | released (count : Nat)
  | drained (tokens : List Token)
  deriving DecidableEq, Repr

/-- Who goes on after a step, and with what. -/
inductive Control (ω σ : Type) where
  /-- The waker is being woken, and the call goes on when it comes back. -/
  | wake (waker : ω)
  /-- The external signal is being polled, and the call goes on when it comes back. -/
  | ask (signal : σ)
  | done (reply : Reply)
  | panicked (panic : Panic)

/-- A step of a machine: the state it led to, what happened on the way, and who goes on. -/
structure Turn (ω σ ν : Type) where
  machine : Machine ω σ ν
  trace : List (Occurrence ω) := []
  control : Control ω σ

/-- Takes the element that a choice points at, counted modulo the length of the list. -/
def pick? {α : Type} (items : List α) (choice : Nat) : Option (α × List α) :=
  items[choice % items.length]?.map fun item => (item, items.eraseIdx (choice % items.length))

theorem pick?_eq_none_iff {α : Type} {items : List α} {choice : Nat} :
    pick? items choice = none ↔ items = [] := by
  cases items with
  | nil => simp [pick?]
  | cons head rest =>
      have inside : choice % (rest.length + 1) < rest.length + 1 := Nat.mod_lt _ (Nat.succ_pos _)
      simp [pick?, inside]

namespace Call

variable {ω σ ν : Type}

/-- The waits of the future that is being polled. -/
def waits : Call ω σ ν → List Wait
  | polling _ holding _ => holding.future.waits
  | setting .. | releasingAll .. | releasingOne .. | draining .. | waking .. => []

/-- The copies of wakers that a call keeps alive. A waker that is being released is not among them
once it was called. -/
def copies : Call ω σ ν → List ω
  | setting _ _ remaining => remaining.map Prod.snd
  | releasingAll _ registry _ remaining => registry.members.values ++ remaining.map Prod.snd
  | releasingOne _ registry _ | draining _ registry _ => registry.members.values
  | polling _ _ waker => [waker]
  | waking waker kept => if kept then [waker] else []

end Call

namespace Machine

variable {ω σ ν : Type}

/-- All waits that were made and not dropped yet. -/
def waits (machine : Machine ω σ ν) : List Wait :=
  machine.futures.values.flatMap (·.future.waits) ++ machine.calls.flatMap Call.waits

/-- All copies of wakers that are alive. -/
def copies (machine : Machine ω σ ν) : List ω :=
  machine.events.table.values.flatMap (·.registry.members.values) ++
    machine.registries.values.flatMap (·.members.values) ++ machine.calls.flatMap Call.copies

/-- Suspends a call until its callback comes back. -/
def push (machine : Machine ω σ ν) (call : Call ω σ ν) : Machine ω σ ν :=
  { machine with calls := call :: machine.calls }

/-- A step that changes nothing. -/
def idle (machine : Machine ω σ ν) : Turn ω σ ν := { machine, control := .done .nothing }

end Machine

end Latch
