import Latch.Proofs.Runs

/-!
# Releasing waiters

Setting an event wakes all its waiters, one after another, and each of them may call the library
again before it comes back. The event was set and its registry taken out before the first of them is
woken, so nothing that they do reaches the waiters that are still to be woken.
-/

set_option autoImplicit false

namespace Latch.Machine

variable {ω σ ν : Type}

/-! ## While an event is set -/

/-- An event is set, and no call above `base` is setting it. -/
structure Settled (event : EventId) (base : List (Call ω σ ν)) (machine : Machine ω σ ν) :
    Prop where
  owned : Owned machine.events machine.waits
  set : (machine.events.get event).isSet = true
  above : ∃ above, machine.calls = above ++ base ∧ ∀ call ∈ above, call.sets? ≠ some event

theorem Settled.state {event : EventId} {base : List (Call ω σ ν)} {machine : Machine ω σ ν}
    (settled : Settled event base machine) : machine.events.state event = ⟨true, 0⟩ := by
  have none := settled.owned.released event settled.set
  have size : (machine.events.get event).registry.size = 0 :=
    (List.length_map Prod.fst).symm.trans (congrArg List.length none)
  simp only [Events.state, settled.set, size]

theorem continueSet_settled (machine : Machine ω σ ν) {event other : EventId}
    {base rest : List (Call ω σ ν)} (owned : Owned machine.events machine.waits)
    (set : (machine.events.get event).isSet = true) (calls : machine.calls = rest ++ base)
    (others : ∀ call ∈ rest, call.sets? ≠ some event) (different : other ≠ event)
    (released choice : Nat) (remaining : List (Token × ω)) :
    Settled event base (machine.continueSet other released remaining choice).machine ∧
      ∀ occurrence ∈ (machine.continueSet other released remaining choice).trace,
        occurrence.releases event = false := by
  by_cases waiting : remaining = []
  · subst waiting
    rw [continueSet_nil]
    refine ⟨⟨owned, set, rest, calls, others⟩, ?_⟩
    intro occurrence member
    rw [List.mem_singleton.mp member]
    exact decide_eq_false different
  · obtain ⟨entry, left, -, same⟩ :=
      machine.continueSet_of_ne_nil other released choice waiting
    rw [same]
    refine ⟨⟨owned, set, .setting other released left :: rest, by simp [push, calls], ?_⟩, ?_⟩
    · intro call member
      rcases List.mem_cons.mp member with rfl | member
      · exact fun equal => different (Option.some.inj equal)
      · exact others call member
    · intro occurrence member
      rw [List.mem_singleton.mp member]
      exact decide_eq_false different

/-! ## Waiters one after another -/

/-- What the trace tells when a waiter of an event is woken. -/
def wakeOf (event : EventId) (entry : Token × ω) : Occurrence ω :=
  .woken (some event) entry.1 entry.2

/-- How far the release of an event's waiters has come: some were called, one is being called, and
the remaining ones are kept with the suspended call; or all were called. -/
inductive Releasing (event : EventId) (base : List (Call ω σ ν)) (entries : List (Token × ω))
    (called : List ω) (trace : List (Occurrence ω)) :
    List (Call ω σ ν) → Control ω σ → Prop
  | waking (before after : List (Token × ω)) (entry : Token × ω)
      (all : (before ++ entry :: after).Perm entries) (names : called = before.map Prod.snd)
      (told : trace.filter (Occurrence.releases event) =
        .releasingAll (some event) entries.length :: (before ++ [entry]).map (wakeOf event)) :
      Releasing event base entries called trace (.setting event entries.length after :: base)
        (.wake entry.2)
  | ended (all : List (Token × ω)) (same : all.Perm entries) (names : called = all.map Prod.snd)
      (told : trace.filter (Occurrence.releases event) =
        .releasingAll (some event) entries.length :: all.map (wakeOf event) ++
          [.eventSet event entries.length]) :
      Releasing event base entries called trace base (.done .nothing)

theorem continueSet_releasing (machine : Machine ω σ ν) {event : EventId}
    {entries before remaining : List (Token × ω)} {trace : List (Occurrence ω)} (choice : Nat)
    (all : (before ++ remaining).Perm entries)
    (told : trace.filter (Occurrence.releases event) =
      .releasingAll (some event) entries.length :: before.map (wakeOf event)) :
    Releasing event machine.calls entries (before.map Prod.snd)
      (trace ++ (machine.continueSet event entries.length remaining choice).trace)
      (machine.continueSet event entries.length remaining choice).machine.calls
      (machine.continueSet event entries.length remaining choice).control := by
  by_cases waiting : remaining = []
  · subst waiting
    rw [List.append_nil] at all
    rw [continueSet_nil]
    refine .ended before all rfl ?_
    rw [List.filter_append, told]
    simp [Occurrence.releases]
  · obtain ⟨entry, rest, same, continues⟩ :=
      machine.continueSet_of_ne_nil event entries.length choice waiting
    rw [continues]
    refine .waking before rest entry ((same.symm.append_left before).trans all) rfl ?_
    rw [List.filter_append, told]
    simp [Occurrence.releases, wakeOf]

theorem messages_release (event : EventId) (count : Nat) (entries : List (Token × ω))
    (last : List (Occurrence ω)) :
    Occurrence.messages
        (.releasingAll (some event) count :: entries.map (wakeOf event) ++ last) =
      ("releasing all waiters count=" ++ toString count) :: Occurrence.messages last := by
  have silent : (entries.map (wakeOf event)).filterMap
      (Occurrence.message? Occurrence.tokenText) = [] := by
    rw [List.filterMap_map]
    exact List.filterMap_eq_nil_iff.mpr fun _ _ => rfl
  unfold Occurrence.messages
  rw [List.cons_append, List.filterMap_cons, List.filterMap_append, silent]
  rfl

/-! ## Callbacks -/

variable [DecidableEq ν]

theorem resume_of_setting {machine : Machine ω σ ν} {event : EventId} {released : Nat}
    {remaining : List (Token × ω)} {rest : List (Call ω σ ν)}
    (calls : machine.calls = .setting event released remaining :: rest) {response : Response σ}
    (unbroken : ∀ panic, response ≠ .panicked panic) (choice : Nat) :
    machine.resume response choice =
      { machine with calls := rest }.continueSet event released remaining choice := by
  cases response with
  | panicked panic => exact absurd rfl (unbroken panic)
  | ready | pending => simp only [resume, calls]

variable [Waker ω]

/-- A callback makes calls, and lets calls of its own go on; the calls `base` stay suspended. -/
inductive Within (base : List (Call ω σ ν)) :
    Machine ω σ ν → List (Occurrence ω) → Machine ω σ ν → Prop
  | refl {machine : Machine ω σ ν} : Within base machine [] machine
  | perform {machine after : Machine ω σ ν} {trace : List (Occurrence ω)} (choice : Nat)
      (action : Action ω σ ν)
      (later : Within base (machine.perform choice action).machine trace after) :
      Within base machine ((machine.perform choice action).trace ++ trace) after
  | resume {machine after : Machine ω σ ν} {trace : List (Occurrence ω)} {call : Call ω σ ν}
      {above : List (Call ω σ ν)} (calls : machine.calls = call :: (above ++ base))
      (response : Response σ) (choice : Nat)
      (later : Within base (machine.resume response choice).machine trace after) :
      Within base machine ((machine.resume response choice).trace ++ trace) after

/-- A call that began with the turn `start` has called some wakers, one after another; each of them
did what it liked and came back. -/
inductive Advances (start : Turn ω σ ν) : List ω → List (Occurrence ω) → Turn ω σ ν → Prop
  | start : Advances start [] start.trace start
  | back {called : List ω} {trace inner : List (Occurrence ω)} {turn : Turn ω σ ν} {waker : ω}
      {after : Machine ω σ ν} (advances : Advances start called trace turn)
      (wakes : turn.control = .wake waker)
      (within : Within turn.machine.calls turn.machine inner after)
      (returned : after.calls = turn.machine.calls) (response : Response σ)
      (unbroken : ∀ panic, response ≠ .panicked panic) (choice : Nat) :
      Advances start (called ++ [waker])
        (trace ++ (inner ++ (after.resume response choice).trace)) (after.resume response choice)

/-! ## What callbacks leave alone -/

theorem Works.settled {event : EventId} {base rest : List (Call ω σ ν)} {machine : Machine ω σ ν}
    {names : List ν} {hand : List Wait} {turn : Turn ω σ ν} (works : Works machine names hand turn)
    (owned : Owned turn.machine.events turn.machine.waits)
    (set : (machine.events.get event).isSet = true) (calls : machine.calls = rest ++ base)
    (others : ∀ call ∈ rest, call.sets? ≠ some event) :
    Settled event base turn.machine ∧
      ∀ occurrence ∈ turn.trace, occurrence.releases event = false := by
  obtain ⟨worked, left, -, -, handles⟩ := works.handles
  refine ⟨⟨owned, (handles.isSet event).trans set, ?_⟩, handles.trace_not_releases event⟩
  have shape : turn.machine.calls = machine.calls ∨
      ∃ call, turn.machine.calls = call :: machine.calls := by
    have ended := works.ended
    unfold Turn.Over at ended
    split at ended
    · obtain ⟨call, pushed, -⟩ := ended
      exact .inr ⟨call, pushed⟩
    · obtain ⟨name, holding, waker, pushed⟩ := ended
      exact .inr ⟨_, pushed⟩
    · exact .inl ended
    · exact .inl ended
  rcases shape with same | ⟨call, pushed⟩
  · exact ⟨rest, same.trans calls, others⟩
  · refine ⟨call :: rest, by rw [pushed, calls]; rfl, ?_⟩
    intro other member
    rcases List.mem_cons.mp member with rfl | member
    · rw [works.unset other pushed]
      exact nofun
    · exact others other member

theorem perform_settled {event : EventId} {base : List (Call ω σ ν)} {machine : Machine ω σ ν}
    (settled : Settled event base machine) (choice : Nat) (action : Action ω σ ν) :
    Settled event base (machine.perform choice action).machine ∧
      ∀ occurrence ∈ (machine.perform choice action).trace, occurrence.releases event = false := by
  obtain ⟨owned, set, above, calls, others⟩ := settled
  by_cases sets : ∃ other, action = .setEvent other
  · obtain ⟨other, rfl⟩ := sets
    change Settled event base (machine.setEvent other choice).machine ∧
      ∀ occurrence ∈ (machine.setEvent other choice).trace, occurrence.releases event = false
    cases flag : (machine.events.get other).isSet with
    | true =>
        rw [setEvent_of_set flag]
        exact ⟨⟨owned, set, above, calls, others⟩, by simp [idle]⟩
    | false =>
        have different : other ≠ event := by
          intro equal
          rw [equal, set] at flag
          cases flag
        obtain ⟨tripped, -, kept, same⟩ := setEvent_of_unset owned flag choice
        rw [same]
        have still : ((machine.events.put other tripped).get event).isSet = true := by
          rw [Events.get_put, if_neg different.symm]
          exact set
        obtain ⟨after, silent⟩ := continueSet_settled
          { machine with events := machine.events.put other tripped } kept still calls others
          different (machine.events.get other).registry.size choice
          (machine.events.get other).registry.entries
        refine ⟨after, ?_⟩
        intro occurrence member
        rcases List.mem_cons.mp member with rfl | member
        · exact decide_eq_false different
        · exact silent occurrence member
  · have works := machine.perform_works choice fun other same => sets ⟨other, same⟩
    exact works.settled (perform_owned owned choice action) set calls others

theorem resume_settled {event : EventId} {base above : List (Call ω σ ν)}
    {machine : Machine ω σ ν} {call : Call ω σ ν} (settled : Settled event base machine)
    (calls : machine.calls = call :: (above ++ base)) (response : Response σ) (choice : Nat) :
    Settled event base (machine.resume response choice).machine ∧
      ∀ occurrence ∈ (machine.resume response choice).trace,
        occurrence.releases event = false := by
  obtain ⟨owned, set, whole, split, others⟩ := settled
  have same : whole = call :: above :=
    List.append_cancel_right (split.symm.trans calls)
  subst same
  have left : ∀ other ∈ above, other.sets? ≠ some event :=
    fun other member => others other (List.mem_cons_of_mem _ member)
  have after := resume_owned owned response choice
  cases sets : call.sets? with
  | none =>
      have works := resume_works calls sets response choice
      exact works.settled after set rfl left
  | some other =>
      cases call with
      | setting id released remaining =>
          have different : id ≠ event :=
            fun equal => others _ List.mem_cons_self (congrArg some equal)
          have kept : Owned machine.events
              (Machine.waits { machine with calls := above ++ base }) :=
            owned.perm (waits_perm_of_calls calls)
          simp only [resume, calls]
          cases response with
          | panicked panic => exact ⟨⟨kept, set, above, rfl, left⟩, by simp⟩
          | ready | pending =>
              exact continueSet_settled { machine with calls := above ++ base } kept set rfl left
                different released choice remaining
      | polling | releasingAll | releasingOne | draining | waking => cases sets

/-- Whatever a callback does, an event that is set already is not released by it. -/
theorem Within.settled {event : EventId} {base : List (Call ω σ ν)}
    {machine after : Machine ω σ ν} {trace : List (Occurrence ω)}
    (within : Within base machine trace after) (settled : Settled event base machine) :
    Settled event base after ∧ ∀ occurrence ∈ trace, occurrence.releases event = false := by
  induction within with
  | refl => exact ⟨settled, by simp⟩
  | perform choice action _ ih =>
      obtain ⟨next, silent⟩ := perform_settled settled choice action
      obtain ⟨last, quiet⟩ := ih next
      exact ⟨last, fun occurrence member =>
        (List.mem_append.mp member).elim (silent occurrence) (quiet occurrence)⟩
  | resume calls response choice _ ih =>
      obtain ⟨next, silent⟩ := resume_settled settled calls response choice
      obtain ⟨last, quiet⟩ := ih next
      exact ⟨last, fun occurrence member =>
        (List.mem_append.mp member).elim (silent occurrence) (quiet occurrence)⟩

/-! ## The release of an event -/

theorem Advances.releasing {machine : Machine ω σ ν} {event : EventId} {choice : Nat}
    {called : List ω} {trace : List (Occurrence ω)} {turn : Turn ω σ ν}
    (advances : Advances (machine.setEvent event choice) called trace turn)
    (owned : Owned machine.events machine.waits)
    (unset : (machine.events.get event).isSet = false) :
    Owned turn.machine.events turn.machine.waits ∧
      (turn.machine.events.get event).isSet = true ∧
      Releasing event machine.calls (machine.events.get event).registry.entries called trace
        turn.machine.calls turn.control := by
  induction advances with
  | start =>
      obtain ⟨tripped, set, kept, same⟩ := setEvent_of_unset owned unset choice
      obtain ⟨events, -, waits⟩ := continueSet_same
        { machine with events := machine.events.put event tripped } event
        (machine.events.get event).registry.size choice (machine.events.get event).registry.entries
      have begins : [Occurrence.releasingAll (some event)
          (machine.events.get event).registry.entries.length].filter
            (Occurrence.releases (ω := ω) event) =
          .releasingAll (some event) (machine.events.get event).registry.entries.length ::
            [].map (wakeOf event) := by
        simp [Occurrence.releases]
      have releasing := continueSet_releasing
        { machine with events := machine.events.put event tripped } choice
        (.refl ([] ++ (machine.events.get event).registry.entries)) begins
      rw [same]
      simp only [events, waits]
      exact ⟨kept, by rw [Events.get_put_self, set], releasing⟩
  | @back called trace inner turn waker after _ wakes within returned response unbroken choice ih =>
      obtain ⟨kept, set, releasing⟩ := ih
      have settled : Settled event turn.machine.calls turn.machine := ⟨kept, set, [], rfl, by simp⟩
      obtain ⟨still, silent⟩ := within.settled settled
      -- The event is set by now, so whatever the woken waker does tells nothing of its release.
      have quiet : inner.filter (Occurrence.releases event) = [] :=
        List.filter_eq_nil_iff.mpr fun occurrence member =>
          Bool.eq_false_iff.mp (silent occurrence member)
      generalize turn.machine.calls = calls, turn.control = control at *
      cases releasing with
      | ended all same names told => cases wakes
      | waking before rest entry all names told =>
          cases wakes
          have resumes := resume_of_setting returned unbroken choice
          have together : (before ++ [entry] ++ rest).Perm
              (machine.events.get event).registry.entries := by
            rw [List.append_assoc]
            exact all
          have sofar : (trace ++ inner).filter (Occurrence.releases event) =
              .releasingAll (some event) (machine.events.get event).registry.entries.length ::
                (before ++ [entry]).map (wakeOf event) := by
            rw [List.filter_append, told, quiet, List.append_nil]
          have goesOn := continueSet_releasing { after with calls := machine.calls } choice
            together sofar
          obtain ⟨events, -, -⟩ := continueSet_same { after with calls := machine.calls } event
            (machine.events.get event).registry.entries.length choice rest
          refine ⟨resume_owned still.owned response choice, ?_, ?_⟩
          · rw [resumes, events]
            exact still.set
          · rw [← resumes, List.map_append, List.append_assoc] at goesOn
            exact names ▸ goesOn

/-- Setting a set event does nothing. Setting an unset event calls the waker of each of its waiters
once, in any order, whatever those that were called do before they come back, and tells so between
one message before the first and one after the last; all that is seen of the event meanwhile is that
it is set and has no waiters. -/
theorem setEvent_calls_each_waiter_once {history : List (Occurrence ω)} {machine : Machine ω σ ν}
    (run : Run history machine) (event : EventId) (choice : Nat) :
    ((machine.events.get event).isSet = true →
      machine.perform choice (.setEvent event) = machine.idle) ∧
    ((machine.events.get event).isSet = false →
      ∀ called trace turn,
        Advances (machine.perform choice (.setEvent event)) called trace turn →
        (∃ order : List (Token × ω), order.Perm (machine.events.get event).registry.entries ∧
          called = (order.take called.length).map Prod.snd ∧
          turn.control = (match order[called.length]? with
            | some entry => .wake entry.2
            | none => .done .nothing) ∧
          trace.filter (Occurrence.releases event) =
            .releasingAll (some event) order.length ::
              (order.take (called.length + 1)).map (wakeOf event) ++
                (if called.length = order.length then [.eventSet event order.length] else []) ∧
          Occurrence.messages (trace.filter (Occurrence.releases event)) =
            ("releasing all waiters count=" ++ toString order.length) ::
              if called.length = order.length then
                ["event set released=" ++ toString order.length]
              else []) ∧
        ∀ inner seen, Within turn.machine.calls turn.machine inner seen →
          seen.events.state event = ⟨true, 0⟩) := by
  refine ⟨fun set => setEvent_of_set set choice, ?_⟩
  intro unset called trace turn advances
  obtain ⟨owned, set, releasing⟩ := Advances.releasing advances run.owned unset
  constructor
  · generalize turn.machine.calls = calls, turn.control = control at releasing
    cases releasing with
    | waking before after entry all names told =>
        have size : called.length = before.length := by rw [names, List.length_map]
        have partly : called.length ≠ (before ++ entry :: after).length := by
          rw [size, List.length_append, List.length_cons]
          omega
        have next : (before ++ entry :: after).take (called.length + 1) = before ++ [entry] := by
          rw [size, List.take_append, List.take_of_length_le (Nat.le_succ _),
            Nat.add_sub_cancel_left]
          rfl
        have tells : trace.filter (Occurrence.releases event) =
            .releasingAll (some event) (before ++ entry :: after).length ::
              ((before ++ entry :: after).take (called.length + 1)).map (wakeOf event) ++ [] := by
          rw [told, next, all.length_eq, List.append_nil]
        refine ⟨before ++ entry :: after, all, ?_, ?_, ?_, ?_⟩
        · rw [size, List.take_left', names]
          rfl
        · rw [size, List.getElem?_append_right (Nat.le_refl _), Nat.sub_self]
          rfl
        · rw [if_neg partly]
          exact tells
        · rw [tells, messages_release, if_neg partly]
          rfl
    | ended order same names told =>
        have size : called.length = order.length := by rw [names, List.length_map]
        have next : order.take (called.length + 1) = order :=
          List.take_of_length_le (by omega)
        have tells : trace.filter (Occurrence.releases event) =
            .releasingAll (some event) order.length ::
              (order.take (called.length + 1)).map (wakeOf event) ++
                [.eventSet event order.length] := by
          rw [told, next, same.length_eq]
        refine ⟨order, same, ?_, ?_, ?_, ?_⟩
        · rw [size, List.take_length, names]
        · rw [size, List.getElem?_eq_none (Nat.le_refl _)]
        · rw [if_pos size]
          exact tells
        · rw [tells, messages_release, if_pos size]
          rfl
  · intro inner seen within
    have settled : Settled event turn.machine.calls turn.machine := ⟨owned, set, [], rfl, by simp⟩
    exact (within.settled settled).1.state

/-- Three waits on an event, two of which are polled with one waker. -/
def crowdedMoves : List (Move Pool.TaskId Nat Nat) :=
  [.perform 0 .makeEvent, .perform 0 (.makeWait 0 ⟨0⟩ .owned),
    .perform 0 (.makeWait 1 ⟨0⟩ .borrowed), .perform 0 (.makeWait 2 ⟨0⟩ .owned),
    .perform 0 (.poll 0 ⟨4⟩), .perform 0 (.poll 1 ⟨5⟩), .perform 0 (.poll 2 ⟨4⟩)]

/-- The waker that is called first drops one of the other waits, sets the event again, and makes and
polls a new wait on it. -/
theorem setEvent_calls_each_waiter_once_reentrant :
    ∃ called trace turn,
      Advances ((follow crowdedMoves).2.perform 1 (.setEvent ⟨0⟩)) called trace turn ∧
        called.length = 3 ∧
        (∃ order : List (Token × Pool.TaskId),
          order.Perm ((follow crowdedMoves).2.events.get ⟨0⟩).registry.entries ∧
            called = order.map Prod.snd) ∧
        Occurrence.messages (trace.filter (Occurrence.releases ⟨0⟩)) =
          ["releasing all waiters count=3", "event set released=3"] := by
  have run := run_follow crowdedMoves
  have unset : ((follow crowdedMoves).2.events.get ⟨0⟩).isSet = false := by decide
  have first : Advances ((follow crowdedMoves).2.perform 1 (.setEvent ⟨0⟩)) [⟨5⟩] _ _ :=
    Advances.start.back rfl
      (.perform 0 (.drop 0) (.perform 0 (.setEvent ⟨0⟩)
        (.perform 0 (.makeWait 3 ⟨0⟩ .owned) (.perform 0 (.poll 3 ⟨6⟩) .refl))))
      rfl .ready nofun 0
  have last := (first.back rfl .refl rfl .ready nofun 1).back rfl .refl rfl .ready nofun 0
  obtain ⟨⟨order, same, names, -, -, told⟩, -⟩ :=
    (setEvent_calls_each_waiter_once run ⟨0⟩ 1).2 unset _ _ _ last
  have size : order.length = 3 := same.length_eq
  refine ⟨_, _, _, last, rfl, ⟨order, same, ?_⟩, ?_⟩
  · rw [names]
    exact congrArg (List.map Prod.snd) (List.take_of_length_le (Nat.le_of_eq size))
  · rw [told, size]
    rfl

end Latch.Machine
