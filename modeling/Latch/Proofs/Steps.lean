import Latch.Machine.Calls
import Latch.Proofs.Handling

/-!
# Steps of machines

Every call but one handles the waits under the names that it is given, and those of the future that
it has in hand, and leaves all else alone; so does a poll that goes on. The exception is the call
that sets an event: it takes a registry out, and handles no wait at all.
-/

set_option autoImplicit false

namespace Latch

variable {ω σ ν : Type}

/-! ## Names that calls are given -/

def Signal.names : Signal σ ν → List ν
  | .future name => [name]
  | .ready | .never | .external _ => []

/-- The names of the futures that a call works on. -/
def Action.names : Action ω σ ν → List ν
  | .makeWait name _ _ | .poll name _ | .drop name => [name]
  | .race name signal => name :: signal.names
  | .makeEvent | .setEvent _ | .wake .. | .makeRegistry .. | .dropRegistry _ | .add .. => []
  | .update .. | .remove .. | .releaseAll _ | .releaseOne _ | .drain _ => []

namespace Call

/-- The future that a call polls, by name, and the waker that it was given. -/
def polls? : Call ω σ ν → Option (ν × ω)
  | .polling name _ waker => some (name, waker)
  | .setting .. | .releasingAll .. | .releasingOne .. | .draining .. | .waking .. => none

/-- The names of the futures that a call goes back to. -/
def names : Call ω σ ν → List ν
  | .polling name _ _ => [name]
  | .setting .. | .releasingAll .. | .releasingOne .. | .draining .. | .waking .. => []

theorem waits_eq_nil {call : Call ω σ ν} (noPoll : call.polls? = none) : call.waits = [] := by
  cases call with
  | polling => cases noPoll
  | setting | releasingAll | releasingOne | draining | waking => rfl

/-- The event that a call sets. -/
def sets? : Call ω σ ν → Option EventId
  | .setting event _ _ => some event
  | .polling .. | .releasingAll .. | .releasingOne .. | .draining .. | .waking .. => none

end Call

/-- A call that waits for a callback stands on top of the calls `base`; a call that is over has
gone. -/
def Turn.Over (base : List (Call ω σ ν)) (turn : Turn ω σ ν) : Prop :=
  match turn.control with
  | .wake _ => ∃ call, turn.machine.calls = call :: base ∧ call.polls? = none
  | .ask _ => ∃ name holding waker, turn.machine.calls = .polling name holding waker :: base
  | .done _ | .panicked _ => turn.machine.calls = base

namespace Machine

/-! ## Waits by name -/

/-- The waits of futures that are held by name. -/
def held (futures : Table ν (Holding σ)) : List Wait := futures.values.flatMap (·.future.waits)

theorem waits_perm_of_calls {machine : Machine ω σ ν} {call : Call ω σ ν}
    {rest : List (Call ω σ ν)} (calls : machine.calls = call :: rest) :
    machine.waits.Perm (call.waits ++ Machine.waits { machine with calls := rest }) := by
  rw [Machine.waits, Machine.waits, calls, List.flatMap_cons]
  exact List.perm_append_comm_assoc _ _ _

variable [DecidableEq ν]

/-- The waits that stand under none of the names. -/
def apart (machine : Machine ω σ ν) (names : List ν) : List Wait :=
  held (names.foldl Table.erase machine.futures) ++ machine.calls.flatMap Call.waits

theorem held_perm_of_get? {futures : Table ν (Holding σ)} {name : ν} {holding : Holding σ}
    (found : futures.get? name = some holding) :
    (held futures).Perm (holding.future.waits ++ held (futures.erase name)) :=
  (Table.values_perm_of_get? found).flatMap_right _

theorem waits_perm_of_get? {machine : Machine ω σ ν} {name : ν} {holding : Holding σ}
    (found : machine.futures.get? name = some holding) :
    machine.waits.Perm (holding.future.waits ++
      Machine.waits { machine with futures := machine.futures.erase name }) := by
  rw [Machine.waits, Machine.waits, ← List.append_assoc]
  exact (held_perm_of_get? found).append_right _

theorem held_insert_perm (futures : Table ν (Holding σ)) (name : ν) (holding : Holding σ) :
    (held (futures.insert name holding)).Perm
      (holding.future.waits ++ held (futures.erase name)) :=
  (Table.values_insert_perm futures name holding).flatMap_right _

theorem exists_held_perm (futures : Table ν (Holding σ)) (names : List ν) :
    ∃ worked, (held futures).Perm (worked ++ held (names.foldl Table.erase futures)) := by
  induction names generalizing futures with
  | nil => exact ⟨[], .refl _⟩
  | cons name rest ih =>
      obtain ⟨worked, split⟩ := ih (futures.erase name)
      rw [List.foldl_cons]
      cases found : futures.get? name with
      | none =>
          rw [Table.erase_of_get?_eq_none found] at split ⊢
          exact ⟨worked, split⟩
      | some holding =>
          refine ⟨holding.future.waits ++ worked, ?_⟩
          rw [List.append_assoc]
          exact (held_perm_of_get? found).trans (split.append_left _)

theorem exists_waits_perm (machine : Machine ω σ ν) (names : List ν) :
    ∃ worked, machine.waits.Perm (worked ++ machine.apart names) := by
  obtain ⟨worked, split⟩ := exists_held_perm machine.futures names
  refine ⟨worked, ?_⟩
  rw [apart, ← List.append_assoc]
  exact split.append_right _

theorem get?_foldl_erase {futures : Table ν (Holding σ)} {names : List ν} {name : ν}
    (other : name ∉ names) :
    (names.foldl Table.erase futures).get? name = futures.get? name := by
  induction names generalizing futures with
  | nil => rfl
  | cons first rest ih =>
      rw [List.mem_cons, not_or] at other
      rw [List.foldl_cons, ih other.2, Table.get?_erase, if_neg other.1]

theorem mem_apart_of_get? {machine : Machine ω σ ν} {names : List ν} {name : ν}
    (other : name ∉ names) {holding : Holding σ}
    (found : machine.futures.get? name = some holding) {wait : Wait}
    (member : wait ∈ holding.future.waits) : wait ∈ machine.apart names := by
  rw [← get?_foldl_erase other] at found
  exact List.mem_append_left _
    (List.mem_flatMap.mpr ⟨holding, Table.mem_values_of_get? found, member⟩)

theorem mem_apart_of_calls {machine : Machine ω σ ν} (names : List ν) {call : Call ω σ ν}
    (inProgress : call ∈ machine.calls) {wait : Wait} (member : wait ∈ call.waits) :
    wait ∈ machine.apart names :=
  List.mem_append_right _ (List.mem_flatMap.mpr ⟨call, inProgress, member⟩)

/-! ## What a step works on -/

/-- A step that has some waits in hand, handles them and waits under the given names, and leaves all
else alone. It sets no event. -/
structure Works [Waker ω] (machine : Machine ω σ ν) (names : List ν) (hand : List Wait)
    (turn : Turn ω σ ν) : Prop where
  handles : ∃ worked left, machine.waits.Perm (worked ++ machine.apart names) ∧
    turn.machine.waits.Perm (left ++ machine.apart names) ∧
    Handles machine.events (hand ++ worked) turn.trace turn.machine.events left
  kept : ∀ name, name ∉ names → turn.machine.futures.get? name = machine.futures.get? name
  ended : turn.Over machine.calls
  unset : ∀ call, turn.machine.calls = call :: machine.calls → call.sets? = none

namespace Works

variable [Waker ω] {machine : Machine ω σ ν} {names : List ν} {turn : Turn ω σ ν}

theorem of_same {control : Control ω σ} {after : Machine ω σ ν} {trace : List (Occurrence ω)}
    (events : after.events = machine.events) (futures : after.futures = machine.futures)
    (waits : after.calls.flatMap Call.waits = machine.calls.flatMap Call.waits)
    (told : Handles machine.events [] trace machine.events [])
    (ended : Turn.Over machine.calls { machine := after, trace, control })
    (unset : ∀ call, after.calls = call :: machine.calls → call.sets? = none) :
    Works machine names [] { machine := after, trace, control } where
  handles := by
    obtain ⟨worked, split⟩ := exists_waits_perm machine names
    refine ⟨worked, worked, split, ?_, ?_⟩
    · have same : after.waits = machine.waits := by
        simp only [Machine.waits, futures, waits]
      rw [same]
      exact split
    · simp only [events]
      exact told.append worked
  kept name _ := by simp only [futures]
  ended := ended
  unset := unset

theorem of_done {control : Control ω σ} {after : Machine ω σ ν} {trace : List (Occurrence ω)}
    (events : after.events = machine.events) (futures : after.futures = machine.futures)
    (calls : after.calls = machine.calls)
    (told : Handles machine.events [] trace machine.events [])
    (ended : Turn.Over machine.calls { machine := after, trace, control }) :
    Works machine names [] { machine := after, trace, control } := by
  apply of_same events futures
  · rw [calls]
  · exact told
  · exact ended
  · intro call pushed
    have longer := congrArg List.length (calls.symm.trans pushed)
    simp at longer

theorem of_wake {call : Call ω σ ν} {waker : ω} {after : Machine ω σ ν}
    {trace : List (Occurrence ω)} (events : after.events = machine.events)
    (futures : after.futures = machine.futures) (calls : after.calls = machine.calls)
    (told : Handles machine.events [] trace machine.events [])
    (noPoll : call.polls? = none) (noSet : call.sets? = none) :
    Works machine names [] { machine := after.push call, trace, control := .wake waker } := by
  refine of_same events futures ?_ ?_ ?_ ?_
  · simp [push, calls, Call.waits_eq_nil noPoll]
  · exact told
  · exact ⟨call, by simp [push, calls], noPoll⟩
  · intro other pushed
    simp only [push, calls, List.cons.injEq, and_true] at pushed
    rw [← pushed]
    exact noSet

end Works

variable [Waker ω] (machine : Machine ω σ ν)

/-! ## Futures -/

theorem discard_works (future : Future σ) (control : Control ω σ)
    (ends : Turn.Over machine.calls { machine, control }) :
    Works machine [] future.waits (machine.discard future control) := by
  have handled := future.drop_handles machine.events
  refine ⟨⟨[], [], .refl _, .refl _, ?_⟩, fun _ _ => rfl, ?_, ?_⟩
  · rw [List.append_nil]
    exact handled
  · unfold discard
    simp only
    split
    · exact rfl
    · exact ends
  · intro call pushed
    have longer := congrArg List.length pushed
    simp [discard] at longer

theorem store_works (name : ν) (holding : Holding σ) (control : Control ω σ)
    (ends : Turn.Over machine.calls { machine, control }) :
    Works machine [name] holding.future.waits (machine.store name holding control) := by
  have stored := held_insert_perm machine.futures name holding
  unfold store
  simp only
  split
  · next absent =>
      refine ⟨⟨[], holding.future.waits, ?_, ?_, ?_⟩, ?_, ends, ?_⟩
      · simp [apart, Machine.waits, held, Table.erase_of_get?_eq_none absent]
      · rw [apart, ← List.append_assoc]
        exact stored.append_right _
      · rw [List.append_nil]
        exact .nothing
      · intro other different
        rw [List.mem_singleton] at different
        simp only [Table.get?_insert, if_neg different]
      · intro call pushed
        have longer := congrArg List.length pushed
        simp at longer
  · next previous found =>
      have dropped := previous.future.drop_handles machine.events
      have ended := (discard_works { machine with futures := machine.futures.insert name holding }
        previous.future control ends).ended
      refine ⟨⟨previous.future.waits, holding.future.waits, ?_, ?_, ?_⟩, ?_, ended, ?_⟩
      · rw [apart, ← List.append_assoc]
        exact (held_perm_of_get? found).append_right _
      · rw [apart, ← List.append_assoc]
        exact stored.append_right _
      · exact (dropped.append holding.future.waits).reordered List.perm_append_comm (.refl _)
      · intro other different
        rw [List.mem_singleton] at different
        simp only [discard, Table.get?_insert, if_neg different]
      · intro call pushed
        have longer := congrArg List.length pushed
        simp [discard] at longer

theorem afterPoll_works (name : ν) (event : EventId) (waker : ω) {polled : Future.Polled σ ω}
    {hand : List Wait}
    (handled : Handles machine.events hand polled.trace polled.events polled.future.waits) :
    Works machine [name] hand (machine.afterPoll name event waker polled) := by
  have stores : ∀ control : Control ω σ, Turn.Over machine.calls { machine, control } →
      Works machine [name] hand
        (let turn := { machine with events := polled.events }.store name ⟨event, polled.future⟩
          control
        { turn with trace := polled.trace ++ turn.trace }) := by
    intro control ends
    have stored := store_works { machine with events := polled.events } name
      ⟨event, polled.future⟩ control ends
    obtain ⟨⟨worked, left, before, after, handles⟩, kept, ended, unset⟩ := stored
    exact ⟨⟨worked, left, before, after, (handled.append worked).trans handles⟩, kept, ended, unset⟩
  unfold afterPoll
  simp only
  split
  · exact stores _ rfl
  · exact stores _ rfl
  · obtain ⟨worked, split⟩ := exists_waits_perm machine [name]
    refine ⟨⟨worked, polled.future.waits ++ worked, split, ?_, ?_⟩, fun _ _ => rfl,
      ⟨name, _, waker, rfl⟩, ?_⟩
    · have pushed : Machine.waits (push { machine with events := polled.events }
          (.polling name ⟨event, polled.future⟩ waker)) =
          held machine.futures ++ (polled.future.waits ++ machine.calls.flatMap Call.waits) := rfl
      rw [pushed, List.append_assoc]
      exact (List.perm_append_comm_assoc _ _ _).trans (split.append_left _)
    · rw [List.append_nil]
      exact handled.append worked
    · intro call pushed
      simp only [push, List.cons.injEq, and_true] at pushed
      rw [← pushed]
      rfl

namespace Works

variable {machine} {names : List ν} {hand : List Wait} {turn : Turn ω σ ν}

/-- Nothing is lost by naming futures that are left alone. -/
theorem weaken (works : Works machine [] hand turn) (names : List ν) :
    Works machine names hand turn := by
  obtain ⟨⟨worked, left, before, after, handles⟩, kept, ended, unset⟩ := works
  obtain ⟨others, split⟩ := exists_waits_perm machine names
  have whole : (machine.apart []).Perm (others ++ machine.apart names) := split
  refine ⟨⟨worked ++ others, left ++ others, ?_, ?_, ?_⟩, fun name _ => kept name List.not_mem_nil,
    ended, unset⟩
  · rw [List.append_assoc]
    exact before.trans (whole.append_left worked)
  · rw [List.append_assoc]
    exact after.trans (whole.append_left left)
  · rw [← List.append_assoc]
    exact handles.append others

/-- What is taken from under a name is in hand. -/
theorem of_erase {name : ν} {holding : Holding σ} (found : machine.futures.get? name = some holding)
    (works : Works { machine with futures := machine.futures.erase name } [name]
      holding.future.waits turn) : Works machine [name] [] turn := by
  obtain ⟨⟨worked, left, before, after, handles⟩, kept, ended, unset⟩ := works
  have same : Machine.apart { machine with futures := machine.futures.erase name } [name] =
      machine.apart [name] := by
    simp only [apart, List.foldl_cons, List.foldl_nil, Table.erase_erase_self]
  rw [same] at before after
  refine ⟨⟨holding.future.waits ++ worked, left, ?_, after, handles⟩, ?_, ended, unset⟩
  · rw [List.append_assoc]
    exact (waits_perm_of_get? found).trans (before.append_left _)
  · intro other different
    rw [kept other different]
    rw [List.mem_singleton] at different
    simp only [Table.get?_erase, if_neg different]

end Works

theorem idle_works (names : List ν) : Works machine names [] machine.idle :=
  Works.of_done rfl rfl rfl .nothing rfl

theorem makeWait_works (name : ν) (event : EventId) (hold : Hold) :
    Works machine [name] [] (machine.makeWait name event hold) := by
  obtain ⟨⟨worked, left, before, after, handles⟩, kept, ended, unset⟩ :=
    store_works { machine with events := (Wait.make machine.events event hold).2 } name
      ⟨event, .plain (Wait.make machine.events event hold).1⟩ (.done .nothing) rfl
  have made : Handles machine.events worked [] (Wait.make machine.events event hold).2
      ((Wait.make machine.events event hold).1 :: worked) := .make event hold
  exact ⟨⟨worked, left, before, after, made.trans handles⟩, kept, ended, unset⟩

theorem pollFuture_works (name : ν) (waker : ω) :
    Works machine [name] [] (machine.pollFuture name waker) := by
  unfold pollFuture
  split
  · exact machine.idle_works [name]
  · next holding found =>
      apply Works.of_erase found
      exact afterPoll_works { machine with futures := machine.futures.erase name } name
        holding.event waker (holding.future.poll_handles waker machine.events)

/-- A poll that answers puts its future back. Its name is free meanwhile, so that no other future is
dropped by that. -/
theorem perform_poll_of_answered {machine : Machine ω σ ν} {name : ν} {holding : Holding σ}
    {waker : ω} {answer : Answer} (found : machine.futures.get? name = some holding)
    (answered : (holding.future.poll waker machine.events).progress = .answered answer)
    (choice : Nat) :
    let polled := holding.future.poll waker machine.events
    machine.perform choice (.poll name waker) =
      { machine := { machine with
          events := polled.events
          futures := (machine.futures.erase name).insert name ⟨holding.event, polled.future⟩ }
        trace := polled.trace
        control := .done (.polled answer (polled.events.state holding.event)) } := by
  simp only [perform, pollFuture, found, answered, afterPoll, store, Table.get?_erase_self,
    List.append_nil]

theorem dropFuture_works (name : ν) : Works machine [name] [] (machine.dropFuture name) := by
  unfold dropFuture
  split
  · exact machine.idle_works [name]
  · next holding found =>
      apply Works.of_erase found
      exact (discard_works { machine with futures := machine.futures.erase name }
        holding.future (.done .nothing) rfl).weaken [name]

theorem takeSignal?_held {futures others : Table ν (Holding σ)} {signal : Signal σ ν}
    {future : Future σ} (taken : takeSignal? futures signal = some (future, others)) :
    others = signal.names.foldl Table.erase futures ∧
      (held futures).Perm (future.waits ++ held others) := by
  cases signal with
  | ready | never | external =>
      cases taken
      exact ⟨rfl, .refl _⟩
  | future name =>
      obtain ⟨holding, found, same⟩ := Option.map_eq_some_iff.mp taken
      cases same
      exact ⟨rfl, held_perm_of_get? found⟩

/-- The wait is out of the table while the signal is made, which cannot put it back. -/
theorem takeSignal?_erase {futures others : Table ν (Holding σ)} {name : ν} {signal : Signal σ ν}
    {future : Future σ} (taken : takeSignal? (futures.erase name) signal = some (future, others)) :
    others.erase name = others := by
  apply Table.erase_of_get?_eq_none
  have gone : (futures.erase name).get? name = none := Table.get?_erase_self _ _
  rw [(takeSignal?_held taken).1]
  cases signal with
  | ready | never | external => exact gone
  | future other =>
      simp only [Signal.names, List.foldl_cons, List.foldl_nil, Table.get?_erase]
      split <;> rfl

theorem raceFuture_works (name : ν) (signal : Signal σ ν) :
    Works machine (name :: signal.names) [] (machine.raceFuture name signal) := by
  unfold raceFuture
  split
  · next event wait found =>
      split
      · next future futures taken =>
          obtain ⟨rest, split⟩ := takeSignal?_held taken
          have again := takeSignal?_erase taken
          have apart : machine.apart (name :: signal.names) =
              held futures ++ machine.calls.flatMap Call.waits := by
            rw [Machine.apart, List.foldl_cons, rest]
          have stored := held_insert_perm futures name ⟨event, .race (some wait) future⟩
          rw [again] at stored
          refine ⟨⟨wait :: future.waits, wait :: future.waits, ?_, ?_, .nothing⟩, ?_, rfl, ?_⟩
          · rw [apart, ← List.append_assoc]
            exact ((held_perm_of_get? found).trans (split.cons wait)).append_right _
          · rw [apart, ← List.append_assoc]
            exact stored.append_right _
          · intro other different
            rw [List.mem_cons, not_or] at different
            simp only [Table.get?_insert, if_neg different.1, rest, get?_foldl_erase different.2,
              Table.get?_erase]
          · intro call pushed
            have longer := congrArg List.length pushed
            simp at longer
      · exact machine.idle_works _
  · exact machine.idle_works _

/-! ## Registries -/

theorem makeRegistry_works (name : ν) (capacity? : Option Nat) :
    Works machine [] [] (machine.makeRegistry name capacity?) := by
  unfold makeRegistry
  split
  · exact Works.of_done rfl rfl rfl .nothing rfl
  · split
    · exact Works.of_done rfl rfl rfl .nothing rfl
    · exact Works.of_done rfl rfl rfl .nothing rfl

theorem addMember_works (name : ν) (waker : ω) :
    Works machine [] [] (machine.addMember name waker) := by
  unfold addMember
  split
  · exact machine.idle_works []
  · exact Works.of_done rfl rfl rfl .nothing rfl

theorem updateMember_works (name : ν) (token : Token) (waker : ω) :
    Works machine [] [] (machine.updateMember name token waker) := by
  unfold updateMember
  split
  · exact machine.idle_works []
  · next registry found =>
      have told : Handles machine.events []
          (if (registry.update token waker).1 = .replaced then [.exchanged token waker] else [])
          machine.events [] := by
        split
        · exact .note rfl
        · exact .nothing
      exact Works.of_done rfl rfl rfl told rfl

theorem removeMember_works (name : ν) (token : Token) :
    Works machine [] [] (machine.removeMember name token) := by
  unfold removeMember
  split
  · exact machine.idle_works []
  · exact Works.of_done rfl rfl rfl .nothing rfl

theorem continueReleaseAll_works (name : ν) (registry : Registry ω) (released : Nat)
    (remaining : List (Token × ω)) (choice : Nat) :
    Works machine [] [] (machine.continueReleaseAll name registry released remaining choice) := by
  unfold continueReleaseAll
  split
  · exact Works.of_wake rfl rfl rfl (.note rfl) rfl rfl
  · exact Works.of_done rfl rfl rfl .nothing rfl

theorem releaseAll_works (name : ν) (choice : Nat) :
    Works machine [] [] (machine.releaseAll name choice) := by
  unfold releaseAll
  split
  · exact machine.idle_works []
  · next registry found =>
      obtain ⟨⟨worked, left, before, after, handles⟩, kept, ended, unset⟩ :=
        (machine.withoutRegistry name).continueReleaseAll_works name registry.emptied registry.size
          registry.entries choice
      have told : Handles machine.events worked [.releasingAll none registry.size]
          machine.events worked := .note rfl
      exact ⟨⟨worked, left, before, after, told.trans handles⟩, kept, ended, unset⟩

theorem releaseOne_works (name : ν) (choice : Nat) :
    Works machine [] [] (machine.releaseOne name choice) := by
  unfold releaseOne
  split
  · exact machine.idle_works []
  · split
    · exact Works.of_done rfl rfl rfl .nothing rfl
    · exact Works.of_wake rfl rfl rfl ((Handles.note rfl).trans (.note rfl)) rfl rfl

theorem continueDrain_works (name : ν) (registry : Registry ω) (released : List Token)
    (choice : Nat) : Works machine [] [] (machine.continueDrain name registry released choice) := by
  unfold continueDrain
  split
  · exact Works.of_done rfl rfl rfl .nothing rfl
  · exact Works.of_wake rfl rfl rfl ((Handles.note rfl).trans (.note rfl)) rfl rfl

theorem drain_works (name : ν) (choice : Nat) :
    Works machine [] [] (machine.drain name choice) := by
  unfold drain
  split
  · exact machine.idle_works []
  · next registry found =>
      obtain ⟨handles, kept, ended, unset⟩ :=
        (machine.withoutRegistry name).continueDrain_works name registry [] choice
      exact ⟨handles, kept, ended, unset⟩

/-! ## Steps -/

/-- A call that sets no event works on the futures whose names it is given. -/
theorem perform_works (choice : Nat) {action : Action ω σ ν}
    (other : ∀ event, action ≠ .setEvent event) :
    Works machine action.names [] (machine.perform choice action) := by
  cases action with
  | makeEvent =>
      refine ⟨⟨[], [], .refl _, .refl _, .create⟩, fun _ _ => rfl, rfl, ?_⟩
      intro call pushed
      have longer := congrArg List.length pushed
      simp [perform, makeEvent] at longer
  | setEvent event => exact absurd rfl (other event)
  | makeWait name event hold => exact machine.makeWait_works name event hold
  | poll name waker => exact machine.pollFuture_works name waker
  | drop name => exact machine.dropFuture_works name
  | race name signal => exact machine.raceFuture_works name signal
  | wake waker kept => exact Works.of_wake rfl rfl rfl .nothing rfl rfl
  | makeRegistry name capacity? => exact machine.makeRegistry_works name capacity?
  | dropRegistry name => exact Works.of_done rfl rfl rfl .nothing rfl
  | add name waker => exact machine.addMember_works name waker
  | update name token waker => exact machine.updateMember_works name token waker
  | remove name token => exact machine.removeMember_works name token
  | releaseAll name => exact machine.releaseAll_works name choice
  | releaseOne name => exact machine.releaseOne_works name choice
  | drain name => exact machine.drain_works name choice

/-- A call that sets no event goes on with what it has in hand. -/
theorem resume_works {machine : Machine ω σ ν} {call : Call ω σ ν} {rest : List (Call ω σ ν)}
    (calls : machine.calls = call :: rest) (other : call.sets? = none) (response : Response σ)
    (choice : Nat) :
    Works { machine with calls := rest } call.names call.waits
      (machine.resume response choice) := by
  unfold resume
  rw [calls]
  cases call with
  | setting => cases other
  | polling name holding waker =>
      cases response <;>
        exact afterPoll_works { machine with calls := rest } name holding.event waker
          (holding.future.resume_handles _ machine.events)
  | releasingAll name registry released remaining =>
      cases response with
      | panicked panic => exact Works.of_done rfl rfl rfl .nothing rfl
      | ready | pending =>
          exact continueReleaseAll_works { machine with calls := rest } name registry released
            remaining choice
  | releasingOne name registry token =>
      cases response <;> exact Works.of_done rfl rfl rfl .nothing rfl
  | draining name registry released =>
      cases response with
      | panicked panic => exact Works.of_done rfl rfl rfl .nothing rfl
      | ready | pending =>
          exact continueDrain_works { machine with calls := rest } name registry released choice
  | waking waker kept =>
      cases response <;> exact Works.of_done rfl rfl rfl .nothing rfl

theorem Works.handled {machine : Machine ω σ ν} {names : List ν} {hand waits : List Wait}
    {turn : Turn ω σ ν} (works : Works machine names hand turn)
    (same : waits.Perm (hand ++ machine.waits)) :
    Handles machine.events waits turn.trace turn.machine.events turn.machine.waits := by
  obtain ⟨worked, left, before, after, handles⟩ := works.handles
  refine (handles.append (machine.apart names)).reordered ?_ after.symm
  rw [List.append_assoc]
  exact same.trans (before.append_left hand)

/-! ## Calls that work on no futures -/

variable (futures : Table ν (Holding σ))

/-- A call that works on no futures does the same whatever they are. -/
theorem perform_nameless (choice : Nat) {action : Action ω σ ν}
    (nameless : action.names = []) :
    { machine with futures }.perform choice action =
      { machine.perform choice action with
        machine := { (machine.perform choice action).machine with futures } } := by
  cases action with
  | makeWait | poll | drop | race => cases nameless
  | makeEvent | dropRegistry | wake => rfl
  | setEvent event =>
      simp only [perform, setEvent, continueSet]
      split
      · rfl
      · rfl
      · split <;> rfl
  | makeRegistry name capacity? =>
      simp only [perform, makeRegistry]
      split
      · rfl
      · split <;> rfl
  | add | update | remove =>
      simp only [perform, addMember, updateMember, removeMember]
      split <;> rfl
  | releaseAll =>
      simp only [perform, releaseAll, continueReleaseAll]
      split
      · rfl
      · split <;> rfl
  | releaseOne =>
      simp only [perform, releaseOne]
      split
      · rfl
      · split <;> rfl
  | drain =>
      simp only [perform, drain, continueDrain]
      split
      · rfl
      · split <;> rfl

omit [Waker ω] in
theorem resume_nameless (response : Response σ) (choice : Nat)
    (noPoll : ∀ name holding waker rest, machine.calls ≠ .polling name holding waker :: rest) :
    { machine with futures }.resume response choice =
      { machine.resume response choice with
        machine := { (machine.resume response choice).machine with futures } } := by
  obtain ⟨events, own, registries, calls⟩ := machine
  cases calls with
  | nil => rfl
  | cons call rest =>
      cases call with
      | polling => exact absurd rfl (noPoll _ _ _ _)
      | setting event released remaining =>
          cases response with
          | panicked => rfl
          | ready | pending =>
              simp only [resume, continueSet]
              split <;> rfl
      | releasingAll name registry released remaining =>
          cases response with
          | panicked => rfl
          | ready | pending =>
              simp only [resume, continueReleaseAll]
              split <;> rfl
      | draining name registry released =>
          cases response with
          | panicked => rfl
          | ready | pending =>
              simp only [resume, continueDrain]
              split <;> rfl
      | releasingOne | waking => cases response <;> rfl

end Machine

end Latch
