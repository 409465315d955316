import Latch.Proofs.Cascade
import Latch.Proofs.Chains
import Mathlib.Data.List.Perm.Subperm
import Mathlib.Data.Prod.Lex
import Mathlib.Order.WellFounded

/-!
# Cascades that run out

Wakers that are woken may register again, for other events or for the same one, and set further
events, so that a cascade keeps adding to its own work. It runs out all the same. Only an event that
is set brings new wakers into play, an event is set before its first waiter is woken, and nobody can
set it again: there are only so many events to begin with.
-/

set_option autoImplicit false

namespace Latch

variable {ω σ ν : Type}

/-- The event whose waiters are about to be woken. -/
def Occurrence.opens? : Occurrence ω → Option EventId
  | .releasingAll event? _ => event?
  | .registered .. | .refreshed .. | .exchanged .. | .withdrawn .. | .cancelled _ => none
  | .releasingOne _ | .woken .. | .eventSet .. => none

/-- The events whose waiters were released, in order. -/
def openings (trace : List (Occurrence ω)) : List EventId := trace.filterMap Occurrence.opens?

theorem openings_append (early late : List (Occurrence ω)) :
    openings (early ++ late) = openings early ++ openings late := List.filterMap_append

theorem openings_eq_nil {trace : List (Occurrence ω)}
    (silent : ∀ event, ∀ occurrence ∈ trace, occurrence.releases event = false) :
    openings trace = [] := by
  refine List.filterMap_eq_nil_iff.mpr fun occurrence member => ?_
  cases opened : occurrence.opens? with
  | none => rfl
  | some event =>
      have unreleased := silent event occurrence member
      cases occurrence with
      | releasingAll event? count =>
          cases opened
          exact absurd rfl (of_decide_eq_false unreleased)
      | registered | refreshed | exchanged | withdrawn | cancelled => cases opened
      | releasingOne | woken | eventSet => cases opened

namespace Events

/-- The events that were made. -/
def made (events : Events ω) : List EventId := (List.range events.next).map EventId.mk

/-- Those of some events that are not set. -/
def unset (events : Events ω) (ids : List EventId) : List EventId :=
  ids.filter fun id => !(events.get id).isSet

theorem mem_unset {events : Events ω} {ids : List EventId} {id : EventId} :
    id ∈ events.unset ids ↔ id ∈ ids ∧ (events.get id).isSet = false := by
  rw [unset, List.mem_filter, Bool.not_eq_true']

theorem unset_congr {events next : Events ω} (ids : List EventId)
    (flags : ∀ id, (next.get id).isSet = (events.get id).isSet) :
    next.unset ids = events.unset ids := by
  simp only [unset, flags]

theorem length_unset_lt {events next : Events ω} {ids : List EventId} {id : EventId}
    (member : id ∈ ids) (still : (events.get id).isSet = false)
    (flags : ∀ other, (next.get other).isSet = true ↔
      other = id ∨ (events.get other).isSet = true) :
    (next.unset ids).length < (events.unset ids).length := by
  have fewer : next.unset ids = (events.unset ids).filter (· ≠ id) := by
    rw [unset, unset, List.filter_filter]
    refine List.filter_congr fun other _ => ?_
    rw [Bool.eq_iff_iff]
    simp only [Bool.not_eq_true', ← Bool.not_eq_true, flags, not_or, Bool.and_eq_true,
      decide_eq_true_eq]
  rw [fewer, List.length_filter_lt_length_iff_exists]
  exact ⟨id, mem_unset.mpr ⟨member, still⟩, by simp⟩

end Events

/-- A step after which the caller goes on, if need be once a waker has come back. -/
def Control.proceeds : Control ω σ → Bool
  | .wake _ | .done _ => true
  | .ask _ | .panicked _ => false

/-- A plain wait that is polled answers. -/
theorem Wait.exists_answered [Waker ω] {events : Events ω} {wait : Wait}
    (free : (events.get wait.event).waiters.inUse = false) (waker : ω) :
    ∃ answer, ((Future.plain (σ := σ) wait).poll waker events).progress = .answered answer := by
  cases flag : (events.get wait.event).isSet with
  | true => exact ⟨.completed, by simp only [Future.poll, Wait.poll_of_set flag]⟩
  | false =>
      have polled := Wait.poll_of_unset flag free waker rfl
      exact ⟨.pending, by simp only [Future.poll, polled]⟩

/-- A name under which there is nothing but a plain wait, if anything. -/
def Machine.IsPlain [DecidableEq ν] (machine : Machine ω σ ν) (name : ν) : Prop :=
  ∀ holding, machine.futures.get? name = some holding → ∃ wait, holding.future = .plain wait

/-- What a waker may do in a cascade that is to run out: it sets one of some events, or makes, polls
or drops a wait. It polls no race. -/
inductive Action.Modest [DecidableEq ν] (made : List EventId) (machine : Machine ω σ ν) :
    Action ω σ ν → Prop
  | sets {id : EventId} (member : id ∈ made) : Modest made machine (.setEvent id)
  | makes (name : ν) (event : EventId) (hold : Hold) :
      Modest made machine (.makeWait name event hold)
  | polls {name : ν} (plain : machine.IsPlain name) (waker : ω) :
      Modest made machine (.poll name waker)
  | drops (name : ν) : Modest made machine (.drop name)

namespace Action.Modest

variable [DecidableEq ν] {made : List EventId} {machine : Machine ω σ ν} {action : Action ω σ ν}

theorem mono {later : Machine ω σ ν} (modest : action.Modest made machine)
    (plain : ∀ name, machine.IsPlain name → later.IsPlain name) : action.Modest made later := by
  cases modest with
  | sets member => exact .sets member
  | makes name event hold => exact .makes name event hold
  | polls own waker => exact .polls (plain _ own) waker
  | drops name => exact .drops name

variable [Waker ω]

/-- Whatever a waker does but to set an event is over at once. -/
theorem done (modest : action.Modest made machine)
    (owned : Owned machine.events machine.waits) (other : ∀ id, action ≠ .setEvent id)
    (choice : Nat) : ∃ reply, (machine.perform choice action).control = .done reply := by
  cases modest with
  | @sets id => exact absurd rfl (other id)
  | makes name event hold =>
      have made := owned.make event hold
      exact ⟨.nothing, Machine.store_unbroken
        { machine with events := (Wait.make machine.events event hold).2 } name _ _
        (show Owned _ ([(Wait.make machine.events event hold).1] ++ machine.waits) from made)⟩
  | @polls name plain waker =>
      cases found : machine.futures.get? name with
      | none =>
          exact ⟨.nothing, by simp only [Machine.perform, Machine.pollFuture, found, Machine.idle]⟩
      | some holding =>
          obtain ⟨event, future⟩ := holding
          obtain ⟨wait, rfl⟩ := plain _ found
          obtain ⟨answer, answered⟩ := Wait.exists_answered (owned.free wait.event) waker
          exact ⟨_, by rw [Machine.perform_poll_of_answered found answered]⟩
  | drops name =>
      cases found : machine.futures.get? name with
      | none =>
          exact ⟨.nothing, by simp only [Machine.perform, Machine.dropFuture, found, Machine.idle]⟩
      | some holding =>
          refine ⟨.nothing, ?_⟩
          simp only [Machine.perform, Machine.dropFuture, found]
          exact Machine.discard_unbroken _ _ (owned.perm (Machine.waits_perm_of_get? found))

/-- It sets no event, releases nobody and leaves the calls in progress alone. -/
theorem passes (modest : action.Modest made machine)
    (owned : Owned machine.events machine.waits) (other : ∀ id, action ≠ .setEvent id)
    (choice : Nat) :
    let turn := machine.perform choice action
    (∃ reply, turn.control = .done reply) ∧ turn.machine.calls = machine.calls ∧
      (∀ id, (turn.machine.events.get id).isSet = (machine.events.get id).isSet) ∧
      openings turn.trace = [] := by
  obtain ⟨reply, done⟩ := modest.done owned other choice
  have works := machine.perform_works choice other
  have handled := works.handled (.refl _)
  have ended := works.ended
  rw [Turn.Over, done] at ended
  exact ⟨⟨reply, done⟩, ended, handled.isSet, openings_eq_nil handled.trace_not_releases⟩

/-- A name that is plain stays so. -/
theorem plain (modest : action.Modest made machine)
    (owned : Owned machine.events machine.waits) (other : ∀ id, action ≠ .setEvent id)
    (choice : Nat) {name : ν} (plain : machine.IsPlain name) :
    (machine.perform choice action).machine.IsPlain name := by
  by_cases mine : name ∈ action.names
  · cases modest with
    | @sets id => exact absurd rfl (other id)
    | makes own event hold =>
        cases List.mem_singleton.mp mine
        intro holding found
        cases (Machine.store_spec _ _ _ _).1.symm.trans found
        exact ⟨_, rfl⟩
    | polls own waker =>
        cases List.mem_singleton.mp mine
        cases stands : machine.futures.get? name with
        | none => simpa only [Machine.perform, Machine.pollFuture, stands, Machine.idle] using plain
        | some holding =>
            obtain ⟨event, future⟩ := holding
            obtain ⟨wait, rfl⟩ := plain _ stands
            obtain ⟨answer, answered⟩ := Wait.exists_answered (owned.free wait.event) waker
            rw [Machine.perform_poll_of_answered stands answered]
            intro holding found
            cases (Table.get?_insert_self _ _ _).symm.trans found
            exact ⟨_, rfl⟩
    | drops own =>
        cases List.mem_singleton.mp mine
        cases stands : machine.futures.get? name with
        | none => simpa only [Machine.perform, Machine.dropFuture, stands, Machine.idle] using plain
        | some holding =>
            simp only [Machine.perform, Machine.dropFuture, stands]
            intro holding found
            cases (Table.get?_erase_self machine.futures name).symm.trans found
  · intro holding found
    rw [(machine.perform_works choice other).kept name mine] at found
    exact plain holding found

end Action.Modest

namespace Cascade

/-- The calls that are made in a cascade are modest, as far as the next one. -/
def Modest [DecidableEq ν] (made : List EventId) (cascade : Cascade ω σ ν) : Prop :=
  ∀ action rest outer, cascade.agenda = (action :: rest) :: outer →
    action.Modest made cascade.machine

/-- The step that is taken next, unless there is nothing left to do. -/
def turn? [Waker ω] [DecidableEq ν] (cascade : Cascade ω σ ν) (choice : Nat) :
    Option (Turn ω σ ν) :=
  match cascade.agenda with
  | [] | [[]] => none
  | [] :: _ => some (cascade.machine.resume .ready choice)
  | (action :: _) :: _ => some (cascade.machine.perform choice action)

/-! ## What a step can do -/

/-- A call that sets an event, and has so many waiters left to wake, goes on: it is over, or it
wakes one of them, who has a script to follow. -/
inductive Onward (id : EventId) (calls : List (Call ω σ ν)) (agenda : List (List (Action ω σ ν)))
    (waiting : Nat) (next : Cascade ω σ ν) : Prop
  | ends (nobody : waiting = 0) (left : next.machine.calls = calls) (same : next.agenda = agenda)
  | wakes {count : Nat} {remaining : List (Token × ω)} {script : List (Action ω σ ν)}
      (fewer : remaining.length + 1 = waiting)
      (stands : next.machine.calls = .setting id count remaining :: calls)
      (begun : next.agenda = script :: agenda)

/-- What a step of a cascade does if its wakers are modest. -/
inductive Advance [DecidableEq ν] (made : List EventId) (cascade next : Cascade ω σ ν) : Prop
  /-- A call is over at once. -/
  | passes {action : Action ω σ ν} {rest : List (Action ω σ ν)}
      {outer : List (List (Action ω σ ν))} (agenda : cascade.agenda = (action :: rest) :: outer)
      (flags : ∀ id,
        (next.machine.events.get id).isSet = (cascade.machine.events.get id).isSet)
      (told : openings next.trace = openings cascade.trace)
      (calls : next.machine.calls = cascade.machine.calls) (left : next.agenda = rest :: outer)
      (plain : ∀ name, cascade.machine.IsPlain name → next.machine.IsPlain name)
  /-- An event is set that was not. -/
  | trips {id : EventId} {rest : List (Action ω σ ν)} {outer : List (List (Action ω σ ν))}
      {waiting : Nat} (agenda : cascade.agenda = (.setEvent id :: rest) :: outer)
      (member : id ∈ made) (unset : (cascade.machine.events.get id).isSet = false)
      (flags : ∀ other, (next.machine.events.get other).isSet = true ↔
        other = id ∨ (cascade.machine.events.get other).isSet = true)
      (told : openings next.trace = openings cascade.trace ++ [id])
      (futures : next.machine.futures = cascade.machine.futures)
      (onward : Onward id cascade.machine.calls (rest :: outer) waiting next)
  /-- A waker comes back. -/
  | returns {id : EventId} {count : Nat} {remaining : List (Token × ω)}
      {calls : List (Call ω σ ν)} {plan : List (Action ω σ ν)}
      {outer : List (List (Action ω σ ν))} (agenda : cascade.agenda = [] :: plan :: outer)
      (running : cascade.machine.calls = .setting id count remaining :: calls)
      (flags : ∀ other,
        (next.machine.events.get other).isSet = (cascade.machine.events.get other).isSet)
      (told : openings next.trace = openings cascade.trace)
      (futures : next.machine.futures = cascade.machine.futures)
      (onward : Onward id calls (plan :: outer) remaining.length next)

theorem enter_continueSet (scripts : ω → List (Action ω σ ν)) (cascade : Cascade ω σ ν)
    (machine : Machine ω σ ν) (id : EventId) (count choice : Nat)
    (remaining : List (Token × ω)) (agenda : List (List (Action ω σ ν))) :
    let turn := machine.continueSet id count remaining choice
    let next := enter scripts cascade turn agenda
    turn.control.proceeds = true ∧ next.machine.events = machine.events ∧
      next.machine.futures = machine.futures ∧ openings next.trace = openings cascade.trace ∧
      Onward id machine.calls agenda remaining.length next := by
  by_cases waiting : remaining = []
  · subst waiting
    refine ⟨rfl, rfl, rfl, ?_, .ends rfl rfl rfl⟩
    exact (openings_append _ _).trans (List.append_nil _)
  · obtain ⟨entry, rest, all, same⟩ := machine.continueSet_of_ne_nil id count choice waiting
    rw [same]
    refine ⟨rfl, rfl, rfl, ?_, .wakes all.length_eq.symm rfl rfl⟩
    exact (openings_append _ _).trans (List.append_nil _)

section

variable [Waker ω] [DecidableEq ν] {made : List EventId} {cascade : Cascade ω σ ν}
  {outer : List (List (Action ω σ ν))}

theorem advance_of_setEvent {id : EventId} {rest : List (Action ω σ ν)}
    (agenda : cascade.agenda = (.setEvent id :: rest) :: outer) (member : id ∈ made)
    (owned : Owned cascade.machine.events cascade.machine.waits)
    (scripts : ω → List (Action ω σ ν)) (choice : Nat) :
    Advance made cascade (cascade.step scripts choice) ∧
      (cascade.machine.perform choice (.setEvent id)).control.proceeds = true := by
  cases flag : (cascade.machine.events.get id).isSet with
  | true =>
      rw [step_of_set agenda flag, Machine.perform, Machine.setEvent_of_set flag]
      exact ⟨.passes agenda (fun _ => rfl) rfl rfl rfl (fun _ plain => plain), rfl⟩
  | false =>
      obtain ⟨proceeds, events, futures, told, onward⟩ := enter_continueSet scripts
        { machine := { cascade.machine with
            events := cascade.machine.events.put id (cascade.machine.events.get id).tripped }
          agenda := rest :: outer
          trace := cascade.trace ++
            [.releasingAll (some id) (cascade.machine.events.get id).registry.size] }
        { cascade.machine with
          events := cascade.machine.events.put id (cascade.machine.events.get id).tripped }
        id (cascade.machine.events.get id).registry.size choice
        (cascade.machine.events.get id).registry.entries (rest :: outer)
      rw [step_of_unset agenda flag (owned.free id), Machine.perform,
        Machine.setEvent_eq_of_unset (owned.free id) flag]
      refine ⟨.trips agenda member flag ?_ ?_ futures onward, proceeds⟩
      · intro other
        simp only [events, Events.get_put]
        split
        · next here => exact ⟨fun _ => .inl here, fun _ => rfl⟩
        · next there => exact ⟨.inr, fun either => either.resolve_left there⟩
      · refine told.trans ?_
        rw [openings_append]
        rfl

theorem advance_of_perform {action : Action ω σ ν} {rest : List (Action ω σ ν)}
    (agenda : cascade.agenda = (action :: rest) :: outer)
    (modest : action.Modest made cascade.machine)
    (owned : Owned cascade.machine.events cascade.machine.waits)
    (scripts : ω → List (Action ω σ ν)) (choice : Nat) :
    Advance made cascade (cascade.step scripts choice) ∧
      (cascade.machine.perform choice action).control.proceeds = true := by
  by_cases other : ∀ id, action ≠ .setEvent id
  · obtain ⟨⟨reply, done⟩, kept, flags, silent⟩ := modest.passes owned other choice
    have same : cascade.step scripts choice =
        enter scripts cascade (cascade.machine.perform choice action) (rest :: outer) := by
      simp only [step, agenda]
    rw [same]
    refine ⟨.passes agenda flags ?_ kept ?_ (fun _ => modest.plain owned other choice), ?_⟩
    · rw [enter, openings_append, silent, List.append_nil]
    · simp only [enter, done]
    · rw [done]
      rfl
  · obtain ⟨id, rfl⟩ := not_forall_not.mp other
    cases modest with
    | sets member => exact advance_of_setEvent agenda member owned scripts choice

theorem advance_of_resume {plan : List (Action ω σ ν)} {id : EventId} {count : Nat}
    {remaining : List (Token × ω)} {calls : List (Call ω σ ν)}
    (agenda : cascade.agenda = [] :: plan :: outer)
    (running : cascade.machine.calls = .setting id count remaining :: calls)
    (made : List EventId) (scripts : ω → List (Action ω σ ν)) (choice : Nat) :
    Advance made cascade (cascade.step scripts choice) ∧
      (cascade.machine.resume .ready choice).control.proceeds = true := by
  obtain ⟨proceeds, events, futures, told, onward⟩ := enter_continueSet scripts
    { cascade with machine := { cascade.machine with calls }, agenda := plan :: outer }
    { cascade.machine with calls } id count choice remaining (plan :: outer)
  rw [step_of_setting agenda running]
  refine ⟨.returns agenda running ?_ told futures onward, ?_⟩
  · intro other
    simp only [events]
  · simp only [Machine.resume, running]
    exact proceeds

end

/-! ## What is left to do -/

/-- How many events can still be set, how many waiters of set events are still to be woken, and how
much is on the agenda. What counts less may grow if what counts more gets less. -/
def effort (made : List EventId) (cascade : Cascade ω σ ν) : Nat ×ₗ Nat ×ₗ Nat :=
  toLex ((cascade.machine.events.unset made).length,
    toLex ((cascade.machine.calls.map (·.outstanding.length)).sum,
      (cascade.agenda.map (·.length + 1)).sum))

theorem Onward.effort_lt {id : EventId} {calls : List (Call ω σ ν)}
    {agenda : List (List (Action ω σ ν))} {waiting : Nat} {next : Cascade ω σ ν}
    (onward : Onward id calls agenda waiting next) :
    toLex ((next.machine.calls.map (·.outstanding.length)).sum,
        (next.agenda.map (·.length + 1)).sum) <
      toLex (waiting + (calls.map (·.outstanding.length)).sum,
        (agenda.map (·.length + 1)).sum + 1) := by
  rw [Prod.Lex.toLex_lt_toLex]
  cases onward with
  | ends nobody left same =>
      rw [nobody, left, same]
      exact .inr ⟨(Nat.zero_add _).symm, Nat.lt_succ_self _⟩
  | wakes fewer stands begun =>
      refine .inl ?_
      simp only [stands, List.map_cons, List.sum_cons, Call.outstanding, List.length_map]
      omega

theorem Advance.effort_lt [DecidableEq ν] {made : List EventId} {cascade next : Cascade ω σ ν}
    (advance : Advance made cascade next) : effort made next < effort made cascade := by
  rw [effort, effort, Prod.Lex.toLex_lt_toLex]
  cases advance with
  | passes agenda flags told calls left plain =>
      refine .inr ⟨congrArg List.length (Events.unset_congr made flags), ?_⟩
      rw [Prod.Lex.toLex_lt_toLex, calls, left, agenda]
      refine .inr ⟨rfl, ?_⟩
      simp only [List.map_cons, List.sum_cons, List.length_cons]
      omega
  | trips agenda member unset flags told futures onward =>
      exact .inl (Events.length_unset_lt member unset flags)
  | returns agenda running flags told futures onward =>
      refine .inr ⟨congrArg List.length (Events.unset_congr made flags), ?_⟩
      have less := onward.effort_lt
      simp only [running, agenda, List.map_cons, List.sum_cons, List.length_nil, Call.outstanding,
        List.length_map]
      rw [Nat.zero_add, Nat.add_comm 1]
      exact less

/-! ## How far a cascade has come -/

/-- A cascade that began with a machine. The events that were opened, in this order, are those that
it has set; the calls that are in progress on top of those of the machine set some of them, the last
one innermost. -/
structure Underway (start : Machine ω σ ν) (cascade : Cascade ω σ ν) : Prop where
  flags : ∀ id, (cascade.machine.events.get id).isSet = true ↔
    id ∈ openings cascade.trace ∨ (start.events.get id).isSet = true
  fresh : openings cascade.trace ⊆ start.events.unset start.events.made
  unique : (openings cascade.trace).Nodup
  stacked : ∃ above, cascade.machine.calls = above ++ start.calls ∧
    cascade.agenda.length = above.length + 1 ∧
    (above.map Call.sets?).Sublist ((openings cascade.trace).reverse.map some)

theorem Onward.stacked {id : EventId} {base above : List (Call ω σ ν)}
    {agenda : List (List (Action ω σ ν))} {waiting : Nat} {next : Cascade ω σ ν}
    (onward : Onward id (above ++ base) agenda waiting next)
    (depth : agenda.length = above.length + 1) {order : List (Option EventId)}
    (within : (some id :: above.map Call.sets?).Sublist order) :
    ∃ above, next.machine.calls = above ++ base ∧ next.agenda.length = above.length + 1 ∧
      (above.map Call.sets?).Sublist order := by
  cases onward with
  | ends nobody left same =>
      exact ⟨above, left, by rw [same, depth], (List.sublist_cons_self _ _).trans within⟩
  | @wakes count remaining script fewer stands begun =>
      refine ⟨.setting id count remaining :: above, stands, ?_, within⟩
      rw [begun, List.length_cons, List.length_cons, depth]

namespace Underway

variable {start : Machine ω σ ν} {cascade next : Cascade ω σ ν}

theorem begin (start : Machine ω σ ν) (action : Action ω σ ν) :
    Underway start { machine := start, agenda := [[action]] } where
  flags _ := ⟨.inr, fun set => set.resolve_left List.not_mem_nil⟩
  fresh := List.nil_subset _
  unique := .nil
  stacked := ⟨[], rfl, rfl, .slnil⟩

theorem advance [DecidableEq ν] (underway : Underway start cascade)
    (advance : Advance start.events.made cascade next) : Underway start next := by
  obtain ⟨flags, fresh, unique, above, calls, depth, within⟩ := underway
  cases advance with
  | passes agenda same told kept left plain =>
      refine ⟨?_, told ▸ fresh, told ▸ unique, above, kept.trans calls, ?_, told ▸ within⟩
      · intro id
        rw [same, flags, told]
      · rw [← depth, agenda, left]
        rfl
  | @trips id rest outer waiting agenda member unset same told futures onward =>
      have absent : id ∉ openings cascade.trace := by
        intro opened
        cases ((flags id).mpr (.inl opened)).symm.trans unset
      refine ⟨?_, ?_, ?_, ?_⟩
      · intro other
        rw [same, flags, told, List.mem_append, List.mem_singleton, or_left_comm, or_assoc]
      · rw [told]
        refine List.append_subset.mpr ⟨fresh, ?_⟩
        -- It was unset at the beginning, since it still is.
        have before : (start.events.get id).isSet = false := by
          rw [← Bool.not_eq_true]
          intro set
          cases ((flags id).mpr (.inr set)).symm.trans unset
        exact List.cons_subset.mpr ⟨Events.mem_unset.mpr ⟨member, before⟩, List.nil_subset _⟩
      · rw [told]
        exact List.nodup_append.mpr ⟨unique, by simp, by
          rintro other opened _ here rfl
          exact absent (List.mem_singleton.mp here ▸ opened)⟩
      · rw [agenda] at depth
        rw [calls] at onward
        rw [told, List.reverse_concat, List.map_cons]
        exact onward.stacked depth (within.cons_cons _)
  | returns agenda running same told futures onward =>
      rw [agenda] at depth
      cases above with
      | nil => cases depth
      | cons call above =>
          rw [running, List.cons_append, List.cons.injEq] at calls
          obtain ⟨rfl, rfl⟩ := calls
          refine ⟨?_, told ▸ fresh, told ▸ unique, ?_⟩
          · intro other
            rw [same, flags, told]
          · rw [told]
            exact onward.stacked (Nat.succ.inj depth) within

theorem calls_of_finished (underway : Underway start cascade) (finished : cascade.agenda = [[]]) :
    cascade.machine.calls = start.calls := by
  obtain ⟨above, calls, depth, -⟩ := underway.stacked
  rw [finished] at depth
  rw [calls, List.eq_nil_of_length_eq_zero (Nat.succ.inj depth).symm, List.nil_append]

/-- Each call in progress sets an event of its own, which was unset when the cascade began. -/
theorem settings (underway : Underway start cascade) :
    ∃ above, cascade.machine.calls = above ++ start.calls ∧
      (∀ call ∈ above, call.sets?.isSome = true) ∧
      above.length ≤ (start.events.unset start.events.made).length := by
  obtain ⟨above, calls, -, within⟩ := underway.stacked
  refine ⟨above, calls, ?_, ?_⟩
  · intro call member
    obtain ⟨id, -, same⟩ := List.mem_map.mp (within.subset (List.mem_map_of_mem member))
    rw [← same]
    rfl
  · have fewer := (List.Nodup.subperm underway.unique underway.fresh).length_le
    have most := within.length_le
    rw [List.length_map, List.length_map, List.length_reverse] at most
    exact most.trans fewer

variable [Waker ω] [DecidableEq ν]

theorem advances (underway : Underway start cascade)
    (owned : Owned cascade.machine.events cascade.machine.waits)
    (modest : cascade.Modest start.events.made) (unfinished : cascade.agenda ≠ [[]])
    (scripts : ω → List (Action ω σ ν)) (choice : Nat) :
    Advance start.events.made cascade (cascade.step scripts choice) ∧
      ∀ turn, cascade.turn? choice = some turn → turn.control.proceeds = true := by
  obtain ⟨above, calls, depth, within⟩ := underway.stacked
  cases agenda : cascade.agenda with
  | nil =>
      rw [agenda] at depth
      cases depth
  | cons plan outer =>
      cases plan with
      | cons action rest =>
          obtain ⟨advance, proceeds⟩ :=
            advance_of_perform agenda (modest action rest outer agenda) owned scripts choice
          refine ⟨advance, ?_⟩
          simp only [turn?, agenda]
          rintro _ ⟨⟩
          exact proceeds
      | nil =>
          -- The caller has made all its calls, so this is a waker that comes back.
          cases outer with
          | nil => exact absurd agenda unfinished
          | cons plan outer =>
              cases above with
              | nil =>
                  rw [agenda] at depth
                  cases depth
              | cons call above =>
                  obtain ⟨id, -, sets⟩ := List.mem_map.mp (within.subset List.mem_cons_self)
                  cases call with
                  | releasingAll | releasingOne | draining | polling | waking => cases sets
                  | setting own count remaining =>
                      obtain ⟨advance, proceeds⟩ :=
                        advance_of_resume agenda calls start.events.made scripts choice
                      refine ⟨advance, ?_⟩
                      simp only [turn?, agenda]
                      rintro _ ⟨⟩
                      exact proceeds

theorem step (underway : Underway start cascade)
    (owned : Owned cascade.machine.events cascade.machine.waits)
    (modest : cascade.Modest start.events.made) (scripts : ω → List (Action ω σ ν))
    (choice : Nat) : Underway start (cascade.step scripts choice) := by
  by_cases finished : cascade.agenda = [[]]
  · rw [step_of_finished finished]
    exact underway
  · exact underway.advance (underway.advances owned modest finished scripts choice).1

end Underway

/-! ## Stages -/

variable [Waker ω] [DecidableEq ν]

/-- A cascade after so many steps. What a waker does may be different every time it is woken. -/
def stage (scripts : Nat → ω → List (Action ω σ ν)) (choices : Nat → Nat)
    (cascade : Cascade ω σ ν) : Nat → Cascade ω σ ν
  | 0 => cascade
  | steps + 1 => (stage scripts choices cascade steps).step (scripts steps) (choices steps)

section

variable {scripts : Nat → ω → List (Action ω σ ν)} {choices : Nat → Nat}
  {cascade : Cascade ω σ ν} {start : Machine ω σ ν} {history : List (Occurrence ω)}

variable (scripts choices) in
theorem stage_follows (run : Machine.Run (history ++ cascade.trace) cascade.machine)
    (steps : Nat) :
    Machine.Run (history ++ (cascade.stage scripts choices steps).trace)
      (cascade.stage scripts choices steps).machine := by
  induction steps with
  | zero => exact run
  | succ steps ih => exact step_follows ih (choices steps)

theorem stage_of_finished {steps later : Nat} (before : steps ≤ later)
    (finished : (cascade.stage scripts choices steps).agenda = [[]]) :
    cascade.stage scripts choices later = cascade.stage scripts choices steps := by
  induction later, before using Nat.le_induction with
  | base => rfl
  | succ later before ih => rw [stage, ih, step_of_finished finished]

theorem stage_underway (underway : Underway start cascade)
    (run : Machine.Run (history ++ cascade.trace) cascade.machine)
    (modest : ∀ steps, (cascade.stage scripts choices steps).Modest start.events.made)
    (steps : Nat) : Underway start (cascade.stage scripts choices steps) := by
  induction steps with
  | zero => exact underway
  | succ steps ih =>
      have owned := (stage_follows scripts choices run steps).owned
      exact ih.step owned (modest steps) (scripts steps) (choices steps)

/-- What is left to do cannot get less for ever. -/
theorem exists_finished (underway : Underway start cascade)
    (run : Machine.Run (history ++ cascade.trace) cascade.machine)
    (modest : ∀ steps, (cascade.stage scripts choices steps).Modest start.events.made) :
    ∃ steps, (cascade.stage scripts choices steps).agenda = [[]] := by
  obtain ⟨steps, still⟩ := WellFounded.not_rel_apply_succ (r := (· < ·)) fun steps =>
    effort start.events.made (cascade.stage scripts choices steps)
  refine ⟨steps, ?_⟩
  by_contra unfinished
  have owned := (stage_follows scripts choices run steps).owned
  have advances := (stage_underway underway run modest steps).advances owned (modest steps)
    unfinished (scripts steps) (choices steps)
  exact still advances.1.effort_lt

/-- Whatever is on the agenda was modest when the cascade began, and names that were plain then
still are. -/
structure Tame (start : Machine ω σ ν) (cascade : Cascade ω σ ν) : Prop where
  plain : ∀ name, start.IsPlain name → cascade.machine.IsPlain name
  planned : ∀ plan ∈ cascade.agenda, ∀ action ∈ plan, action.Modest start.events.made start

omit [Waker ω] in
theorem Tame.modest (tame : Tame start cascade) : cascade.Modest start.events.made := by
  intro action rest outer agenda
  have planned := tame.planned (action :: rest) (by rw [agenda]; exact List.mem_cons_self) action
    List.mem_cons_self
  exact planned.mono tame.plain

theorem mem_agenda_of_step {scripts : ω → List (Action ω σ ν)} {choice : Nat}
    {plan : List (Action ω σ ν)} (member : plan ∈ (cascade.step scripts choice).agenda) :
    (∃ waker, plan = scripts waker) ∨ ∃ before ∈ cascade.agenda, plan ⊆ before := by
  have entered : ∀ (turn : Turn ω σ ν) (agenda : List (List (Action ω σ ν))),
      plan ∈ (enter scripts cascade turn agenda).agenda →
        (∃ waker, plan = scripts waker) ∨ plan ∈ agenda := by
    intro turn agenda inside
    unfold enter at inside
    cases control : turn.control with
    | wake waker =>
        simp only [control, List.mem_cons] at inside
        exact inside.imp_left fun same => ⟨waker, same⟩
    | ask | done | panicked =>
        simp only [control] at inside
        exact .inr inside
  unfold step at member
  split at member
  · exact .inr ⟨plan, member, List.Subset.refl _⟩
  · exact .inr ⟨plan, member, List.Subset.refl _⟩
  · next outer _ agenda =>
      refine (entered _ _ member).imp_right fun inside => ⟨plan, ?_, List.Subset.refl _⟩
      rw [agenda]
      exact List.mem_cons_of_mem _ inside
  · next action rest outer agenda =>
      refine (entered _ _ member).imp_right fun inside => ?_
      rw [agenda]
      rcases List.mem_cons.mp inside with rfl | later
      · exact ⟨action :: plan, List.mem_cons_self, List.subset_cons_self _ _⟩
      · exact ⟨plan, List.mem_cons_of_mem _ later, List.Subset.refl _⟩

theorem Tame.step (tame : Tame start cascade) (underway : Underway start cascade)
    (owned : Owned cascade.machine.events cascade.machine.waits)
    {scripts : ω → List (Action ω σ ν)}
    (scripted : ∀ waker, ∀ action ∈ scripts waker, action.Modest start.events.made start)
    (choice : Nat) : Tame start (cascade.step scripts choice) := by
  by_cases finished : cascade.agenda = [[]]
  · rw [step_of_finished finished]
    exact tame
  · have advance := (underway.advances owned tame.modest finished scripts choice).1
    refine ⟨fun name plain => ?_, ?_⟩
    · have before := tame.plain name plain
      cases advance with
      | passes _ _ _ _ _ kept => exact kept name before
      | trips _ _ _ _ _ futures | returns _ _ _ _ futures =>
          intro holding found
          rw [futures] at found
          exact before holding found
    · intro plan member action planned
      rcases mem_agenda_of_step member with ⟨waker, rfl⟩ | ⟨before, inside, part⟩
      · exact scripted waker action planned
      · exact tame.planned before inside action (part planned)

/-- It is enough that scripts are modest when the cascade begins. -/
theorem stage_modest (underway : Underway start cascade)
    (run : Machine.Run (history ++ cascade.trace) cascade.machine) (tame : Tame start cascade)
    (scripted : ∀ steps waker, ∀ action ∈ scripts steps waker,
      action.Modest start.events.made start) (steps : Nat) :
    (cascade.stage scripts choices steps).Modest start.events.made := by
  suffices whole : Underway start (cascade.stage scripts choices steps) ∧
      Tame start (cascade.stage scripts choices steps) from whole.2.modest
  induction steps with
  | zero => exact ⟨underway, tame⟩
  | succ steps ih =>
      obtain ⟨underway, tame⟩ := ih
      have owned := (stage_follows scripts choices run steps).owned
      exact ⟨underway.step owned tame.modest (scripts steps) (choices steps),
        tame.step underway owned (scripted steps) (choices steps)⟩

end

/-- Setting an event comes to an end if wakers do no more than set events that there are, and make
waits, poll plain ones and drop any: whatever each of them does each time it is woken, also if it
registers again, and whatever waiter is next each time. No call breaks off on the way. The calls in
progress always set an event each, and are no more than events were unset when it began; no event
has its waiters released twice. -/
theorem runs_out {history : List (Occurrence ω)} {machine : Machine ω σ ν}
    (run : Machine.Run history machine) (event : EventId)
    (scripts : Nat → ω → List (Action ω σ ν)) (choices : Nat → Nat)
    (modest : ∀ steps, (stage scripts choices { machine, agenda := [[.setEvent event]] }
      steps).Modest machine.events.made) :
    let stage := stage scripts choices { machine, agenda := [[.setEvent event]] }
    (∃ bound, ∀ steps, bound ≤ steps →
      (stage steps).agenda = [[]] ∧ (stage steps).machine.calls = machine.calls) ∧
    ∀ steps,
      Machine.Run (history ++ (stage steps).trace) (stage steps).machine ∧
      (∀ turn, (stage steps).turn? (choices steps) = some turn →
        turn.control.proceeds = true) ∧
      (∃ above, (stage steps).machine.calls = above ++ machine.calls ∧
        (∀ call ∈ above, call.sets?.isSome = true) ∧
        above.length ≤ (machine.events.unset machine.events.made).length) ∧
      (openings (stage steps).trace).Nodup := by
  intro stage
  have begun := Underway.begin machine (.setEvent event)
  have first : Machine.Run (history ++ []) machine := by
    rw [List.append_nil]
    exact run
  have underway := stage_underway begun first modest
  constructor
  · obtain ⟨bound, finished⟩ := exists_finished begun first modest
    refine ⟨bound, fun steps enough => ?_⟩
    have same : stage steps = stage bound := stage_of_finished enough finished
    rw [same]
    exact ⟨finished, (underway bound).calls_of_finished finished⟩
  · intro steps
    have followed : Machine.Run (history ++ (stage steps).trace) (stage steps).machine :=
      stage_follows scripts choices first steps
    refine ⟨followed, ?_, (underway steps).settings, (underway steps).unique⟩
    by_cases finished : (stage steps).agenda = [[]]
    · intro turn taken
      simp only [turn?, finished, reduceCtorEq] at taken
    · exact ((underway steps).advances followed.owned (modest steps) finished (scripts steps)
        (choices steps)).2

/-- Three events. One task waits for the first, another one for the second. -/
def cyclicMoves : List (Machine.Move Pool.TaskId Nat Nat) :=
  [.perform 0 .makeEvent, .perform 0 .makeEvent, .perform 0 .makeEvent,
    .perform 0 (.makeWait 0 ⟨0⟩ .owned), .perform 0 (.makeWait 1 ⟨1⟩ .borrowed),
    .perform 0 (.poll 0 ⟨0⟩), .perform 0 (.poll 1 ⟨1⟩)]

/-- The first task registers for the third event whenever it is woken, and sets the second one; the
second task sets the first and the third. -/
def cyclicScript (task : Pool.TaskId) : List (Action Pool.TaskId Nat Nat) :=
  match task.number with
  | 0 => [.makeWait 2 ⟨2⟩ .owned, .poll 2 ⟨0⟩, .setEvent ⟨1⟩]
  | 1 => [.setEvent ⟨0⟩, .poll 1 ⟨1⟩, .setEvent ⟨2⟩, .drop 0]
  | _ => []

theorem cyclicScript_modest (task : Pool.TaskId) :
    ∀ action ∈ cyclicScript task,
      action.Modest (Machine.follow cyclicMoves).2.events.made (Machine.follow cyclicMoves).2 := by
  have vacant : (Machine.follow cyclicMoves).2.futures.get? 2 = none := by decide
  have held : (Machine.follow cyclicMoves).2.futures.get? 1 =
      some ⟨⟨1⟩, .plain { event := ⟨1⟩, hold := .borrowed, token := some ⟨0⟩ }⟩ := rfl
  intro action member
  unfold cyclicScript at member
  split at member
  · simp only [List.mem_cons, List.not_mem_nil, or_false] at member
    rcases member with rfl | rfl | rfl
    · exact .makes 2 ⟨2⟩ .owned
    · refine .polls (fun holding found => ?_) _
      cases vacant.symm.trans found
    · exact .sets (by decide)
  · simp only [List.mem_cons, List.not_mem_nil, or_false] at member
    rcases member with rfl | rfl | rfl | rfl
    · exact .sets (by decide)
    · refine .polls (fun holding found => ?_) _
      cases held.symm.trans found
      exact ⟨_, rfl⟩
    · exact .sets (by decide)
    · exact .drops 0
  · cases member

theorem runs_out_rearming :
    let start := (Machine.follow cyclicMoves).2
    let stage := fun choices => stage (fun _ => cyclicScript) choices
      { machine := start, agenda := [[.setEvent ⟨0⟩]] }
    (∀ choices : Nat → Nat,
      (∃ bound, ∀ steps, bound ≤ steps →
        (stage choices steps).agenda = [[]] ∧ (stage choices steps).machine.calls = []) ∧
      ∀ steps, (stage choices steps).machine.calls.length ≤ 3 ∧
        (openings (stage choices steps).trace).Nodup) ∧
    (stage (fun _ => 0) 7).machine.calls.length = 3 := by
  intro start stage
  refine ⟨fun choices => ?_, by decide⟩
  have begun : Tame start { machine := start, agenda := [[.setEvent ⟨0⟩]] } := by
    refine ⟨fun _ plain => plain, fun plan inside action planned => ?_⟩
    rw [List.mem_singleton.mp inside] at planned
    rw [List.mem_singleton.mp planned]
    exact .sets (by decide)
  have first : Machine.Run ((Machine.follow cyclicMoves).1 ++ []) start := by
    rw [List.append_nil]
    exact Machine.run_follow cyclicMoves
  obtain ⟨⟨bound, finished⟩, always⟩ := runs_out (Machine.run_follow cyclicMoves) ⟨0⟩
    (fun _ => cyclicScript) choices
    (stage_modest (.begin start _) first begun fun _ => cyclicScript_modest)
  refine ⟨⟨bound, finished⟩, fun steps => ?_⟩
  obtain ⟨-, -, ⟨above, calls, -, few⟩, once⟩ := always steps
  refine ⟨?_, once⟩
  have base : start.calls = [] := rfl
  have three : (start.events.unset start.events.made).length = 3 := by decide
  rw [calls, base, List.append_nil]
  exact three ▸ few

end Cascade

end Latch
