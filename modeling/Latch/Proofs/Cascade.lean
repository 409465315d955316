import Latch.Proofs.Callbacks
import Mathlib.Algebra.GroupWithZero.Nat
import Mathlib.Logic.Relation

/-!
# Cascades

A waker may make calls before it comes back, and these may wake further wakers. If wakers do nothing
but set events, setting one event sets all events that a path of wakers leads to, and wakes each of
their waiters once, whatever the order: an event is set before its first waiter is woken, so that
nobody comes to it a second time.
-/

set_option autoImplicit false

namespace Latch

variable {ω σ ν : Type}

/-- A machine, and the calls that are still to be made on it: those of the wakers that are being
woken, innermost first, and last those of the caller. -/
structure Cascade (ω σ ν : Type) where
  machine : Machine ω σ ν
  agenda : List (List (Action ω σ ν))
  trace : List (Occurrence ω) := []

namespace Cascade

/-- A waker that is woken has the calls of its script to make. -/
def enter (scripts : ω → List (Action ω σ ν)) (cascade : Cascade ω σ ν) (turn : Turn ω σ ν)
    (agenda : List (List (Action ω σ ν))) : Cascade ω σ ν where
  machine := turn.machine
  agenda :=
    match turn.control with
    | .wake waker => scripts waker :: agenda
    | .ask _ | .done _ | .panicked _ => agenda
  trace := cascade.trace ++ turn.trace

variable [Waker ω] [DecidableEq ν]

/-- The innermost waker makes its next call, or comes back if it has made them all. -/
def step (scripts : ω → List (Action ω σ ν)) (cascade : Cascade ω σ ν) (choice : Nat) :
    Cascade ω σ ν :=
  match cascade.agenda with
  | [] | [[]] => cascade
  | [] :: outer => cascade.enter scripts (cascade.machine.resume .ready choice) outer
  | (action :: rest) :: outer =>
      cascade.enter scripts (cascade.machine.perform choice action) (rest :: outer)

def run (scripts : ω → List (Action ω σ ν)) (choices : List Nat) (cascade : Cascade ω σ ν) :
    Cascade ω σ ν :=
  choices.foldl (step scripts) cascade

end Cascade

/-! ## Wakers that set events -/

/-- The waiters of events that were called, with their events. -/
def Occurrence.wakes? : Occurrence ω → Option (EventId × Token × ω)
  | .woken (some event) token waker => some (event, token, waker)
  | .woken none .. | .registered .. | .refreshed .. | .exchanged .. | .withdrawn .. => none
  | .cancelled _ | .releasingAll .. | .releasingOne _ | .eventSet .. => none

def wakes (trace : List (Occurrence ω)) : List (EventId × Token × ω) :=
  trace.filterMap Occurrence.wakes?

/-- The waiters that a call has still to wake, with the event that it set. -/
def Call.queue : Call ω σ ν → List (EventId × Token × ω)
  | .setting event _ remaining => remaining.map (event, ·)
  | .releasingAll .. | .releasingOne .. | .draining .. | .polling .. | .waking .. => []

namespace Events

/-- The waiters of an event, with the event. -/
def waiters (events : Events ω) (id : EventId) : List (EventId × Token × ω) :=
  (events.get id).registry.entries.map (id, ·)

/-- A waiter of an unset event sets another unset event when it is woken. -/
def Sets (events : Events ω) (targets : ω → List EventId) (id other : EventId) : Prop :=
  (events.get id).isSet = false ∧ (events.get other).isSet = false ∧
    ∃ entry ∈ (events.get id).registry.entries, other ∈ targets entry.2

/-- A path of wakers leads from one event to another. -/
def Reaches (events : Events ω) (targets : ω → List EventId) : EventId → EventId → Prop :=
  Relation.ReflTransGen (events.Sets targets)

end Events

theorem Events.Reaches.unset {events : Events ω} {targets : ω → List EventId}
    {id other : EventId} (reaches : events.Reaches targets id other)
    (unset : (events.get id).isSet = false) : (events.get other).isSet = false := by
  cases reaches with
  | refl => exact unset
  | tail _ sets => exact sets.2.1

namespace Cascade

/-- What a waker does that sets some events. -/
def setting (targets : ω → List EventId) (waker : ω) : List (Action ω σ ν) :=
  (targets waker).map .setEvent

/-- It is still to be made that an event is set. -/
def Plans (cascade : Cascade ω σ ν) (id : EventId) : Prop :=
  ∃ plan ∈ cascade.agenda, .setEvent id ∈ plan

/-- How far a cascade has come. The events in `order` were set, in this order; of their waiters
those in `hand` and those of the calls `above` are still to be woken, and all others were woken and
have set their events, or have it on their agenda. -/
structure Sound (start : Machine ω σ ν) (targets : ω → List EventId) (event : EventId)
    (order : List EventId) (above : List (Call ω σ ν)) (hand : List (EventId × Token × ω))
    (cascade : Cascade ω σ ν) : Prop where
  events : ∀ id, cascade.machine.events.get id =
    if id ∈ order then (start.events.get id).tripped else start.events.get id
  futures : cascade.machine.futures = start.futures
  registries : cascade.machine.registries = start.registries
  calls : cascade.machine.calls = above ++ start.calls
  depth : cascade.agenda.length = above.length + 1
  fresh : (start.events.get event).isSet = false
  settings : ∀ call ∈ above, ∃ id released remaining, call = .setting id released remaining
  unique : order.Nodup
  reached : ∀ id ∈ order, start.events.Reaches targets event id
  planned : ∀ plan ∈ cascade.agenda, ∀ action ∈ plan, ∃ id, action = .setEvent id ∧
    ((start.events.get id).isSet = false → start.events.Reaches targets event id)
  begun : event ∈ order ∨ cascade.Plans event
  closed : ∀ id ∈ order, ∀ entry ∈ start.events.waiters id,
    entry ∈ hand ++ above.flatMap Call.queue ∨
      ∀ target ∈ targets entry.2.2,
        (cascade.machine.events.get target).isSet = true ∨ cascade.Plans target
  told : (wakes cascade.trace ++ (hand ++ above.flatMap Call.queue)).Perm
    (order.flatMap start.events.waiters)

/-- The calls that some wakers have to make, and their coming back. -/
def weight (targets : ω → List EventId) (wakers : List ω) : Nat :=
  (wakers.map fun waker => (targets waker).length + 1).sum

/-- What is left to do at most. -/
def load (targets : ω → List EventId) (cascade : Cascade ω σ ν) : Nat :=
  (cascade.machine.events.table.values.map (weight targets ·.registry.members.values)).sum +
    (cascade.machine.calls.map (weight targets ·.outstanding)).sum +
    (cascade.agenda.map (·.length + 1)).sum

section

variable {targets : ω → List EventId} {start : Machine ω σ ν} {event id : EventId}
  {order : List EventId} {above : List (Call ω σ ν)} {hand : List (EventId × Token × ω)}
  {cascade : Cascade ω σ ν} {rest : List (Action ω σ ν)} {outer : List (List (Action ω σ ν))}

theorem Plans.of_cons (agenda : cascade.agenda = (.setEvent id :: rest) :: outer)
    {target : EventId} (plans : cascade.Plans target) :
    target = id ∨ ∃ plan ∈ rest :: outer, .setEvent target ∈ plan := by
  obtain ⟨plan, member, inside⟩ := plans
  rw [agenda] at member
  rcases List.mem_cons.mp member with rfl | later
  · rcases List.mem_cons.mp inside with same | next
    · exact .inl (Action.setEvent.inj same)
    · exact .inr ⟨rest, List.mem_cons_self, next⟩
  · exact .inr ⟨plan, List.mem_cons_of_mem _ later, inside⟩

namespace Sound

theorem mem_order (sound : Sound start targets event order above hand cascade)
    (set : (cascade.machine.events.get id).isSet = true)
    (unset : (start.events.get id).isSet = false) : id ∈ order := by
  by_cases member : id ∈ order
  · exact member
  · rw [sound.events, if_neg member, unset] at set
    cases set

theorem get_of_unset (sound : Sound start targets event order above hand cascade)
    (unset : (cascade.machine.events.get id).isSet = false) :
    id ∉ order ∧ cascade.machine.events.get id = start.events.get id := by
  have absent : id ∉ order := by
    intro member
    rw [sound.events, if_pos member] at unset
    cases unset
  exact ⟨absent, by rw [sound.events, if_neg absent]⟩

theorem plan_head (sound : Sound start targets event order above hand cascade)
    {action : Action ω σ ν} (agenda : cascade.agenda = (action :: rest) :: outer) :
    ∃ id, action = .setEvent id ∧
      ((start.events.get id).isSet = false → start.events.Reaches targets event id) :=
  sound.planned (action :: rest) (by rw [agenda]; exact List.mem_cons_self) action
    List.mem_cons_self

theorem plan_tail (sound : Sound start targets event order above hand cascade)
    {action : Action ω σ ν} (agenda : cascade.agenda = (action :: rest) :: outer) :
    ∀ plan ∈ rest :: outer, ∀ action ∈ plan, ∃ id, action = .setEvent id ∧
      ((start.events.get id).isSet = false → start.events.Reaches targets event id) := by
  intro plan member other inside
  rcases List.mem_cons.mp member with rfl | later
  · exact sound.planned (action :: plan) (by rw [agenda]; exact List.mem_cons_self) other
      (List.mem_cons_of_mem _ inside)
  · exact sound.planned plan (by rw [agenda]; exact List.mem_cons_of_mem _ later) other inside

theorem begin {machine : Machine ω σ ν} (targets : ω → List EventId)
    (unset : (machine.events.get event).isSet = false) :
    Sound machine targets event [] [] [] { machine, agenda := [[.setEvent event]] } where
  events _ := rfl
  futures := rfl
  registries := rfl
  calls := rfl
  depth := rfl
  fresh := unset
  settings := nofun
  unique := .nil
  reached := nofun
  planned := by
    intro plan inside action planned
    rw [List.mem_singleton.mp inside] at planned
    exact ⟨event, List.mem_singleton.mp planned, fun _ => .refl⟩
  begun := .inr ⟨_, List.mem_singleton_self _, List.mem_singleton_self _⟩
  closed := nofun
  told := .nil

/-! ## Single steps -/

/-- Setting a set event is done at once. -/
theorem skip (sound : Sound start targets event order above [] cascade)
    (agenda : cascade.agenda = (.setEvent id :: rest) :: outer)
    (set : (cascade.machine.events.get id).isSet = true) :
    Sound start targets event order above [] { cascade with agenda := rest :: outer } :=
  { sound with
    depth := by
      have depth := sound.depth
      rw [agenda] at depth
      exact depth
    planned := sound.plan_tail agenda
    begun := by
      rcases sound.begun with before | plans
      · exact .inl before
      · rcases plans.of_cons agenda with rfl | later
        · exact .inl (sound.mem_order set sound.fresh)
        · exact .inr later
    closed := by
      intro other member entry waiter
      refine (sound.closed other member entry waiter).imp_right fun all target aimed => ?_
      rcases all target aimed with already | plans
      · exact .inl already
      · rcases plans.of_cons agenda with rfl | later
        · exact .inl set
        · exact .inr later }

/-- An event is set, and its waiters are in hand. -/
theorem trip (sound : Sound start targets event order above [] cascade)
    (agenda : cascade.agenda = (.setEvent id :: rest) :: outer)
    (unset : (cascade.machine.events.get id).isSet = false) (count : Nat) :
    Sound start targets event (order ++ [id]) above (start.events.waiters id)
      { machine := { cascade.machine with
          events := cascade.machine.events.put id (cascade.machine.events.get id).tripped }
        agenda := rest :: outer
        trace := cascade.trace ++ [.releasingAll (some id) count] } := by
  obtain ⟨absent, same⟩ := sound.get_of_unset unset
  have sets : ∀ target, (cascade.machine.events.get target).isSet = true →
      ((cascade.machine.events.put id (cascade.machine.events.get id).tripped).get
        target).isSet = true := by
    intro target already
    rw [Events.get_put]
    split
    · rfl
    · exact already
  constructor
  · intro other
    simp only [Events.get_put, List.mem_append, List.mem_singleton]
    by_cases here : other = id
    · rw [if_pos here, if_pos (.inr here), same, here]
    · simp only [here, or_false]
      exact sound.events other
  · exact sound.futures
  · exact sound.registries
  · exact sound.calls
  · have depth := sound.depth
    rw [agenda] at depth
    exact depth
  · exact sound.fresh
  · exact sound.settings
  · refine List.nodup_append.mpr ⟨sound.unique, by simp, ?_⟩
    rintro other member _ here rfl
    exact absent (List.mem_singleton.mp here ▸ member)
  · intro other member
    rcases List.mem_append.mp member with before | here
    · exact sound.reached other before
    · -- Whatever is on the agenda was reached unless it was set at the start, and it was not.
      obtain ⟨target, aimed, leads⟩ := sound.plan_head agenda
      cases aimed
      rw [List.mem_singleton.mp here]
      exact leads (same ▸ unset)
  · exact sound.plan_tail agenda
  · rcases sound.begun with before | plans
    · exact .inl (List.mem_append_left _ before)
    · rcases plans.of_cons agenda with rfl | later
      · exact .inl (List.mem_append_right _ (List.mem_singleton_self _))
      · exact .inr later
  · intro other member entry waiter
    rcases List.mem_append.mp member with before | here
    · rcases sound.closed other before entry waiter with waits | all
      · exact .inl (List.mem_append_right _ waits)
      · -- Setting the event takes one call off the agenda, and makes good on it.
        refine .inr fun target aimed => ?_
        rcases all target aimed with already | plans
        · exact .inl (sets target already)
        · rcases plans.of_cons agenda with rfl | later
          · exact .inl (by simp only [Events.get_put_self]; rfl)
          · exact .inr later
    · rw [List.mem_singleton.mp here] at waiter
      exact .inl (List.mem_append_left _ waiter)
  · have silent : wakes (cascade.trace ++ [.releasingAll (some id) count]) =
        wakes cascade.trace := by simp [wakes, Occurrence.wakes?]
    rw [silent, List.flatMap_append, List.flatMap_singleton]
    refine (List.perm_append_comm_assoc _ _ _).trans ?_
    exact (List.perm_append_comm).trans (sound.told.append_right _)

/-- A waker comes back, and the waiters that are left are in hand. -/
theorem pop {released : Nat} {remaining : List (Token × ω)}
    (sound : Sound start targets event order (.setting id released remaining :: above) [] cascade)
    (agenda : cascade.agenda = [] :: outer) :
    Sound start targets event order above (remaining.map (id, ·))
      { cascade with machine := { cascade.machine with calls := above ++ start.calls }
                     agenda := outer } := by
  have left : ∀ target, cascade.Plans target → ∃ plan ∈ outer, .setEvent target ∈ plan := by
    rintro target ⟨plan, member, inside⟩
    rw [agenda] at member
    rcases List.mem_cons.mp member with rfl | later
    · cases inside
    · exact ⟨plan, later, inside⟩
  exact
    { sound with
      calls := rfl
      depth := by
        have depth := sound.depth
        rw [agenda] at depth
        exact Nat.succ.inj depth
      settings := fun call member => sound.settings call (List.mem_cons_of_mem _ member)
      planned := fun plan member =>
        sound.planned plan (by rw [agenda]; exact List.mem_cons_of_mem _ member)
      begun := sound.begun.imp_right (left event)
      closed := fun other member entry waiter =>
        (sound.closed other member entry waiter).imp_right fun all target aimed =>
          (all target aimed).imp_right (left target) }

/-- The next waiter in hand is woken, or there is none. -/
theorem release {remaining : List (Token × ω)}
    (sound : Sound start targets event order above (remaining.map (id, ·)) cascade)
    (released choice : Nat) :
    ∃ above, Sound start targets event order above []
      (cascade.enter (setting targets)
        (cascade.machine.continueSet id released remaining choice) cascade.agenda) := by
  by_cases waiting : remaining = []
  · subst waiting
    have silent : wakes (cascade.trace ++ [.eventSet id released]) = wakes cascade.trace := by
      simp [wakes, Occurrence.wakes?]
    refine ⟨above, { sound with told := ?_ }⟩
    change (wakes (cascade.trace ++ [.eventSet id released]) ++ _).Perm _
    rw [silent]
    exact sound.told
  · obtain ⟨entry, left, all, same⟩ :=
      cascade.machine.continueSet_of_ne_nil id released choice waiting
    have inHand : (remaining.map (id, ·)).Perm ((id, entry) :: left.map (id, ·)) := all.map _
    obtain ⟨member, waiter⟩ :
        id ∈ order ∧ entry ∈ (start.events.get id).registry.entries := by
      have told : (id, entry) ∈ order.flatMap start.events.waiters :=
        sound.told.subset (List.mem_append_right _ (List.mem_append_left _
          (inHand.symm.subset List.mem_cons_self)))
      obtain ⟨other, member, inside⟩ := List.mem_flatMap.mp told
      obtain ⟨found, here, equal⟩ := List.mem_map.mp inside
      cases equal
      exact ⟨member, here⟩
    have queue : (Call.setting id released left :: above).flatMap Call.queue =
        left.map (id, ·) ++ above.flatMap Call.queue := List.flatMap_cons
    have woken : wakes (cascade.trace ++ [.woken (some id) entry.1 entry.2]) =
        wakes cascade.trace ++ [(id, entry)] := by
      simp [wakes, Occurrence.wakes?]
    refine ⟨.setting id released left :: above, ?_⟩
    rw [same]
    constructor
    · exact sound.events
    · exact sound.futures
    · exact sound.registries
    · exact congrArg _ sound.calls
    · exact congrArg _ sound.depth
    · exact sound.fresh
    · intro call inside
      rcases List.mem_cons.mp inside with rfl | before
      · exact ⟨id, released, left, rfl⟩
      · exact sound.settings call before
    · exact sound.unique
    · exact sound.reached
    · intro plan inside action planned
      rcases List.mem_cons.mp inside with rfl | before
      · -- What the waker is about to set is one step further than the event it waited for.
        obtain ⟨target, aimed, rfl⟩ := List.mem_map.mp planned
        refine ⟨target, rfl, fun unset => ?_⟩
        have reached := sound.reached id member
        exact reached.tail ⟨reached.unset sound.fresh, unset, entry, waiter, aimed⟩
      · exact sound.planned plan before action planned
    · exact sound.begun.imp_right fun ⟨plan, inside, planned⟩ =>
        ⟨plan, List.mem_cons_of_mem _ inside, planned⟩
    · intro other inside found waits
      rw [List.nil_append, queue]
      rcases sound.closed other inside found waits with still | past
      · rcases List.mem_append.mp still with here | elsewhere
        · rcases List.mem_cons.mp (inHand.subset here) with rfl | later
          · refine .inr fun target aimed => .inr ⟨_, List.mem_cons_self, ?_⟩
            exact List.mem_map_of_mem aimed
          · exact .inl (List.mem_append_left _ later)
        · exact .inl (List.mem_append_right _ elsewhere)
      · refine .inr fun target aimed => (past target aimed).imp_right ?_
        exact fun ⟨plan, before, planned⟩ => ⟨plan, List.mem_cons_of_mem _ before, planned⟩
    · rw [List.nil_append, queue]
      simp only [enter, woken]
      rw [List.append_assoc]
      exact .trans (.append_left _ (inHand.symm.append_right _)) sound.told

end Sound

/-! ## Work that is left -/

theorem weight_perm {wakers others : List ω} (same : wakers.Perm others) :
    weight targets wakers = weight targets others :=
  (same.map _).sum_nat

theorem weight_put (targets : ω → List EventId) (events : Events ω) (id : EventId)
    (event : Event ω) :
    ((events.put id event).table.values.map (weight targets ·.registry.members.values)).sum +
        weight targets (events.get id).registry.members.values =
      (events.table.values.map (weight targets ·.registry.members.values)).sum +
        weight targets event.registry.members.values := by
  have inserted := ((events.table.values_insert_perm id event).map
    (weight targets ·.registry.members.values)).sum_nat
  rw [List.map_cons, List.sum_cons] at inserted
  simp only [Events.put]
  cases found : events.table.get? id with
  | none =>
      have none : weight targets (events.get id).registry.members.values = 0 := by
        simp only [Events.get, found]
        rfl
      rw [Table.erase_of_get?_eq_none found] at inserted
      omega
  | some old =>
      have taken := ((Table.values_perm_of_get? found).map
        (weight targets ·.registry.members.values)).sum_nat
      rw [List.map_cons, List.sum_cons] at taken
      have same : events.get id = old := by simp only [Events.get, found, Option.getD_some]
      rw [same]
      omega

theorem load_enter (cascade : Cascade ω σ ν) (id : EventId) (released choice : Nat)
    (remaining : List (Token × ω)) :
    load targets (cascade.enter (setting targets)
      (cascade.machine.continueSet id released remaining choice) cascade.agenda) =
        load targets cascade + weight targets (remaining.map Prod.snd) := by
  by_cases waiting : remaining = []
  · subst waiting
    rfl
  · obtain ⟨entry, left, all, same⟩ :=
      cascade.machine.continueSet_of_ne_nil id released choice waiting
    rw [weight_perm (all.map Prod.snd), same]
    simp only [load, enter, Machine.push, Call.outstanding, setting, weight, List.map_cons,
      List.sum_cons, List.length_map]
    omega

theorem load_trip (agenda : cascade.agenda = (.setEvent id :: rest) :: outer)
    (trace : List (Occurrence ω)) :
    load targets
        { machine := { cascade.machine with
            events := cascade.machine.events.put id (cascade.machine.events.get id).tripped }
          agenda := rest :: outer
          trace } +
      weight targets (cascade.machine.events.get id).registry.members.values + 1 =
        load targets cascade := by
  have put := weight_put targets cascade.machine.events id
    (cascade.machine.events.get id).tripped
  have none : weight targets (cascade.machine.events.get id).tripped.registry.members.values = 0 :=
    rfl
  simp only [load, agenda, List.map_cons, List.sum_cons, List.length_cons]
  omega

/-! ## The end of a cascade -/

namespace Sound

theorem above_nil (sound : Sound start targets event order above hand cascade)
    (finished : cascade.agenda = [[]]) : above = [] := by
  have depth := sound.depth
  rw [finished] at depth
  exact List.eq_nil_of_length_eq_zero (Nat.succ.inj depth).symm

theorem mem_order_of_reaches (sound : Sound start targets event order above [] cascade)
    (finished : cascade.agenda = [[]]) (reaches : start.events.Reaches targets event id) :
    id ∈ order := by
  have unplanned : ∀ target, ¬ cascade.Plans target := by
    rintro target ⟨plan, member, inside⟩
    rw [finished] at member
    rw [List.mem_singleton.mp member] at inside
    cases inside
  have nothing : above.flatMap Call.queue = [] := by rw [sound.above_nil finished]; rfl
  -- Along the path: nothing is planned any more, and nobody is still to be woken.
  induction reaches with
  | refl => exact sound.begun.resolve_right (unplanned event)
  | tail _ sets ih =>
      obtain ⟨-, unset, entry, waiter, aimed⟩ := sets
      rcases sound.closed _ ih (_, entry) (List.mem_map_of_mem waiter) with waits | all
      · rw [nothing] at waits
        cases waits
      · exact sound.mem_order ((all _ aimed).resolve_right (unplanned _)) unset

/-- What a cascade that came to its end has done, read off the machine that it began with. -/
theorem outcome (sound : Sound start targets event order above [] cascade)
    (finished : cascade.agenda = [[]]) :
    (∀ id, id ∈ order ↔ start.events.Reaches targets event id) ∧
    cascade.machine.calls = start.calls ∧
    (wakes cascade.trace).Perm (order.flatMap start.events.waiters) := by
  have calls := sound.calls
  have told := sound.told
  rw [sound.above_nil finished] at calls told
  refine ⟨fun id => ⟨sound.reached id, sound.mem_order_of_reaches finished⟩, calls, ?_⟩
  rw [List.flatMap_nil, List.append_nil, List.append_nil] at told
  exact told

end Sound

/-! ## Runs of cascades -/

variable [Waker ω] [DecidableEq ν]

variable {scripts : ω → List (Action ω σ ν)}

theorem step_of_set (agenda : cascade.agenda = (.setEvent id :: rest) :: outer)
    (set : (cascade.machine.events.get id).isSet = true) (choice : Nat) :
    cascade.step scripts choice = { cascade with agenda := rest :: outer } := by
  simp only [step, agenda, Machine.perform, Machine.setEvent_of_set set, Machine.idle, enter,
    List.append_nil]

theorem step_of_unset (agenda : cascade.agenda = (.setEvent id :: rest) :: outer)
    (unset : (cascade.machine.events.get id).isSet = false)
    (free : (cascade.machine.events.get id).waiters.inUse = false) (choice : Nat) :
    cascade.step scripts choice =
      let registry := (cascade.machine.events.get id).registry
      let tripped := { cascade.machine with
        events := cascade.machine.events.put id (cascade.machine.events.get id).tripped }
      enter scripts
        { machine := tripped
          agenda := rest :: outer
          trace := cascade.trace ++ [.releasingAll (some id) registry.size] }
        (tripped.continueSet id registry.size registry.entries choice) (rest :: outer) := by
  simp only [step, agenda, Machine.perform, Machine.setEvent_eq_of_unset free unset, enter,
    List.append_assoc, List.singleton_append]

theorem step_of_setting {plan : List (Action ω σ ν)} {released : Nat}
    {remaining : List (Token × ω)} {calls : List (Call ω σ ν)}
    (agenda : cascade.agenda = [] :: plan :: outer)
    (running : cascade.machine.calls = .setting id released remaining :: calls) (choice : Nat) :
    cascade.step scripts choice =
      let popped := { cascade.machine with calls }
      enter scripts { cascade with machine := popped, agenda := plan :: outer }
        (popped.continueSet id released remaining choice) (plan :: outer) := by
  simp only [step, agenda, Machine.resume, running]
  rfl

theorem step_of_finished (finished : cascade.agenda = [[]]) (choice : Nat) :
    cascade.step scripts choice = cascade := by
  simp only [step, finished]

/-- A cascade is a run of its machine. -/
theorem step_follows {history : List (Occurrence ω)}
    (run : Machine.Run (history ++ cascade.trace) cascade.machine) (choice : Nat) :
    Machine.Run (history ++ (cascade.step scripts choice).trace)
      (cascade.step scripts choice).machine := by
  unfold step
  split
  · exact run
  · exact run
  · simp only [enter]
    rw [← List.append_assoc]
    exact run.step (.resume .ready choice)
  · next action _ _ _ =>
      simp only [enter]
      rw [← List.append_assoc]
      exact run.step (.perform choice action)

theorem run_follows {history : List (Occurrence ω)}
    (run : Machine.Run (history ++ cascade.trace) cascade.machine) (choices : List Nat) :
    Machine.Run (history ++ (cascade.run scripts choices).trace)
      (cascade.run scripts choices).machine := by
  induction choices generalizing cascade with
  | nil => exact run
  | cons choice rest ih => exact ih (step_follows run choice)

theorem run_of_finished (finished : cascade.agenda = [[]]) (choices : List Nat) :
    cascade.run scripts choices = cascade := by
  induction choices with
  | nil => rfl
  | cons choice rest ih =>
      rw [run, List.foldl_cons, step_of_finished finished]
      exact ih

namespace Sound

theorem step (sound : Sound start targets event order above [] cascade)
    (free : ∀ id, (start.events.get id).waiters.inUse = false)
    (unfinished : cascade.agenda ≠ [[]]) (choice : Nat) :
    (∃ order above,
      Sound start targets event order above [] (cascade.step (setting targets) choice)) ∧
    load targets (cascade.step (setting targets) choice) + 1 = load targets cascade := by
  have depth := sound.depth
  cases agenda : cascade.agenda with
  | nil =>
      rw [agenda] at depth
      cases depth
  | cons plan outer =>
      cases plan with
      | cons action rest =>
          obtain ⟨id, rfl, -⟩ := sound.plan_head agenda
          cases flag : (cascade.machine.events.get id).isSet with
          | true =>
              rw [step_of_set agenda flag]
              refine ⟨⟨order, above, sound.skip agenda flag⟩, ?_⟩
              simp only [load, agenda, List.map_cons, List.sum_cons, List.length_cons]
              omega
          | false =>
              have same := (sound.get_of_unset flag).2
              rw [step_of_unset agenda flag (by rw [same]; exact free id)]
              let registry := (cascade.machine.events.get id).registry
              have tripped := sound.trip agenda flag registry.size
              rw [Events.waiters, ← same] at tripped
              refine ⟨⟨_, tripped.release registry.size choice⟩, ?_⟩
              rw [← load_trip agenda (cascade.trace ++ [.releasingAll (some id) registry.size])]
              exact congrArg (· + 1) (load_enter _ id registry.size choice registry.entries)
      | nil =>
          -- The caller has made all its calls, so this is a waker that is under way.
          cases outer with
          | nil => exact absurd agenda unfinished
          | cons plan outer =>
              obtain _ | ⟨call, above⟩ := above
              · rw [agenda] at depth
                cases depth
              · obtain ⟨id, released, remaining, rfl⟩ := sound.settings call List.mem_cons_self
                have running : cascade.machine.calls =
                    .setting id released remaining :: (above ++ start.calls) := sound.calls
                rw [step_of_setting agenda running]
                refine ⟨⟨order, (sound.pop agenda).release released choice⟩, ?_⟩
                rw [load_enter]
                simp only [load, agenda, running, List.map_cons, List.sum_cons, List.length_nil,
                  Call.outstanding]
                omega

/-- Choices that are no fewer than what is left to do are enough to come to the end. -/
theorem run (free : ∀ id, (start.events.get id).waiters.inUse = false) (choices : List Nat)
    (sound : Sound start targets event order above [] cascade)
    (enough : load targets cascade ≤ choices.length) :
    (∃ order above, Sound start targets event order above []
      (cascade.run (setting targets) choices)) ∧
    (cascade.run (setting targets) choices).agenda = [[]] := by
  induction choices generalizing cascade order above with
  | nil =>
      have depth := sound.depth
      cases agenda : cascade.agenda with
      | nil =>
          rw [agenda] at depth
          cases depth
      | cons plan outer =>
          simp only [load, agenda, List.map_cons, List.sum_cons, List.length_nil] at enough
          omega
  | cons choice rest ih =>
      by_cases finished : cascade.agenda = [[]]
      · rw [run_of_finished finished]
        exact ⟨⟨order, above, sound⟩, finished⟩
      · obtain ⟨⟨order, above, next⟩, less⟩ := sound.step free finished choice
        rw [List.length_cons] at enough
        exact ih next (by omega)

end Sound

end

end Cascade

/-! ## Reachability -/

theorem Events.waiters_of (events : Events ω) {order : List EventId} (unique : order.Nodup)
    (id : EventId) :
    (order.flatMap events.waiters).filter (·.1 = id) =
      if id ∈ order then events.waiters id else [] := by
  have own : ∀ other, (events.waiters other).filter (·.1 = id) =
      if other = id then events.waiters other else [] := by
    intro other
    split
    · next same =>
        refine List.filter_eq_self.mpr fun waiter member => ?_
        obtain ⟨entry, -, rfl⟩ := List.mem_map.mp member
        exact decide_eq_true same
    · next different =>
        refine List.filter_eq_nil_iff.mpr fun waiter member => ?_
        obtain ⟨entry, -, rfl⟩ := List.mem_map.mp member
        exact fun same => different (of_decide_eq_true same)
  induction order with
  | nil => rfl
  | cons other rest ih =>
      obtain ⟨absent, unique⟩ := List.nodup_cons.mp unique
      rw [List.flatMap_cons, List.filter_append, ih unique, own]
      by_cases same : other = id
      · subst same
        simp [absent]
      · simp [same, Ne.symm same]

variable [Waker ω] [DecidableEq ν]

/-- If wakers do nothing but set events, then setting an unset event comes to an end, whatever
waiter is next to be woken each time. It sets those events that a path of wakers leads to, with
nobody left to wait for them, and calls each of their waiters once and no others. All other events
are as before, and so is everything else. Nothing of this depends on the order. -/
theorem Cascade.run_reaches {history : List (Occurrence ω)} {machine : Machine ω σ ν}
    (run : Machine.Run history machine) {event : EventId}
    (unset : (machine.events.get event).isSet = false) (targets : ω → List EventId) :
    ∃ bound,
      (∀ choices : List Nat, bound ≤ choices.length →
        let final := Cascade.run (setting targets) choices
          { machine, agenda := [[.setEvent event]] }
        final.agenda = [[]] ∧ Machine.Run (history ++ final.trace) final.machine ∧
        (∀ id, (final.machine.events.get id).isSet = true ↔
          (machine.events.get id).isSet = true ∨ machine.events.Reaches targets event id) ∧
        (∀ id, machine.events.Reaches targets event id →
          (final.machine.events.get id).registry = ∅ ∧
          ((wakes final.trace).filter (·.1 = id)).Perm (machine.events.waiters id)) ∧
        (∀ id, ¬ machine.events.Reaches targets event id →
          final.machine.events.get id = machine.events.get id ∧
          (wakes final.trace).filter (·.1 = id) = []) ∧
        final.machine.futures = machine.futures ∧
        final.machine.registries = machine.registries ∧
        final.machine.calls = machine.calls) ∧
      ∀ choices others : List Nat, bound ≤ choices.length → bound ≤ others.length →
        let first := Cascade.run (setting targets) choices
          { machine, agenda := [[.setEvent event]] }
        let second := Cascade.run (setting targets) others
          { machine, agenda := [[.setEvent event]] }
        (∀ id, first.machine.events.get id = second.machine.events.get id) ∧
        (wakes first.trace).Perm (wakes second.trace) := by
  let begun : Cascade ω σ ν := { machine, agenda := [[.setEvent event]] }
  have sound := Sound.begin targets unset
  have followed : Machine.Run (history ++ begun.trace) begun.machine := by
    rw [List.append_nil]
    exact run
  refine ⟨load targets begun, ?_, ?_⟩
  · intro choices enough final
    obtain ⟨⟨order, above, sound⟩, finished⟩ := sound.run run.owned.free choices enough
    obtain ⟨reached, calls, told⟩ := sound.outcome finished
    have woken : ∀ id, ((wakes final.trace).filter (·.1 = id)).Perm
        (if id ∈ order then machine.events.waiters id else []) := by
      intro id
      rw [← machine.events.waiters_of sound.unique id]
      exact told.filter _
    refine ⟨finished, run_follows followed choices, ?_, ?_, ?_, sound.futures, sound.registries,
      calls⟩
    · intro id
      rw [← reached, sound.events]
      split
      · next member => exact ⟨fun _ => .inr member, fun _ => rfl⟩
      · next absent => exact ⟨.inl, fun either => either.resolve_right absent⟩
    · intro id leads
      have member := (reached id).mpr leads
      have woken := woken id
      rw [if_pos member] at woken
      refine ⟨?_, woken⟩
      rw [sound.events, if_pos member]
      rfl
    · intro id apart
      have absent := fun member => apart ((reached id).mp member)
      have woken := woken id
      rw [if_neg absent] at woken
      refine ⟨?_, woken.eq_nil⟩
      rw [sound.events, if_neg absent]
  · intro choices others enough plenty first second
    obtain ⟨⟨order, above, left⟩, finished⟩ := sound.run run.owned.free choices enough
    obtain ⟨⟨order', above', right⟩, ended⟩ := sound.run run.owned.free others plenty
    obtain ⟨reached, -, told⟩ := left.outcome finished
    obtain ⟨reached', -, told'⟩ := right.outcome ended
    have same : ∀ id, id ∈ order ↔ id ∈ order' := fun id => (reached id).trans (reached' id).symm
    constructor
    · intro id
      rw [left.events, right.events]
      simp only [same]
    · have orders := (List.perm_ext_iff_of_nodup left.unique right.unique).mpr same
      exact told.trans ((orders.flatMap_right _).trans told'.symm)

/-- Four events; the third has two waiters, and each other event one. -/
def knotMoves : List (Machine.Move Pool.TaskId Nat Nat) :=
  [.perform 0 .makeEvent, .perform 0 .makeEvent, .perform 0 .makeEvent, .perform 0 .makeEvent,
    .perform 0 (.makeWait 0 ⟨0⟩ .owned), .perform 0 (.makeWait 1 ⟨1⟩ .owned),
    .perform 0 (.makeWait 2 ⟨2⟩ .owned), .perform 0 (.makeWait 3 ⟨2⟩ .borrowed),
    .perform 0 (.makeWait 4 ⟨3⟩ .owned), .perform 0 (.poll 0 ⟨0⟩), .perform 0 (.poll 1 ⟨1⟩),
    .perform 0 (.poll 2 ⟨1⟩), .perform 0 (.poll 3 ⟨2⟩), .perform 0 (.poll 4 ⟨3⟩)]

/-- The first two events set each other and the third. The fourth would set the second, but nobody
sets it. -/
def knotTargets (task : Pool.TaskId) : List EventId :=
  match task.number with
  | 0 => [⟨1⟩, ⟨0⟩]
  | 1 => [⟨0⟩, ⟨2⟩]
  | 2 => []
  | _ => [⟨1⟩]

theorem Cascade.run_reaches_knot :
    ∃ bound, ∀ choices : List Nat, bound ≤ choices.length →
      let start := (Machine.follow knotMoves).2
      let final := Cascade.run (setting knotTargets) choices
        { machine := start, agenda := [[.setEvent ⟨0⟩]] }
      final.agenda = [[]] ∧ (final.machine.events.get ⟨2⟩).registry = ∅ ∧
      (final.machine.events.get ⟨2⟩).isSet = true ∧
      ((wakes final.trace).filter (·.1 = ⟨2⟩)).Perm
        [(⟨2⟩, ⟨0⟩, ⟨1⟩), (⟨2⟩, ⟨1⟩, ⟨2⟩)] ∧
      final.machine.events.get ⟨3⟩ = start.events.get ⟨3⟩ := by
  let start := (Machine.follow knotMoves).2
  have unset : (start.events.get ⟨0⟩).isSet = false := by decide
  obtain ⟨bound, all, -⟩ := Cascade.run_reaches (Machine.run_follow knotMoves) unset knotTargets
  have leads : start.events.Reaches knotTargets ⟨0⟩ ⟨2⟩ := by
    have first : start.events.Sets knotTargets ⟨0⟩ ⟨1⟩ :=
      ⟨by decide, by decide, (⟨0⟩, ⟨0⟩), by decide, by decide⟩
    exact .tail (.single first) ⟨by decide, by decide, (⟨0⟩, ⟨1⟩), by decide, by decide⟩
  have apart : ¬ start.events.Reaches knotTargets ⟨0⟩ ⟨3⟩ := by
    intro leads
    cases leads with
    | tail _ sets =>
        obtain ⟨-, -, entry, -, aimed⟩ := sets
        unfold knotTargets at aimed
        split at aimed <;> simp at aimed
  refine ⟨bound, ?_⟩
  intro choices enough start final
  obtain ⟨finished, -, set, reached, others, -⟩ := all choices enough
  obtain ⟨emptied, woken⟩ := reached ⟨2⟩ leads
  exact ⟨finished, emptied, (set ⟨2⟩).mpr (.inr leads), woken, (others ⟨3⟩ apart).1⟩

end Latch
