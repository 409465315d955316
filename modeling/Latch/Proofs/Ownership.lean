import Latch.Proofs.Handling

/-!
# Owned registrations

Of an unset event, the members of its registry are the tokens that waits hold with it, each of them
held once, as long as the tokens have not begun to repeat; of a set event there are no members.
Every handling of waits keeps this, and handles the registrations of the waits at hand only.
-/

set_option autoImplicit false

namespace Latch

variable {ω : Type}

/-! ## Members under changes -/

namespace Registry

theorem keys_add {registry : Registry ω} (few : registry.issued < Token.limit) (waker : ω) :
    (registry.add waker).members.keys = registry.members.keys ++ [registry.next] := by
  unfold add
  simp only [Table.keys_insert, next_not_mem few, if_false]

theorem keys_remove (registry : Registry ω) (token : Token) :
    (registry.remove token).members.keys = registry.members.keys.filter (· ≠ token) := by
  simp only [remove, Table.keys, Table.erase, List.filter_map]
  rfl

theorem keys_replace (registry : Registry ω) (token : Token) (waker : ω) :
    (registry.replace token waker).members.keys = registry.members.keys := by
  unfold replace
  split
  · next present => simp only [Table.keys_insert, present, if_true]
  · rfl

theorem keys_update [Waker ω] (registry : Registry ω) (token : Token) (waker : ω) :
    (registry.update token waker).2.members.keys = registry.members.keys := by
  unfold update
  split
  · rfl
  · split
    · rfl
    · exact registry.keys_replace token waker

theorem issued_replace (registry : Registry ω) (token : Token) (waker : ω) :
    (registry.replace token waker).issued = registry.issued := by
  unfold replace
  split <;> rfl

theorem issued_update [Waker ω] (registry : Registry ω) (token : Token) (waker : ω) :
    (registry.update token waker).2.issued = registry.issued := by
  unfold update
  split
  · rfl
  · split
    · rfl
    · exact registry.issued_replace token waker

theorem issued_le_enrol [Waker ω] (registry : Registry ω) (token? : Option Token) (waker : ω) :
    registry.issued ≤ (registry.enrol token? waker).2.2.issued := by
  cases token? with
  | none => exact Nat.le_succ _
  | some token =>
      have same := registry.issued_update token waker
      cases updated : registry.update token waker with
      | mk refresh after =>
          rw [updated] at same
          simp only [enrol, updated]
          cases refresh with
          | absent => exact same ▸ Nat.le_succ _
          | kept | replaced => exact Nat.le_of_eq same.symm

theorem get?_update_of_ne [Waker ω] (registry : Registry ω) {token other : Token} (waker : ω)
    (different : other ≠ token) :
    (registry.update token waker).2.get? other = registry.get? other := by
  unfold update
  split
  · rfl
  · split
    · rfl
    · simp [get?_replace, different]

theorem enrol_member [Waker ω] {registry : Registry ω} {token : Token} (waker : ω)
    (member : token ∈ registry.members.keys) :
    ∃ enrolment, registry.enrol (some token) waker =
      (token, enrolment, (registry.update token waker).2) := by
  have present : registry.contains token = true := Table.contains_iff.mpr member
  unfold enrol
  cases updated : registry.update token waker with
  | mk refresh after =>
      cases refresh with
      | absent =>
          have stranger := (registry.update_absent_iff token waker).mp (by rw [updated])
          rw [stranger] at present
          cases present
      | kept => exact ⟨.kept, by simp [updated]⟩
      | replaced => exact ⟨.replaced, by simp [updated]⟩

end Registry

/-! ## Flags and registries under changes of events -/

namespace Events

variable (events : Events ω) (id : EventId) (change : Event ω → Event ω)

theorem isSet_modify (same : ∀ event, (change event).isSet = event.isSet) (other : EventId) :
    ((events.modify id change).get other).isSet = (events.get other).isSet := by
  rw [modify, get_put]
  split
  · next here => rw [here, same]
  · rfl

theorem waiters_modify (same : ∀ event, (change event).waiters = event.waiters)
    (other : EventId) :
    ((events.modify id change).get other).waiters = (events.get other).waiters := by
  rw [modify, get_put]
  split
  · next here => rw [here, same]
  · rfl

end Events

/-! ## Setting an event -/

/-- An event that was set: its waiters were taken out. -/
def Event.tripped (event : Event ω) : Event ω :=
  { event with isSet := true, waiters := ⟨∅, false⟩ }

theorem Event.trip_of_unset {event : Event ω} (unset : event.isSet = false)
    (free : event.waiters.inUse = false) :
    event.trip = (.ok (some event.registry), event.tripped) := by
  have acquired : event.waiters.acquire = .ok ⟨event.registry, true⟩ :=
    Guarded.acquire_eq_ok_iff.mpr ⟨free, rfl⟩
  simp only [trip, unset, acquired]
  rfl

/-! ## Tokens of waits -/

namespace Wait

/-- The token that a wait holds with an event. -/
def tokenOn? (event : EventId) (wait : Wait) : Option Token :=
  if wait.event = event then wait.token else none

/-- The tokens that some waits hold with an event. -/
def tokensOn (event : EventId) (waits : List Wait) : List Token := waits.filterMap (tokenOn? event)

theorem tokenOn?_eq_some {event : EventId} {wait : Wait} {token : Token} :
    wait.tokenOn? event = some token ↔ wait.event = event ∧ wait.token = some token := by
  unfold tokenOn?
  split
  · next here => simp [here]
  · next there => simp [there]

theorem mem_tokensOn {event : EventId} {waits : List Wait} {token : Token} :
    token ∈ tokensOn event waits ↔
      ∃ wait ∈ waits, wait.event = event ∧ wait.token = some token := by
  simp only [tokensOn, List.mem_filterMap, tokenOn?_eq_some]

theorem tokensOn_perm {event : EventId} {waits others : List Wait} (same : waits.Perm others) :
    (tokensOn event waits).Perm (tokensOn event others) :=
  same.filterMap (tokenOn? event)

theorem tokensOn_cons (event : EventId) (wait : Wait) (waits : List Wait) :
    tokensOn event (wait :: waits) = (wait.tokenOn? event).toList ++ tokensOn event waits := by
  unfold tokensOn
  rw [List.filterMap_cons]
  cases wait.tokenOn? event <;> rfl

theorem length_tokensOn (event : EventId) (waits : List Wait) :
    (tokensOn event waits).length =
      (waits.filter fun wait => wait.event = event ∧ wait.isRegistered = true).length := by
  induction waits with
  | nil => rfl
  | cons wait rest ih =>
      rw [tokensOn_cons, List.length_append, ih, List.filter_cons]
      by_cases same : wait.event = event
      · cases held : wait.token <;> simp [tokenOn?, same, isRegistered, held, Nat.add_comm]
      · simp [tokenOn?, same]

end Wait

open Wait

/-- No registry has handed out more tokens than there are. -/
def Events.Few (events : Events ω) : Prop := ∀ id, (events.get id).registry.issued ≤ Token.limit

/-- No registry is in use; a set event's registry has no members, and the members of an unset
event's registry are the tokens that the waits hold with it, unless it has handed out a token
twice. -/
structure Owned (events : Events ω) (waits : List Wait) : Prop where
  free : ∀ id, (events.get id).waiters.inUse = false
  released : ∀ id, (events.get id).isSet = true → (events.get id).registry.members.keys = []
  held : ∀ id, (events.get id).isSet = false → (events.get id).registry.issued ≤ Token.limit →
    (events.get id).registry.members.keys.Perm (tokensOn id waits)

namespace Owned

variable {events next : Events ω} {waits others : List Wait}

theorem empty : Owned ({} : Events ω) [] := by
  constructor
  · intro id; rfl
  · intro id _; rfl
  · intro id _ _; exact .nil

theorem perm (owned : Owned events waits) (same : waits.Perm others) : Owned events others where
  free := owned.free
  released := owned.released
  held id unset few := (owned.held id unset few).trans (tokensOn_perm same)

/-- Flags and registries are all that matters of the events. -/
theorem of_same (owned : Owned events waits)
    (flags : ∀ id, (next.get id).isSet = (events.get id).isSet)
    (registries : ∀ id, (next.get id).waiters = (events.get id).waiters) : Owned next waits where
  free id := by rw [registries]; exact owned.free id
  released id set := by
    rw [flags] at set
    simpa only [Event.registry, registries] using owned.released id set
  held id unset few := by
    rw [flags] at unset
    rw [Event.registry, registries] at few
    simpa only [Event.registry, registries] using owned.held id unset few

theorem nodup (owned : Owned events waits) {id : EventId} (unset : (events.get id).isSet = false)
    (few : (events.get id).registry.issued ≤ Token.limit) : (tokensOn id waits).Nodup :=
  (owned.held id unset few).nodup_iff.mp (events.get id).registry.members.keys_nodup

theorem member (owned : Owned events waits) {wait : Wait} (live : wait ∈ waits) {token : Token}
    (holds : wait.token = some token) (unset : (events.get wait.event).isSet = false)
    (few : (events.get wait.event).registry.issued ≤ Token.limit) :
    token ∈ (events.get wait.event).registry.members.keys :=
  (owned.held wait.event unset few).mem_iff.mpr (mem_tokensOn.mpr ⟨wait, live, rfl, holds⟩)

theorem get?_eq_none (owned : Owned events waits) {id : EventId}
    (set : (events.get id).isSet = true) (token : Token) :
    (events.get id).registry.get? token = none :=
  Table.get?_eq_none (by rw [owned.released id set]; exact List.not_mem_nil)

/-- As many waits are registered with an event as it says. -/
theorem statistics (owned : Owned events waits) (id : EventId)
    (few : (events.get id).isSet = false → (events.get id).registry.issued ≤ Token.limit) :
    (events.get id).statistics = .ok ⟨if (events.get id).isSet then 0
      else (waits.filter fun wait => wait.event = id ∧ wait.isRegistered = true).length⟩ := by
  have read : (events.get id).waiters.read = .ok (events.get id).registry :=
    Guarded.read_eq_ok_iff.mpr ⟨owned.free id, rfl⟩
  have size : (events.get id).registry.size = (events.get id).registry.members.keys.length :=
    (List.length_map Prod.fst).symm
  unfold Event.statistics
  rw [read]
  simp only [size]
  cases set : (events.get id).isSet with
  | true => rw [owned.released id set]; rfl
  | false => rw [(owned.held id set (few set)).length_eq, length_tokensOn]; rfl

theorem make (owned : Owned events waits) (event : EventId) (hold : Hold) :
    Owned (Wait.make events event hold).2 ((Wait.make events event hold).1 :: waits) := by
  have unheld : ∀ id, (Wait.make events event hold).1.tokenOn? id = none := by
    intro id
    unfold tokenOn?
    split <;> rfl
  have same : Owned (Wait.make events event hold).2 waits := by
    cases hold with
    | borrowed => exact owned
    | owned =>
        apply owned.of_same
        · exact events.isSet_modify event Event.hold fun _ => rfl
        · exact events.waiters_modify event Event.hold fun _ => rfl
  constructor
  · exact same.free
  · exact same.released
  · intro id unset few
    rw [tokensOn_cons, unheld]
    exact same.held id unset few

theorem of_put (owned : Owned events waits) {id : EventId} {event : Event ω}
    (free : event.waiters.inUse = false)
    (released : event.isSet = true → event.registry.members.keys = [])
    (held : event.isSet = false → event.registry.issued ≤ Token.limit →
      event.registry.members.keys.Perm (tokensOn id others))
    (elsewhere : ∀ other ≠ id, tokensOn other others = tokensOn other waits) :
    Owned (events.put id event) others := by
  constructor
  · intro other
    rw [Events.get_put]
    split
    · exact free
    · exact owned.free other
  · intro other set
    rw [Events.get_put] at set ⊢
    split
    · next here =>
        rw [if_pos here] at set
        exact released set
    · next there =>
        rw [if_neg there] at set
        exact owned.released other set
  · intro other unset few
    rw [Events.get_put] at unset few ⊢
    split
    · next here =>
        rw [if_pos here] at unset few
        rw [here]
        exact held unset few
    · next there =>
        rw [if_neg there] at unset few
        rw [elsewhere other there]
        exact owned.held other unset few

theorem tripped (owned : Owned events waits) (id : EventId) :
    Owned (events.put id (events.get id).tripped) waits := by
  apply owned.of_put
  · rfl
  · intro _; rfl
  · intro set; cases set
  · intro _ _; rfl

theorem trip (owned : Owned events waits) {id : EventId}
    (unset : (events.get id).isSet = false) :
    ∃ event, (events.get id).trip = (.ok (some (events.get id).registry), event) ∧
      event.isSet = true ∧ Owned (events.put id event) waits := by
  refine ⟨_, Event.trip_of_unset unset (owned.free id), rfl, owned.tripped id⟩

end Owned

/-! ## Polls and drops -/

namespace Wait

variable {events : Events ω} {wait : Wait}

theorem poll_of_set [Waker ω] (set : (events.get wait.event).isSet = true) (waker : ω) :
    wait.poll waker events =
      { outcome := .ok true, wait := { wait with token := none, completed := true }, events,
        trace := [] } := by
  simp only [poll, set, if_true]

theorem poll_of_unset [Waker ω] (unset : (events.get wait.event).isSet = false)
    (free : (events.get wait.event).waiters.inUse = false) (waker : ω) {token : Token}
    {enrolment : Enrolment} {registry : Registry ω}
    (enrols : (events.get wait.event).registry.enrol wait.token waker =
      (token, enrolment, registry)) :
    wait.poll waker events =
      { outcome := .ok false, wait := { wait with token := some token }
        events := events.put wait.event
          { events.get wait.event with waiters := ⟨registry, false⟩ }
        trace := [enrolled wait.event token waker enrolment] } := by
  have acquired : (events.get wait.event).waiters.acquire =
      .ok ⟨(events.get wait.event).registry, true⟩ :=
    Guarded.acquire_eq_ok_iff.mpr ⟨free, rfl⟩
  simp only [poll, unset, Event.register, acquired, enrols]
  rfl

theorem withdraw_of_free (free : (events.get wait.event).waiters.inUse = false) {token : Token}
    (holds : wait.token = some token) :
    wait.withdraw events =
      { events := events.put wait.event
          { events.get wait.event with
            waiters := ⟨(events.get wait.event).registry.remove token, false⟩ }
        trace := if (events.get wait.event).registry.contains token then
          [.withdrawn wait.event token] else [] } := by
  have acquired : (events.get wait.event).waiters.acquire =
      .ok ⟨(events.get wait.event).registry, true⟩ :=
    Guarded.acquire_eq_ok_iff.mpr ⟨free, rfl⟩
  simp only [withdraw, holds, Event.deregister, acquired]
  rfl

/-- Giving up its share of an event leaves all registries as they are. -/
theorem registry_drop (wait : Wait) (events : Events ω) (id : EventId) :
    ((wait.drop events).events.get id).registry =
      ((wait.withdraw events).events.get id).registry := by
  unfold drop
  simp only
  split
  · rfl
  · exact congrArg Guarded.value
      (Events.waiters_modify _ wait.event Event.letGo (fun _ => rfl) id)

theorem get?_drop (free : (events.get wait.event).waiters.inUse = false) (id : EventId)
    (token : Token) :
    ((wait.drop events).events.get id).registry.get? token =
      if wait.tokenOn? id = some token then none else (events.get id).registry.get? token := by
  rw [registry_drop]
  unfold tokenOn?
  cases holds : wait.token with
  | none => simp [withdraw, holds]
  | some own =>
      rw [withdraw_of_free free holds]
      simp only [Events.get_put]
      by_cases here : id = wait.event
      · rw [if_pos here, if_pos here.symm, here]
        simp only [Option.some.injEq, eq_comm (a := own)]
        exact Registry.get?_remove _ own token
      · simp only [if_neg here, if_neg (Ne.symm here), reduceCtorEq, if_false]

end Wait

namespace Owned

variable {events next : Events ω} {waits others : List Wait} {wait : Wait}

theorem tokensOn_cons_of_ne {id : EventId} (wait : Wait) (waits : List Wait)
    (there : id ≠ wait.event) :
    tokensOn id (wait :: waits) = tokensOn id waits := by
  have unheld : wait.tokenOn? id = none := if_neg fun same => there same.symm
  rw [tokensOn_cons, unheld]
  rfl

theorem tokensOn_cons_self (wait : Wait) (waits : List Wait) {token : Token}
    (holds : wait.token = some token) :
    tokensOn wait.event (wait :: waits) = token :: tokensOn wait.event waits := by
  rw [tokensOn_cons, tokenOn?, if_pos rfl, holds]
  rfl

/-- What enrolling a wait comes to: it holds a member's token then, its own or a new one, and
nothing changes for the other members. -/
theorem enrols [Waker ω] (owned : Owned events (wait :: waits))
    (unset : (events.get wait.event).isSet = false) (waker : ω) :
    ∃ token enrolment registry,
      (events.get wait.event).registry.enrol wait.token waker = (token, enrolment, registry) ∧
        (registry.issued ≤ Token.limit →
          registry.members.keys.Perm (token :: tokensOn wait.event waits) ∧
          (∀ other ≠ token, registry.get? other = (events.get wait.event).registry.get? other) ∧
          token ∉ tokensOn wait.event waits) := by
  rcases enrols : (events.get wait.event).registry.enrol wait.token waker with
    ⟨token, enrolment, registry⟩
  refine ⟨token, enrolment, registry, rfl, ?_⟩
  intro few
  have grown := (events.get wait.event).registry.issued_le_enrol wait.token waker
  rw [enrols] at grown
  have held := owned.held wait.event unset (Nat.le_trans grown few)
  have unique := owned.nodup unset (Nat.le_trans grown few)
  cases holds : wait.token with
  | none =>
      rw [holds] at enrols
      cases enrols
      rw [tokensOn_cons, tokenOn?, if_pos rfl, holds, Option.toList_none, List.nil_append] at held
      refine ⟨?_, ?_, ?_⟩
      · rw [Registry.keys_add few]
        exact (held.append_right _).trans List.perm_append_comm
      · intro other different
        exact (Registry.get?_add _ _ _).trans (if_neg different)
      · intro member
        exact Registry.next_not_mem few (held.mem_iff.mpr member)
  | some own =>
      have member := owned.member List.mem_cons_self holds unset (Nat.le_trans grown few)
      obtain ⟨_, keeps⟩ := Registry.enrol_member waker member
      rw [holds, keeps] at enrols
      cases enrols
      rw [tokensOn_cons_self _ _ holds] at held unique
      refine ⟨?_, ?_, (List.nodup_cons.mp unique).1⟩
      · rw [Registry.keys_update]
        exact held
      · intro other different
        exact Registry.get?_update_of_ne _ waker different

theorem poll [Waker ω] (owned : Owned events (wait :: waits)) (waker : ω) :
    Owned (wait.poll waker events).events ((wait.poll waker events).wait :: waits) := by
  cases flag : (events.get wait.event).isSet with
  | true =>
      rw [poll_of_set flag]
      constructor
      · exact owned.free
      · exact owned.released
      · intro id unset few
        have there : id ≠ wait.event := by
          intro here
          rw [here, flag] at unset
          cases unset
        have held := owned.held id unset few
        rw [tokensOn_cons_of_ne wait waits there] at held
        rwa [tokensOn_cons_of_ne { wait with token := none, completed := true } waits there]
  | false =>
      obtain ⟨token, enrolment, registry, enrols, kept⟩ := owned.enrols flag waker
      rw [poll_of_unset flag (owned.free _) waker enrols]
      apply owned.of_put
      · rfl
      · intro set
        rw [flag] at set
        cases set
      · intro _ few
        have self := tokensOn_cons_self { wait with token := some token } waits rfl
        exact (kept few).1.trans (.of_eq self.symm)
      · intro other there
        rw [tokensOn_cons_of_ne _ waits there]
        exact tokensOn_cons_of_ne _ waits there

theorem withdraw (owned : Owned events (wait :: waits)) :
    (wait.withdraw events).panic? = none ∧ Owned (wait.withdraw events).events waits := by
  cases holds : wait.token with
  | none =>
      have unheld : ∀ id, wait.tokenOn? id = none := by
        intro id
        unfold tokenOn?
        split
        · exact holds
        · rfl
      have idle : wait.withdraw events = { events } := by simp only [Wait.withdraw, holds]
      rw [idle]
      refine ⟨rfl, owned.free, owned.released, ?_⟩
      intro id unset few
      have held := owned.held id unset few
      rwa [tokensOn_cons, unheld] at held
  | some token =>
      rw [withdraw_of_free (owned.free _) holds]
      refine ⟨rfl, owned.of_put rfl ?_ ?_ ?_⟩
      · intro set
        have none := owned.released wait.event set
        change ((events.get wait.event).registry.remove token).members.keys = []
        rw [Registry.keys_remove, none, List.filter_nil]
      · intro unset few
        have held := owned.held wait.event unset few
        have unique := owned.nodup unset few
        rw [tokensOn_cons_self _ _ holds] at held unique
        have others := held.filter (· ≠ token)
        change ((events.get wait.event).registry.remove token).members.keys.Perm _
        rw [Registry.keys_remove]
        refine others.trans (.of_eq ?_)
        rw [List.filter_cons_of_neg (by simp), List.filter_eq_self]
        intro other member
        have different : other ≠ token := by
          intro same
          exact (List.nodup_cons.mp unique).1 (same ▸ member)
        exact decide_eq_true different
      · intro other there
        exact (tokensOn_cons_of_ne _ waits there).symm

theorem drop (owned : Owned events (wait :: waits)) :
    (wait.drop events).panic? = none ∧ Owned (wait.drop events).events waits := by
  obtain ⟨whole, withdrawn⟩ := owned.withdraw
  cases hold : wait.hold with
  | borrowed =>
      simp only [Wait.drop, hold]
      exact ⟨whole, withdrawn⟩
  | owned =>
      simp only [Wait.drop, hold]
      refine ⟨whole, withdrawn.of_same ?_ ?_⟩
      · exact Events.isSet_modify _ wait.event Event.letGo fun _ => rfl
      · exact Events.waiters_modify _ wait.event Event.letGo fun _ => rfl

theorem handled [Waker ω] {trace : List (Occurrence ω)} (owned : Owned events waits)
    (handles : Handles events waits trace next others) : Owned next others := by
  induction handles with
  | nothing | note => exact owned
  | create => exact owned.of_same (fun _ => rfl) (fun _ => rfl)
  | make event hold => exact owned.make event hold
  | poll waker wait => exact owned.poll waker
  | drop wait => exact owned.drop.2
  | reorder same => exact owned.perm same
  | trans _ _ head tail => exact tail (head owned)

end Owned

/-! ## What handling leaves alone -/

theorem Event.isSet_of_register [Waker ω] {event next : Event ω} {token? : Option Token}
    {waker : ω} {token : Token} {enrolment : Enrolment}
    (registered : event.register token? waker = .ok (token, enrolment, next)) :
    next.isSet = event.isSet := by
  unfold register at registered
  split at registered
  · cases registered
  · split at registered
    · cases registered
    · cases registered
      rfl

theorem Event.issued_le_of_register [Waker ω] {event next : Event ω} {token? : Option Token}
    {waker : ω} {token : Token} {enrolment : Enrolment}
    (registered : event.register token? waker = .ok (token, enrolment, next)) :
    event.registry.issued ≤ next.registry.issued := by
  unfold register at registered
  split at registered
  · cases registered
  · split at registered
    · cases registered
    · next cell acquired =>
        obtain ⟨-, rfl⟩ := Guarded.acquire_eq_ok_iff.mp acquired
        cases registered
        exact event.registry.issued_le_enrol token? waker

theorem Event.isSet_of_deregister {event next : Event ω} {token : Token} {present : Bool}
    (deregistered : event.deregister token = .ok (present, next)) : next.isSet = event.isSet := by
  unfold deregister at deregistered
  split at deregistered
  · cases deregistered
  · cases deregistered
    rfl

theorem Event.issued_of_deregister {event next : Event ω} {token : Token} {present : Bool}
    (deregistered : event.deregister token = .ok (present, next)) :
    next.registry.issued = event.registry.issued := by
  unfold deregister at deregistered
  split at deregistered
  · cases deregistered
  · next cell acquired =>
      obtain ⟨-, rfl⟩ := Guarded.acquire_eq_ok_iff.mp acquired
      cases deregistered
      rfl

theorem Wait.issued_drop (wait : Wait) (events : Events ω) (id : EventId) :
    ((wait.drop events).events.get id).registry.issued = (events.get id).registry.issued := by
  rw [registry_drop]
  unfold withdraw
  split
  · rfl
  · split
    · rfl
    · next deregistered =>
        rw [Events.get_put]
        split
        · next here => rw [here, Event.issued_of_deregister deregistered]
        · rfl

namespace Future

variable {σ : Type}

theorem issued_settle (wait : Wait) (signal : Future σ) (answer : Answer)
    (note : List (Occurrence ω)) (events : Events ω) (id : EventId) :
    ((settle wait signal answer note events).events.get id).registry.issued =
      (events.get id).registry.issued := by
  unfold settle
  simp only
  split
  · exact wait.issued_drop events id
  · exact wait.issued_drop events id

theorem issued_conclude (wait : Wait) (polled : Polled σ ω) (id : EventId) :
    ((conclude wait polled).events.get id).registry.issued =
      (polled.events.get id).registry.issued := by
  cases reached : polled.progress with
  | asks | panicked => simp only [conclude, reached]
  | answered answer => cases answer <;> simp only [conclude, reached, issued_settle]

end Future

namespace Handles

variable [Waker ω] {events next : Events ω} {waits left : List Wait} {trace : List (Occurrence ω)}

theorem isSet (handles : Handles events waits trace next left) (id : EventId) :
    (next.get id).isSet = (events.get id).isSet := by
  have of_put : ∀ (events : Events ω) (there : EventId) (event : Event ω),
      event.isSet = (events.get there).isSet →
        ((events.put there event).get id).isSet = (events.get id).isSet := by
    intro events there event same
    rw [Events.get_put]
    split
    · next here => rw [here, same]
    · rfl
  induction handles with
  | nothing | create | note | reorder => rfl
  | @make events waits event hold =>
      cases hold with
      | borrowed => rfl
      | owned => exact events.isSet_modify event Event.hold (fun _ => rfl) id
  | @poll events waits waker wait =>
      unfold Wait.poll
      simp only
      split
      · rfl
      · split
        · rfl
        · next registered => exact of_put events _ _ (Event.isSet_of_register registered)
  | @drop events waits wait =>
      have withdrawn : (((wait.withdraw events).events).get id).isSet = (events.get id).isSet := by
        unfold Wait.withdraw
        split
        · rfl
        · split
          · rfl
          · next deregistered => exact of_put events _ _ (Event.isSet_of_deregister deregistered)
      unfold Wait.drop
      simp only
      split
      · exact withdrawn
      · exact (Events.isSet_modify _ wait.event Event.letGo (fun _ => rfl) id).trans withdrawn
  | trans _ _ head tail => exact tail.trans head

/-- What is given back does not reduce the count of tokens. -/
theorem issued_le (handles : Handles events waits trace next left) (id : EventId) :
    (events.get id).registry.issued ≤ (next.get id).registry.issued := by
  induction handles with
  | nothing | create | note | reorder => exact Nat.le_refl _
  | @make events waits event hold =>
      cases hold with
      | borrowed => exact Nat.le_refl _
      | owned =>
          have same := events.waiters_modify event Event.hold (fun _ => rfl) id
          exact Nat.le_of_eq (congrArg (·.value.issued) same).symm
  | @poll events waits waker wait =>
      unfold Wait.poll
      simp only
      split
      · exact Nat.le_refl _
      · split
        · exact Nat.le_refl _
        · next registered =>
            rw [Events.get_put]
            split
            · next here => exact here ▸ Event.issued_le_of_register registered
            · exact Nat.le_refl _
  | @drop events waits wait => exact Nat.le_of_eq (wait.issued_drop events id).symm
  | trans _ _ head tail => exact Nat.le_trans head tail

theorem few (handles : Handles events waits trace next left) (few : next.Few) : events.Few :=
  fun id => Nat.le_trans (handles.issued_le id) (few id)

theorem keeps (handles : Handles events waits trace next left) {others : List Wait}
    (owned : Owned events (waits ++ others)) {wait : Wait} (live : wait ∈ others) {token : Token}
    (holds : wait.token = some token) {stored : ω}
    (found : (events.get wait.event).registry.get? token = some stored)
    (few : (next.get wait.event).registry.issued ≤ Token.limit) :
    (next.get wait.event).registry.get? token = some stored := by
  induction handles with
  | nothing | create | note | reorder => exact found
  | @make events waits event hold =>
      cases hold with
      | borrowed => exact found
      | owned =>
          have same := events.waiters_modify event Event.hold (fun _ => rfl) wait.event
          simp only [Wait.make, Event.registry, same]
          exact found
  | @poll events waits waker handled =>
      cases flag : (events.get handled.event).isSet with
      | true =>
          rw [Wait.poll_of_set flag]
          exact found
      | false =>
          obtain ⟨taken, enrolment, registry, enrols, kept⟩ := owned.enrols flag waker
          rw [Wait.poll_of_unset flag (owned.free _) waker enrols] at few ⊢
          simp only [Events.get_put] at few ⊢
          split
          · next here =>
              rw [if_pos here] at few
              obtain ⟨-, same, free⟩ := kept few
              have member : token ∈ Wait.tokensOn handled.event (waits ++ others) :=
                Wait.mem_tokensOn.mpr ⟨wait, List.mem_append_right _ live, here, holds⟩
              have different : token ≠ taken := by
                intro equal
                exact free (equal ▸ member)
              rw [here] at found
              exact (same token different).trans found
          · exact found
  | @drop events waits handled =>
      -- What is removed is the token of the dropped wait, and no other wait holds that one.
      have unset : (events.get wait.event).isSet = false := by
        rw [Bool.eq_false_iff]
        intro set
        rw [owned.get?_eq_none set] at found
        cases found
      have handles : Handles events (handled :: waits) _ _ _ := .drop handled
      have unique := owned.nodup unset (Nat.le_trans (handles.issued_le wait.event) few)
      have different : handled.tokenOn? wait.event ≠ some token := by
        intro same
        rw [List.cons_append, Wait.tokensOn_cons, same] at unique
        have member : token ∈ Wait.tokensOn wait.event (waits ++ others) :=
          Wait.mem_tokensOn.mpr ⟨wait, List.mem_append_right _ live, rfl, holds⟩
        exact (List.nodup_cons.mp unique).1 member
      rw [Wait.get?_drop (owned.free _), if_neg different, found]
  | trans head tail early late =>
      have fewer := Nat.le_trans (tail.issued_le wait.event) few
      exact late (owned.handled (head.append others)) (early owned found fewer) few

end Handles

/-! ## Tokens that are all in use -/

/-- An unset event has handed out no more tokens than the waits hold with it. Then tokens do not
repeat unless there are more waits than tokens. -/
def Counted (events : Events ω) (waits : List Wait) : Prop :=
  ∀ id, (events.get id).isSet = false →
    (events.get id).registry.issued ≤ (Wait.tokensOn id waits).length

namespace Counted

variable {events : Events ω} {wait : Wait} {waits others : List Wait}

theorem perm (counted : Counted events waits) (same : waits.Perm others) :
    Counted events others :=
  fun id unset => (Wait.tokensOn_perm same).length_eq ▸ counted id unset

theorem few (counted : Counted events waits) (few : waits.length ≤ Token.limit) {id : EventId}
    (unset : (events.get id).isSet = false) : (events.get id).registry.issued ≤ Token.limit :=
  Nat.le_trans (counted id unset) (Nat.le_trans (List.length_filterMap_le _ _) few)

theorem make (counted : Counted events waits) (event : EventId) (hold : Hold) :
    Counted (Wait.make events event hold).2 ((Wait.make events event hold).1 :: waits) := by
  intro id unset
  have unheld : (Wait.make events event hold).1.tokenOn? id = none := by
    unfold Wait.tokenOn?
    split <;> rfl
  rw [Wait.tokensOn_cons, unheld]
  cases hold with
  | borrowed => exact counted id unset
  | owned =>
      have flag := events.isSet_modify event Event.hold (fun _ => rfl) id
      have same := events.waiters_modify event Event.hold (fun _ => rfl) id
      have issued := congrArg (·.value.issued) same
      exact Nat.le_trans (Nat.le_of_eq issued) (counted id (flag.symm.trans unset))

/-- A wait that gets a token is one more that holds one. -/
theorem poll [Waker ω] (counted : Counted events (wait :: waits))
    (owned : Owned events (wait :: waits)) (few : (wait :: waits).length ≤ Token.limit)
    (waker : ω) :
    Counted (wait.poll waker events).events ((wait.poll waker events).wait :: waits) := by
  intro id unset
  cases flag : (events.get wait.event).isSet with
  | true =>
      rw [Wait.poll_of_set flag] at unset ⊢
      have there : id ≠ wait.event := by
        intro here
        rw [here, flag] at unset
        cases unset
      have before := counted id unset
      rw [Owned.tokensOn_cons_of_ne wait waits there] at before
      rwa [Owned.tokensOn_cons_of_ne { wait with token := none, completed := true } waits there]
  | false =>
      obtain ⟨token, enrolment, registry, enrols, -⟩ := owned.enrols flag waker
      rw [Wait.poll_of_unset flag (owned.free _) waker enrols] at unset ⊢
      simp only [Events.get_put] at unset ⊢
      by_cases here : id = wait.event
      · subst here
        have before := counted _ flag
        rw [if_pos rfl,
          Owned.tokensOn_cons_self { wait with token := some token } waits rfl]
        cases holds : wait.token with
        | none =>
            rw [holds] at enrols
            cases enrols
            rw [Wait.tokensOn_cons, Wait.tokenOn?, if_pos rfl, holds] at before
            exact Nat.succ_le_succ before
        | some own =>
            have member := owned.member List.mem_cons_self holds flag (counted.few few flag)
            obtain ⟨_, keeps⟩ := Registry.enrol_member waker member
            rw [holds, keeps] at enrols
            cases enrols
            rw [Owned.tokensOn_cons_self _ _ holds] at before
            exact Nat.le_trans (Nat.le_of_eq (Registry.issued_update _ _ _)) before
      · rw [if_neg here] at unset ⊢
        have before := counted id unset
        rw [Owned.tokensOn_cons_of_ne wait waits here] at before
        rwa [Owned.tokensOn_cons_of_ne { wait with token := some token } waits here]

/-- A wait without a token did not count. -/
theorem drop [Waker ω] (counted : Counted events (wait :: waits)) (unheld : wait.token = none) :
    Counted (wait.drop events).events waits := by
  intro id unset
  have nothing : wait.tokenOn? id = none := by
    unfold Wait.tokenOn?
    split
    · exact unheld
    · rfl
  have handles : Handles events (wait :: waits) _ _ _ := .drop wait
  have before := counted id ((handles.isSet id).symm.trans unset)
  rw [Wait.tokensOn_cons, nothing, Option.toList_none, List.nil_append] at before
  rw [Wait.registry_drop]
  simpa only [Wait.withdraw, unheld] using before

theorem put (counted : Counted events waits) (id : EventId) {event : Event ω}
    (set : event.isSet = true) : Counted (events.put id event) waits := by
  intro other unset
  rw [Events.get_put] at unset ⊢
  split
  · next here =>
      rw [if_pos here, set] at unset
      cases unset
  · next there =>
      rw [if_neg there] at unset
      exact counted other unset

end Counted

end Latch
