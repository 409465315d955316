import Latch.Proofs.Ownership

/-!
# Changes of registries

Handling waits changes the registry of an unset event in few ways: a wait registers, is polled
again, or withdraws. The trace tells of each change when it happens. Of a set event nothing changes
any more, and waits only lose the tokens that they still hold with it.
-/

set_option autoImplicit false

namespace Latch

variable {ω : Type}

/-- Whether an occurrence tells of a registration with the event. -/
def Occurrence.enrols (event : EventId) : Occurrence ω → Bool
  | .registered id _ _ | .refreshed id _ _ _ | .withdrawn id _ => id = event
  | .exchanged .. | .cancelled _ | .releasingAll .. | .releasingOne _ | .woken .. => false
  | .eventSet .. => false

theorem Occurrence.enrols_of_isAside {occurrence : Occurrence ω}
    (aside : occurrence.isAside = true) (event : EventId) : occurrence.enrols event = false := by
  cases occurrence with
  | cancelled | exchanged | releasingOne | releasingAll | woken | eventSet => rfl
  | registered | refreshed | withdrawn => cases aside

theorem Occurrence.enrols_enrolled {event other : EventId} (different : other ≠ event)
    (token : Token) (waker : ω) (enrolment : Enrolment) :
    (Wait.enrolled event token waker enrolment).enrols other = false := by
  cases enrolment <;> exact decide_eq_false different.symm

theorem Registry.remove_of_stranger {registry : Registry ω} {token : Token}
    (stranger : registry.contains token = false) : registry.remove token = registry := by
  have absent : registry.members.get? token = none :=
    Option.not_isSome_iff_eq_none.mp (Bool.eq_false_iff.mp stranger)
  have unchanged := Table.erase_of_get?_eq_none absent
  unfold remove
  congr 1

namespace Registry

variable [Waker ω]

/-- One change of an event's registry, as the trace tells of it. -/
inductive Change (event : EventId) (registry : Registry ω) :
    Occurrence ω → Registry ω → Prop
  | registered (waker : ω) :
      Change event registry (.registered event registry.next waker) (registry.add waker)
  | kept {token : Token} {stored waker : ω} (found : registry.get? token = some stored)
      (does : willWake stored waker = true) :
      Change event registry (.refreshed event token waker false) registry
  | replaced {token : Token} {waker : ω} (member : token ∈ registry.members.keys) :
      Change event registry (.refreshed event token waker true) (registry.replace token waker)
  | withdrawn {token : Token} (member : token ∈ registry.members.keys) :
      Change event registry (.withdrawn event token) (registry.remove token)

/-- Changes one after another, and what else the trace tells meanwhile. -/
inductive Changes (event : EventId) : Registry ω → List (Occurrence ω) → Registry ω → Prop
  | nothing {registry : Registry ω} : Changes event registry [] registry
  | other {registry : Registry ω} {occurrence : Occurrence ω}
      (apart : occurrence.enrols event = false) : Changes event registry [occurrence] registry
  | change {registry after : Registry ω} {occurrence : Occurrence ω}
      (change : Change event registry occurrence after) :
      Changes event registry [occurrence] after
  | trans {first second third : Registry ω} {before after : List (Occurrence ω)}
      (head : Changes event first before second) (tail : Changes event second after third) :
      Changes event first (before ++ after) third

theorem change_of_enrol {registry after : Registry ω} {token? : Option Token} {token : Token}
    {enrolment : Enrolment} {waker : ω}
    (enrols : registry.enrol token? waker = (token, enrolment, after)) (event : EventId) :
    Change event registry (Wait.enrolled event token waker enrolment) after := by
  cases token? with
  | none =>
      cases enrols
      exact .registered waker
  | some own =>
      cases found : registry.get? own with
      | none =>
          simp only [enrol, update, found] at enrols
          cases enrols
          exact .registered waker
      | some stored =>
          simp only [enrol, update, found] at enrols
          by_cases does : willWake stored waker = true
          · simp only [if_pos does] at enrols
            cases enrols
            exact .kept found does
          · simp only [if_neg does] at enrols
            cases enrols
            exact .replaced (Table.contains_iff.mp ((registry.contains_iff _).mpr ⟨_, found⟩))

theorem Change.issued_le {event : EventId} {registry after : Registry ω}
    {occurrence : Occurrence ω} (change : Change event registry occurrence after) :
    registry.issued ≤ after.issued := by
  cases change with
  | registered => exact Nat.le_succ _
  | kept | withdrawn => exact Nat.le_refl _
  | @replaced token waker => exact Nat.le_of_eq (registry.issued_replace token waker).symm

theorem Changes.issued_le {event : EventId} {registry after : Registry ω}
    {trace : List (Occurrence ω)} (changes : Changes event registry trace after) :
    registry.issued ≤ after.issued := by
  induction changes with
  | nothing | other => exact Nat.le_refl _
  | change step => exact step.issued_le
  | trans _ _ head tail => exact Nat.le_trans head tail

theorem Changes.unchanged {event : EventId} {registry after : Registry ω}
    {trace : List (Occurrence ω)} (changes : Changes event registry trace after)
    (silent : ∀ occurrence ∈ trace, occurrence.enrols event = false) : after = registry := by
  induction changes with
  | nothing | other => rfl
  | change step =>
      have unenrolled := silent _ (List.mem_singleton_self _)
      cases step <;> simp [Occurrence.enrols] at unenrolled
  | trans _ _ early late =>
      rw [late fun occurrence member => silent occurrence (List.mem_append_right _ member),
        early fun occurrence member => silent occurrence (List.mem_append_left _ member)]

end Registry

open Registry Wait

/-! ## Single waits -/

namespace Owned

variable {events : Events ω} {waits : List Wait} {wait : Wait}

/-- A wait on a set event has nothing to give back, whatever token it still holds. -/
theorem drop_of_set (owned : Owned events (wait :: waits))
    (set : (events.get wait.event).isSet = true) :
    (wait.drop events).trace = [] ∧
      ∀ id, ((wait.drop events).events.get id).registry = (events.get id).registry := by
  have withdrawn : (wait.withdraw events).trace = [] ∧
      ∀ id, ((wait.withdraw events).events.get id).registry = (events.get id).registry := by
    cases holds : wait.token with
    | none =>
        have idle : wait.withdraw events = { events } := by simp only [Wait.withdraw, holds]
        rw [idle]
        exact ⟨rfl, fun _ => rfl⟩
    | some token =>
        have stranger : (events.get wait.event).registry.contains token = false :=
          congrArg Option.isSome (owned.get?_eq_none set token)
        rw [withdraw_of_free (owned.free _) holds, remove_of_stranger stranger]
        refine ⟨if_neg (by rw [stranger]; exact Bool.false_ne_true), ?_⟩
        intro id
        simp only [Events.get_put]
        split
        · next here => rw [here]; rfl
        · rfl
  obtain ⟨silent, same⟩ := withdrawn
  refine ⟨(wait.trace_drop events).trans silent, ?_⟩
  intro id
  rw [registry_drop]
  exact same id

variable [Waker ω]

theorem poll_changes (owned : Owned events (wait :: waits)) (waker : ω) (id : EventId) :
    Changes id (events.get id).registry (wait.poll waker events).trace
      ((wait.poll waker events).events.get id).registry := by
  cases flag : (events.get wait.event).isSet with
  | true =>
      rw [poll_of_set flag]
      exact .nothing
  | false =>
      obtain ⟨token, enrolment, registry, enrols, -⟩ := owned.enrols flag waker
      rw [poll_of_unset flag (owned.free _) waker enrols]
      simp only [Events.get_put]
      split
      · next here =>
          rw [here]
          exact .change (change_of_enrol enrols wait.event)
      · next there => exact .other (Occurrence.enrols_enrolled there token waker enrolment)

theorem drop_changes (owned : Owned events (wait :: waits)) (id : EventId) :
    Changes id (events.get id).registry (wait.drop events).trace
      ((wait.drop events).events.get id).registry := by
  rw [trace_drop, registry_drop]
  cases holds : wait.token with
  | none =>
      simp only [Wait.withdraw, holds]
      exact .nothing
  | some token =>
      rw [withdraw_of_free (owned.free _) holds]
      simp only [Events.get_put]
      cases present : (events.get wait.event).registry.contains token with
      | true =>
          by_cases here : id = wait.event
          · rw [if_pos here, here]
            exact .change (.withdrawn (Table.contains_iff.mp present))
          · rw [if_neg here]
            exact .other (decide_eq_false (Ne.symm here))
      | false =>
          rw [remove_of_stranger present]
          by_cases here : id = wait.event
          · rw [if_pos here, here]
            exact .nothing
          · rw [if_neg here]
            exact .nothing

end Owned

/-! ## Handlings -/

namespace Wait

theorem tokensOn_cons_subset {id : EventId} {wait other : Wait} (waits : List Wait)
    (keeps : ∀ token, other.tokenOn? id = some token → wait.tokenOn? id = some token) :
    tokensOn id (other :: waits) ⊆ tokensOn id (wait :: waits) := by
  intro token member
  rw [tokensOn_cons, List.mem_append, Option.mem_toList] at member ⊢
  exact member.imp_left (keeps token)

end Wait

namespace Handles

variable [Waker ω] {events next : Events ω} {waits left : List Wait} {trace : List (Occurrence ω)}

/-- The trace of a handling tells of all changes of a registry. -/
theorem changes (handles : Handles events waits trace next left) (owned : Owned events waits)
    (id : EventId) :
    Changes id (events.get id).registry trace (next.get id).registry := by
  induction handles with
  | nothing | create | reorder => exact .nothing
  | @make events waits event hold =>
      cases hold with
      | borrowed => exact .nothing
      | owned =>
          have same := events.waiters_modify event Event.hold (fun _ => rfl) id
          simp only [Wait.make, Event.registry, same]
          exact .nothing
  | poll waker wait => exact owned.poll_changes waker id
  | drop wait => exact owned.drop_changes id
  | note aside => exact .other (Occurrence.enrols_of_isAside aside id)
  | trans head _ early late => exact (early owned).trans (late (owned.handled head))

/-- A set event gets no registrations, and no wait gets a token with it. -/
theorem still (handles : Handles events waits trace next left) (owned : Owned events waits)
    {id : EventId} (set : (events.get id).isSet = true) :
    (∀ occurrence ∈ trace, occurrence.enrols id = false) ∧
      tokensOn id left ⊆ tokensOn id waits := by
  induction handles with
  | nothing | create => exact ⟨nofun, List.Subset.refl _⟩
  | @make events waits event hold =>
      have unheld : (Wait.make events event hold).1.tokenOn? id = none := by
        unfold tokenOn?
        split <;> rfl
      refine ⟨nofun, ?_⟩
      rw [tokensOn_cons, unheld]
      exact List.Subset.refl _
  | @poll events waits waker wait =>
      cases flag : (events.get wait.event).isSet with
      | true =>
          rw [poll_of_set flag]
          refine ⟨nofun, tokensOn_cons_subset waits ?_⟩
          intro token holds
          unfold tokenOn? at holds
          split at holds
          · cases holds
          · cases holds
      | false =>
          have there : id ≠ wait.event := by
            intro here
            rw [here, flag] at set
            cases set
          obtain ⟨token, enrolment, registry, enrols, -⟩ := owned.enrols flag waker
          rw [poll_of_unset flag (owned.free _) waker enrols]
          constructor
          · intro occurrence member
            rw [List.mem_singleton.mp member]
            exact Occurrence.enrols_enrolled there token waker enrolment
          · apply tokensOn_cons_subset
            intro own holds
            rw [tokenOn?, if_neg there.symm] at holds
            cases holds
  | @drop events waits wait =>
      have kept : tokensOn id waits ⊆ tokensOn id (wait :: waits) := by
        rw [tokensOn_cons]
        exact List.subset_append_right _ _
      refine ⟨?_, kept⟩
      intro occurrence member
      obtain ⟨token, rfl⟩ := mem_trace_of_drop member
      apply decide_eq_false
      intro here
      rw [(owned.drop_of_set (here ▸ set)).1] at member
      cases member
  | note aside =>
      refine ⟨?_, List.Subset.refl _⟩
      intro occurrence member
      rw [List.mem_singleton.mp member]
      exact Occurrence.enrols_of_isAside aside id
  | reorder same => exact ⟨nofun, (tokensOn_perm same).symm.subset⟩
  | trans head _ early late =>
      obtain ⟨silent, kept⟩ := early owned set
      obtain ⟨quiet, left⟩ := late (owned.handled head) ((head.isSet id).trans set)
      refine ⟨?_, List.Subset.trans left kept⟩
      intro occurrence member
      rcases List.mem_append.mp member with before | after
      · exact silent occurrence before
      · exact quiet occurrence after

end Handles

end Latch
