import Latch.Proofs.Accounts

/-!
# Fates of registrations

The main statement here is that every registration has exactly one fate, in every state of every
run, and that the registrations made with an event add up: withdrawn ones, and those that wait; or
those that were there when the event was set. A registration is known by its token, so there must be
no more registrations with the event than there are tokens.
-/

set_option autoImplicit false

namespace Latch

variable {ω σ ν : Type}

/-- What can have become of a registration. -/
inductive Fate where
  /-- It is still in the registry. -/
  | standing
  /-- Its wait was dropped while the event was unset. -/
  | withdrawn
  /-- The event was set, and its waker was called. -/
  | called
  /-- The event is being set, and its waker is still to be called. -/
  | awaiting
  /-- The event was set, but another waker broke off before its own was called. -/
  | discarded
  deriving DecidableEq, Repr

theorem exists_withdrawn {event : EventId} {token : Token} {early late : List (Occurrence ω)}
    (gone : token ∈ withdrawals event (early ++ late))
    (before : ∀ occurrence ∈ early, occurrence.releases event = false)
    (after : ∀ occurrence ∈ late, occurrence.enrols event = false) :
    ∃ earlier later, early ++ late = earlier ++ .withdrawn event token :: later ∧
      ∀ occurrence ∈ earlier, occurrence.releases event = false := by
  rw [(accounts_of_unenrolled early after).2.1] at gone
  obtain ⟨earlier, later, split⟩ := List.append_of_mem (mem_withdrawals.mp gone)
  refine ⟨earlier, later ++ late, by rw [split, List.append_assoc, List.cons_append], ?_⟩
  intro other inside
  apply before other
  rw [split]
  exact List.mem_append_left _ inside

namespace Machine

variable [Waker ω] [DecidableEq ν]

/-- What a fate says of the registration that a token stands for. -/
def Meets (event : EventId) (token : Token) (history : List (Occurrence ω))
    (machine : Machine ω σ ν) : Fate → Prop
  | .standing => ∃ waker, stored? event token history = some waker ∧
      (machine.events.get event).registry.get? token = some waker
  | .withdrawn =>
      (∃ early late, history = early ++ .withdrawn event token :: late ∧
        ∀ occurrence ∈ early, occurrence.releases event = false) ∧
      (withdrawals event history).count token = 1 ∧
      ∀ wait ∈ machine.waits, wait.event = event → wait.token ≠ some token
  | .called => ∃ waker, stored? event token history = some waker ∧
      (calledWaiters event history).filter (·.1 = token) = [(token, waker)]
  | .awaiting => ∃ waker, stored? event token history = some waker ∧
      ∃ released remaining, .setting event released remaining ∈ machine.calls ∧
        (token, waker) ∈ remaining
  | .discarded => ∃ left, BrokeOff event left history machine ∧ token ∈ left.map Prod.fst

section

variable {event : EventId} {token : Token} {history : List (Occurrence ω)}
  {machine : Machine ω σ ν} {entries called left : List (Token × ω)}

theorem Meets.standing_mem (meets : Meets event token history machine .standing) :
    token ∈ (machine.events.get event).registry.members.keys := by
  obtain ⟨waker, -, found⟩ := meets
  exact Table.contains_iff.mp ((Registry.contains_iff _ _).mpr ⟨waker, found⟩)

theorem Meets.called_mem (meets : Meets event token history machine .called) :
    token ∈ (calledWaiters event history).map Prod.fst := by
  obtain ⟨waker, -, only⟩ := meets
  have member : (token, waker) ∈ (calledWaiters event history).filter (·.1 = token) := by
    rw [only]
    exact List.mem_singleton_self _
  exact List.mem_map_of_mem (List.mem_filter.mp member).1

theorem Meets.withdrawn_mem (meets : Meets event token history machine .withdrawn) :
    token ∈ withdrawals event history := by
  obtain ⟨-, once, -⟩ := meets
  exact List.count_pos_iff.mp (by omega)

/-- What was given up was neither withdrawn nor called, and never will be. -/
theorem BrokeOff.spec (broke : BrokeOff event left history machine) :
    Run history machine ∧ (machine.events.get event).isSet = true ∧
      machine.releases event = [] ∧
      ((registrations event history).length ≤ Token.limit → ∀ token ∈ left.map Prod.fst,
        token ∉ withdrawals event history ∧
          token ∉ (calledWaiters event history).map Prod.fst) := by
  induction broke with
  | @here history machine run released rest calls panic choice =>
      have running := releases_of_calls calls event
      rw [Call.release?, if_pos rfl] at running
      rcases run.accounted event with waiting | ⟨entries, called, waiting, handed⟩
      · cases running.symm.trans waiting.idle
      · rcases handed.stage with runs | ⟨finished, -⟩
        · injection running.symm.trans runs with head tail
          cases head
          have next : machine.move (.resume (.panicked panic) choice) =
              { machine := { machine with calls := rest }, control := .panicked panic } :=
            resume_of_setting_panicked calls panic choice
          have after := run.step (.resume (.panicked panic) choice)
          rw [next, List.append_nil] at after ⊢
          refine ⟨after, handed.set, tail, ?_⟩
          intro few token member
          obtain ⟨-, unique, apart⟩ := List.nodup_append.mp (handed.tally.nodup few)
          obtain ⟨-, -, distinct⟩ := List.nodup_append.mp unique
          constructor
          · intro withdrawn
            exact apart token withdrawn token (List.mem_append_right _ member) rfl
          · intro told
            rw [handed.tally.told] at told
            exact distinct token told token member rfl
        · cases running.symm.trans finished
  | @later history machine broke next ih =>
      -- The event is set and no release of it is in progress, so the step leaves it aside.
      obtain ⟨run, set, finished, apart⟩ := ih
      have after := run.step next
      cases move_sees run.owned event next with
      | aside flag changes still quiet same =>
          obtain ⟨registrations, withdrawals, -⟩ := accounts_of_unenrolled history (still set).1
          obtain ⟨-, called⟩ := accounts_of_unreleased history quiet
          refine ⟨after, flag.trans set, same.trans finished, ?_⟩
          rw [registrations, withdrawals, called]
          exact apart
      | begins unset =>
          rw [set] at unset
          cases unset
      | goesOn running => cases running.symm.trans finished
      | breaks calls =>
          have running := releases_of_calls calls event
          rw [Call.release?, if_pos rfl] at running
          cases running.symm.trans finished

/-! ## Unset events -/

theorem Waiting.fate (waiting : Waiting event history machine) (run : Run history machine)
    (few : (registrations event history).length ≤ Token.limit)
    (made : token ∈ registrations event history) :
    ∃ fate, Meets event token history machine fate ∧
      ∀ other, Meets event token history machine other → other = fate := by
  rw [waiting.accounts.length_registrations] at few
  have balanced := waiting.accounts.balanced few
  have nodup := balanced.nodup_iff.mp (waiting.accounts.nodup few)
  obtain ⟨unique, -, apart⟩ := List.nodup_append.mp nodup
  have uncalled : calledWaiters event history = [] :=
    (accounts_of_unreleased [] waiting.unreleased).2
  have neither : ∀ fate, Meets event token history machine fate →
      fate = .standing ∨ fate = .withdrawn := by
    intro fate meets
    cases fate with
    | standing => exact .inl rfl
    | withdrawn => exact .inr rfl
    | called =>
        have member := meets.called_mem
        rw [uncalled] at member
        cases member
    | awaiting =>
        obtain ⟨waker, -, released, remaining, member, -⟩ := meets
        have running := mem_releases.mpr member
        rw [waiting.idle] at running
        cases running
    | discarded =>
        obtain ⟨left, broke, -⟩ := meets
        obtain ⟨-, set, -⟩ := broke.spec
        rw [waiting.unset] at set
        cases set
  rcases List.mem_append.mp (balanced.mem_iff.mp made) with gone | stands
  · have unheld : token ∉ (machine.events.get event).registry.members.keys :=
      fun stands => apart token gone token stands rfl
    refine ⟨.withdrawn, ⟨?_, ?_, ?_⟩, ?_⟩
    · have told : token ∈ withdrawals event (history ++ []) := by rwa [List.append_nil]
      have found := exists_withdrawn told waiting.unreleased nofun
      rwa [List.append_nil] at found
    · rw [unique.count, if_pos gone]
    · intro wait live same holds
      exact unheld ((run.owned.held event waiting.unset few).mem_iff.mpr
        (Wait.mem_tokensOn.mpr ⟨wait, live, same, holds⟩))
    · intro other meets
      rcases neither other meets with rfl | rfl
      · exact absurd meets.standing_mem unheld
      · rfl
  · obtain ⟨waker, found⟩ := (Registry.contains_iff _ _).mp (Table.contains_iff.mpr stands)
    refine ⟨.standing, ⟨waker, waiting.accounts.stored token waker found, found⟩, ?_⟩
    intro other meets
    rcases neither other meets with rfl | rfl
    · rfl
    · exact absurd rfl (apart token meets.withdrawn_mem token stands)

/-! ## Set events -/

theorem Handed.not_standing (handed : Handed event entries called left history machine)
    (run : Run history machine) : ¬ Meets event token history machine .standing := by
  intro meets
  have stands := meets.standing_mem
  rw [run.owned.released event handed.set] at stands
  cases stands

theorem Handed.mem_left (handed : Handed event entries called left history machine)
    (meets : Meets event token history machine .awaiting) : token ∈ left.map Prod.fst := by
  obtain ⟨waker, -, released, remaining, member, waits⟩ := meets
  have running := mem_releases.mpr member
  rcases handed.stage with runs | ⟨finished, -⟩
  · rw [runs] at running
    cases List.mem_singleton.mp running
    exact List.mem_map_of_mem waits
  · rw [finished] at running
    cases running

/-- Once the event is set, a fate tells where to look for the token. -/
theorem Handed.fates (handed : Handed event entries called left history machine)
    (run : Run history machine) (few : (registrations event history).length ≤ Token.limit)
    {fate : Fate} (meets : Meets event token history machine fate) :
    (fate = .withdrawn ∧ token ∈ withdrawals event history) ∨
    (fate = .called ∧ token ∈ called.map Prod.fst) ∨
    (fate = .awaiting ∧ token ∈ left.map Prod.fst ∧ machine.releases event ≠ []) ∨
    (fate = .discarded ∧ token ∉ withdrawals event history ∧ token ∉ called.map Prod.fst ∧
      machine.releases event = []) := by
  have told := handed.tally.told
  cases fate with
  | standing => exact absurd meets (handed.not_standing run)
  | withdrawn => exact .inl ⟨rfl, meets.withdrawn_mem⟩
  | called => exact .inr (.inl ⟨rfl, told ▸ meets.called_mem⟩)
  | awaiting =>
      refine .inr (.inr (.inl ⟨rfl, handed.mem_left meets, ?_⟩))
      obtain ⟨waker, -, released, remaining, member, -⟩ := meets
      exact List.ne_nil_of_mem (mem_releases.mpr member)
  | discarded =>
      obtain ⟨given, broke, member⟩ := meets
      obtain ⟨-, -, finished, apart⟩ := broke.spec
      obtain ⟨unwithdrawn, uncalled⟩ := apart few token member
      exact .inr (.inr (.inr ⟨rfl, unwithdrawn, told ▸ uncalled, finished⟩))

theorem Handed.withdrawn_fate (handed : Handed event entries called left history machine)
    (run : Run history machine) (few : (registrations event history).length ≤ Token.limit)
    (gone : token ∈ withdrawals event history) :
    Meets event token history machine .withdrawn ∧
      ∀ other, Meets event token history machine other → other = .withdrawn := by
  obtain ⟨unique, -, apart⟩ := List.nodup_append.mp (handed.tally.nodup few)
  obtain ⟨early, late, split, before, after⟩ := handed.tally.split
  refine ⟨⟨?_, ?_, ?_⟩, ?_⟩
  · rw [split] at gone ⊢
    exact exists_withdrawn gone before after
  · rw [unique.count, if_pos gone]
  · intro wait live same holds
    have member : token ∈ entries.map Prod.fst :=
      handed.held few (Wait.mem_tokensOn.mpr ⟨wait, live, same, holds⟩)
    rw [← (handed.tally.all.map Prod.fst).mem_iff, List.map_append] at member
    exact apart token gone token member rfl
  · intro other meets
    rcases handed.fates run few meets with ⟨rfl, -⟩ | ⟨-, also⟩ | ⟨-, also, -⟩ | ⟨-, not, -⟩
    · rfl
    · exact absurd rfl (apart token gone token (List.mem_append_left _ also))
    · exact absurd rfl (apart token gone token (List.mem_append_right _ also))
    · exact absurd gone not

theorem Handed.called_fate (handed : Handed event entries called left history machine)
    (run : Run history machine) (few : (registrations event history).length ≤ Token.limit)
    (wasCalled : token ∈ called.map Prod.fst) :
    Meets event token history machine .called ∧
      ∀ other, Meets event token history machine other → other = .called := by
  obtain ⟨-, calledLeft, apart⟩ := List.nodup_append.mp (handed.tally.nodup few)
  obtain ⟨calledUnique, -, distinct⟩ := List.nodup_append.mp calledLeft
  obtain ⟨entry, member, rfl⟩ := List.mem_map.mp wasCalled
  refine ⟨⟨entry.2, ?_, ?_⟩, ?_⟩
  · exact handed.tally.stored entry (handed.tally.all.mem_iff.mp (List.mem_append_left _ member))
  · rw [handed.tally.told]
    exact Table.filter_key_of_mem calledUnique member
  · intro other meets
    rcases handed.fates run few meets with ⟨-, also⟩ | ⟨rfl, -⟩ | ⟨-, also, -⟩ | ⟨-, -, not, -⟩
    · exact absurd rfl (apart _ also _ (List.mem_append_left _ wasCalled))
    · rfl
    · exact absurd rfl (distinct _ wasCalled _ also)
    · exact absurd wasCalled not

/-- A waiter that is left awaits its call, unless another waker broke off. -/
theorem Handed.left_fate (handed : Handed event entries called left history machine)
    (run : Run history machine) (few : (registrations event history).length ≤ Token.limit)
    (isLeft : token ∈ left.map Prod.fst) :
    ∃ fate, Meets event token history machine fate ∧
      ∀ other, Meets event token history machine other → other = fate := by
  obtain ⟨-, calledLeft, apart⟩ := List.nodup_append.mp (handed.tally.nodup few)
  obtain ⟨-, -, distinct⟩ := List.nodup_append.mp calledLeft
  have others : ∀ fate, Meets event token history machine fate →
      (fate = .awaiting ∧ machine.releases event ≠ []) ∨
      (fate = .discarded ∧ machine.releases event = []) := by
    intro fate meets
    rcases handed.fates run few meets with
      ⟨-, also⟩ | ⟨-, also⟩ | ⟨same, -, runs⟩ | ⟨same, -, -, finished⟩
    · exact absurd rfl (apart token also token (List.mem_append_right _ isLeft))
    · exact absurd rfl (distinct token also token isLeft)
    · exact .inl ⟨same, runs⟩
    · exact .inr ⟨same, finished⟩
  rcases handed.stage with runs | ⟨finished, ended | broke⟩
  · have running : machine.releases event ≠ [] := by
      rw [runs]
      exact List.cons_ne_nil _ _
    obtain ⟨entry, member, rfl⟩ := List.mem_map.mp isLeft
    refine ⟨.awaiting, ⟨entry.2, ?_, entries.length, left, mem_releases.mp ?_, member⟩, ?_⟩
    · exact handed.tally.stored entry
        (handed.tally.all.mem_iff.mp (List.mem_append_right _ member))
    · rw [runs]
      exact List.mem_singleton_self _
    · intro other meets
      rcases others other meets with ⟨same, -⟩ | ⟨-, finished⟩
      · exact same
      · exact absurd finished running
  · rw [ended] at isLeft
    cases isLeft
  · refine ⟨.discarded, ⟨left, broke, isLeft⟩, ?_⟩
    intro other meets
    rcases others other meets with ⟨-, running⟩ | ⟨same, -⟩
    · exact absurd finished running
    · exact same

theorem Handed.fate (handed : Handed event entries called left history machine)
    (run : Run history machine) (few : (registrations event history).length ≤ Token.limit)
    (made : token ∈ registrations event history) :
    ∃ fate, Meets event token history machine fate ∧
      ∀ other, Meets event token history machine other → other = fate := by
  rcases List.mem_append.mp ((handed.tally.whole few).mem_iff.mp made) with gone | kept
  · exact ⟨.withdrawn, handed.withdrawn_fate run few gone⟩
  · rcases List.mem_append.mp kept with wasCalled | isLeft
    · exact ⟨.called, handed.called_fate run few wasCalled⟩
    · exact handed.left_fate run few isLeft

end

/-! ## The balance -/

/-- In every state of every run, every registration ever made with an event has exactly one fate, if
there were no more of them than tokens. None is withdrawn or called twice, or both. There are as
many of them as were withdrawn and are waiting; or, once the event is set, as were withdrawn and
announced at that time. -/
theorem registrations_have_one_fate {history : List (Occurrence ω)} {machine : Machine ω σ ν}
    (run : Run history machine) (event : EventId)
    (few : (registrations event history).length ≤ Token.limit) :
    (registrations event history).Nodup ∧
    (∀ token ∈ registrations event history, ∃ fate, Meets event token history machine fate ∧
      ∀ other, Meets event token history machine other → other = fate) ∧
    ((withdrawals event history ++ (calledWaiters event history).map Prod.fst).Nodup ∧
      withdrawals event history ++ (calledWaiters event history).map Prod.fst ⊆
        registrations event history) ∧
    ((machine.events.get event).isSet = false →
      announcements event history = [] ∧
      ∃ waiting, (machine.events.get event).statistics = .ok ⟨waiting⟩ ∧
        (registrations event history).length = (withdrawals event history).length + waiting) ∧
    ((machine.events.get event).isSet = true →
      ∃ count, announcements event history = [count] ∧
        (registrations event history).length = (withdrawals event history).length + count) := by
  rcases run.accounted event with waiting | ⟨entries, called, left, handed⟩
  · have bounded := waiting.accounts.length_registrations ▸ few
    have unique := waiting.accounts.nodup bounded
    have balanced := waiting.accounts.balanced bounded
    have uncalled : calledWaiters event history = [] :=
      (accounts_of_unreleased [] waiting.unreleased).2
    refine ⟨unique, fun token made => waiting.fate run few made, ?_, ?_, ?_⟩
    · rw [uncalled, List.map_nil, List.append_nil]
      refine ⟨(List.nodup_append.mp (balanced.nodup_iff.mp unique)).1, ?_⟩
      exact List.Subset.trans (List.subset_append_left _ _) balanced.symm.subset
    · intro unset
      refine ⟨(accounts_of_unreleased [] waiting.unreleased).1, _,
        run.owned.statistics event fun _ => bounded, ?_⟩
      rw [if_neg (by rw [unset]; exact Bool.false_ne_true), ← Wait.length_tokensOn,
        ← (run.owned.held event unset bounded).length_eq, ← List.length_append]
      exact balanced.length_eq
    · intro set
      rw [waiting.unset] at set
      cases set
  · have unique := handed.tally.unique few
    refine ⟨unique, fun token made => handed.fate run few made, ?_, ?_, ?_⟩
    · have whole := handed.tally.whole few
      rw [← List.append_assoc] at whole
      rw [handed.tally.told]
      refine ⟨(List.nodup_append.mp (whole.nodup_iff.mp unique)).1, ?_⟩
      exact List.Subset.trans (List.subset_append_left _ _) whole.symm.subset
    · intro unset
      rw [handed.set] at unset
      cases unset
    · intro set
      refine ⟨entries.length, handed.tally.announced, ?_⟩
      rw [(handed.tally.balanced few).length_eq, List.length_append, List.length_map]

/-- Of three waits on the first event one is dropped, one is woken, and one is given up because the
woken one breaks off. Of two waits on the second event one is being woken and one is to follow. -/
def fatefulMoves : List (Move Pool.TaskId Nat Nat) :=
  [.perform 0 (.makeWait 0 ⟨0⟩ .owned), .perform 0 (.makeWait 1 ⟨0⟩ .borrowed),
    .perform 0 (.makeWait 2 ⟨0⟩ .owned), .perform 0 (.makeWait 3 ⟨1⟩ .owned),
    .perform 0 (.makeWait 4 ⟨1⟩ .borrowed), .perform 0 (.poll 0 ⟨0⟩), .perform 0 (.poll 1 ⟨1⟩),
    .perform 0 (.poll 2 ⟨2⟩), .perform 0 (.poll 3 ⟨3⟩), .perform 0 (.poll 4 ⟨4⟩),
    .perform 0 (.poll 1 ⟨5⟩), .perform 0 (.drop 0), .perform 0 (.setEvent ⟨0⟩),
    .resume (.panicked (.raised "gone")) 0, .perform 1 (.setEvent ⟨1⟩)]

theorem registrations_have_one_fate_broken :
    Run (follow fatefulMoves).1 (follow fatefulMoves).2 ∧
      registrations ⟨0⟩ (follow fatefulMoves).1 = [⟨0⟩, ⟨1⟩, ⟨2⟩] ∧
      (∀ token ∈ registrations ⟨0⟩ (follow fatefulMoves).1, ∃ fate,
        Meets ⟨0⟩ token (follow fatefulMoves).1 (follow fatefulMoves).2 fate ∧
          ∀ other, Meets ⟨0⟩ token (follow fatefulMoves).1 (follow fatefulMoves).2 other →
            other = fate) ∧
      calledWaiters ⟨0⟩ (follow fatefulMoves).1 = [(⟨1⟩, ⟨5⟩)] ∧
      (∃ count, announcements ⟨0⟩ (follow fatefulMoves).1 = [count] ∧ 3 = 1 + count) ∧
      (∃ count, announcements ⟨1⟩ (follow fatefulMoves).1 = [count] ∧ 2 = 0 + count) := by
  have run := run_follow fatefulMoves
  have first := registrations_have_one_fate run ⟨0⟩ (by decide)
  have second := registrations_have_one_fate run ⟨1⟩ (by decide)
  exact ⟨run, by decide, first.2.1, by decide, first.2.2.2.2 (by decide),
    second.2.2.2.2 (by decide)⟩

end Machine

end Latch
