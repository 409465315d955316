import Latch.Proofs.Permanence
import Latch.Proofs.Recounts

/-!
# Copies of wakers

In a run, an event holds one copy of a waker for each wait that was polled before the event was set
and was not dropped since, and it makes a new copy only if a wait is polled with a waker of another
task. How a wait is polled, and what is done with other waits meanwhile, makes no difference. An
event must not have made more registrations for that than there are tokens.
-/

set_option autoImplicit false

namespace Latch

variable {ω σ ν : Type} [Waker ω]

theorem Future.mem_waits_of_reached {waker : ω} {future : Future σ} {events : Events ω}
    {wait : Wait} (reached : wait ∈ future.reached waker events) : wait ∈ future.waits := by
  induction future generalizing events with
  | plain own => exact reached
  | race own? signal ih =>
      cases own? with
      | none => cases reached
      | some own =>
          rcases List.mem_cons.mp reached with rfl | inner
          · exact List.mem_cons_self
          · refine List.mem_cons_of_mem _ ?_
            split at inner
            · exact ih inner
            · cases inner
            · cases inner
  | ready | never | external => cases reached

omit [Waker ω] in
/-- Of an unset event, two waits that are apart do not hold the same token. -/
theorem Owned.apart {events : Events ω} {first second others : List Wait}
    (owned : Owned events (first ++ (second ++ others))) {event : EventId}
    (unset : (events.get event).isSet = false)
    (few : (events.get event).registry.issued ≤ Token.limit) {token : Token}
    (held : token ∈ Wait.tokensOn event first) : token ∉ Wait.tokensOn event second := by
  have unique := owned.nodup unset few
  rw [Wait.tokensOn, List.filterMap_append, List.filterMap_append] at unique
  intro shared
  exact (List.nodup_append.mp unique).2.2 token held token (List.mem_append_left _ shared) rfl

namespace Machine

variable [DecidableEq ν]

section

variable {machine : Machine ω σ ν} {history : List (Occurrence ω)} {event : EventId}
  {token : Token}

/-! ## What a run tells of a registration -/

theorem Run.issued (run : Run history machine)
    (unset : (machine.events.get event).isSet = false) :
    Issued event history (machine.events.get event).registry := by
  induction run with
  | start => exact nofun
  | @step history machine run next ih =>
      cases move_sees run.owned event next with
      | aside flag changes => exact changes.issued (ih (flag.symm.trans unset))
      | begins _ set =>
          rw [set] at unset
          cases unset
      | goesOn _ events _ continues =>
          rw [events] at unset ⊢
          exact (ih unset).append continues.unenrolled
      | breaks _ _ events _ trace =>
          rw [events] at unset ⊢
          rw [trace, List.append_nil]
          exact ih unset

theorem Run.registrations_nodup (run : Run history machine)
    (few : (registrations event history).length ≤ Token.limit) :
    (registrations event history).Nodup := by
  rcases run.accounted event with waiting | ⟨entries, called, left, handed⟩
  · rw [waiting.accounts.length_registrations] at few
    exact waiting.accounts.nodup few
  · exact handed.tally.unique few

/-- A token that was handed out has been registered. -/
theorem Run.registered (run : Run history machine)
    (unset : (machine.events.get event).isSet = false)
    (issued : token.number.toNat < (machine.events.get event).registry.issued) :
    token ∈ registrations event history := by
  rcases run.accounted event with waiting | ⟨entries, called, left, handed⟩
  · rw [waiting.accounts.issued]
    refine List.mem_map.mpr ⟨token.number.toNat, List.mem_range.mpr issued, ?_⟩
    rw [Token.nth, UInt64.ofNat_toNat]
  · rw [handed.set] at unset
    cases unset

/-- A token that was registered once and is no member's is none again, before tokens repeat. -/
theorem Run.stays_gone (run : Run history machine)
    (registered : token ∈ registrations event history)
    (gone : (machine.events.get event).registry.get? token = none) {trace : List (Occurrence ω)}
    {later : Machine ω σ ν} (within : Within [] machine trace later)
    (few : (registrations event (history ++ trace)).length ≤ Token.limit) :
    (later.events.get event).registry.get? token = none := by
  have after := within.run run
  cases flag : (machine.events.get event).isSet with
  | true =>
      obtain ⟨shut, -⟩ := (run.shut flag).within within run
      exact after.owned.get?_eq_none shut.set token
  | false =>
      rcases run.accounted event with waiting | ⟨entries, called, left, handed⟩
      · have absent : token ∉ (machine.events.get event).registry.members.keys := by
          intro member
          have present := Table.contains_iff.mpr member
          obtain ⟨waker, found⟩ := (Registry.contains_iff _ _).mp present
          rw [gone] at found
          cases found
        have fewer := few_of_append few
        rw [waiting.accounts.length_registrations] at fewer
        have balanced := (waiting.accounts.balanced fewer).mem_iff.mp registered
        have withdrawn : token ∈ withdrawals event history :=
          (List.mem_append.mp balanced).resolve_right absent
        refine Table.get?_eq_none fun member => ?_
        have apart := (List.nodup_append.mp (after.withdrawn_nodup event few)).2.2
        have told : token ∈ withdrawals event (history ++ trace) := by
          rw [withdrawals_append]
          exact List.mem_append_left _ withdrawn
        exact apart token told token member rfl
      · rw [handed.set] at flag
        cases flag

/-! ## Futures at different spots -/

omit [Waker ω] in
theorem waits_perm_of_held {name : ν} {holding : Holding σ}
    (stored : machine.futures.get? name = some holding) {spot : Spot ν} {root : Future σ}
    (found : machine.future? spot = some root) (elsewhere : spot ≠ .held name) :
    ∃ others, machine.waits.Perm (holding.future.waits ++ (root.waits ++ others)) := by
  have there : future? { machine with futures := machine.futures.erase name } spot = some root := by
    rw [future?_erase, if_neg elsewhere]
    exact found
  obtain ⟨others, split⟩ := waits_perm_of_future? there
  exact ⟨others, (waits_perm_of_get? stored).trans (split.append_left _)⟩

omit [Waker ω] in
theorem exists_spot {wait : Wait} (live : wait ∈ machine.waits) :
    ∃ spot root, machine.future? spot = some root ∧ wait ∈ root.waits := by
  rcases List.mem_append.mp live with held | called
  · obtain ⟨holding, member, inside⟩ := List.mem_flatMap.mp held
    obtain ⟨entry, stored, rfl⟩ := List.mem_map.mp member
    refine ⟨.held entry.1, entry.2.future, ?_, inside⟩
    rw [future?, Table.get?_of_mem stored, Option.map_some]
  · obtain ⟨call, member, inside⟩ := List.mem_flatMap.mp called
    obtain ⟨level, below, here⟩ := List.mem_iff_getElem.mp (List.mem_reverse.mpr member)
    cases call with
    | setting | releasingAll | releasingOne | draining | waking => cases inside
    | polling name holding waker =>
        refine ⟨.inHand level, holding.future, ?_, inside⟩
        rw [future?, Call.inHand?, List.getElem?_eq_some_iff.mpr ⟨below, here⟩]
        rfl

omit [Waker ω] in
theorem mem_waits_of_part? {place : Place ν} {part : Future σ} {wait : Wait}
    (there : machine.part? place = some part) (present : part.wait? = some wait) :
    ∃ root, machine.future? place.spot = some root ∧ wait ∈ root.waits := by
  obtain ⟨root, found, inside⟩ := Option.bind_eq_some_iff.mp there
  obtain ⟨others, split⟩ := Future.waits_perm_of_part? inside present
  exact ⟨root, found, split.mem_iff.mpr List.mem_cons_self⟩

omit [Waker ω] in
theorem exists_others {place : Place ν} {part : Future σ} {wait : Wait}
    (there : machine.part? place = some part) (present : part.wait? = some wait) :
    ∃ others, machine.waits.Perm (wait :: others) := by
  obtain ⟨root, found, inside⟩ := Option.bind_eq_some_iff.mp there
  obtain ⟨others, split⟩ := waits_perm_of_future? found
  obtain ⟨rest, first⟩ := Future.waits_perm_of_part? inside present
  exact ⟨rest ++ others, split.trans (first.append_right others)⟩

/-! ## Moves -/

variable {next : Move ω σ ν} {spot : Spot ν} {root : Future σ} {wait other : Wait}
  {others left : List Wait} {log : List (Note ω)}

/-- A move that does nothing with a future polls no wait that shares a token with one of its
waits. -/
theorem unpolled_elsewhere (owned : Owned machine.events machine.waits)
    (unset : (machine.events.get event).isSet = false)
    (few : (machine.events.get event).registry.issued ≤ Token.limit)
    (found : machine.future? spot = some root) (held : token ∈ Wait.tokensOn event root.waits)
    (idle : machine.stage? next spot = none) (polled : other ∈ machine.polled next)
    (here : other.event = event) : other.token ≠ some token := by
  intro holds
  cases next with
  | resume => cases polled
  | perform choice action =>
      cases action with
      | poll name waker =>
          simp only [Machine.polled] at polled
          split at polled
          · next holding stored =>
              have elsewhere : spot ≠ .held name := by
                rintro rfl
                rw [stage?, if_pos rfl] at idle
                cases idle
              obtain ⟨others, split⟩ := waits_perm_of_held stored found elsewhere
              have shared : token ∈ Wait.tokensOn event holding.future.waits :=
                Wait.mem_tokensOn.mpr ⟨other, Future.mem_waits_of_reached polled, here, holds⟩
              exact (owned.perm split).apart unset few shared held
          · cases polled
      | makeEvent | setEvent | makeWait | drop | race | wake => cases polled
      | makeRegistry | dropRegistry | add | update | remove => cases polled
      | releaseAll | releaseOne | drain => cases polled

/-- A move that does nothing with a future tells nothing of the registrations of its waits. -/
theorem unlisted_elsewhere (run : Run history machine)
    (issued : (machine.events.get event).isSet = false →
      token.number.toNat < (machine.events.get event).registry.issued)
    (found : machine.future? spot = some root)
    (held : (machine.events.get event).isSet = false → token ∈ Wait.tokensOn event root.waits)
    (idle : machine.stage? next spot = none)
    (few : (registrations event (history ++ (machine.move next).trace)).length ≤ Token.limit) :
    ∀ occurrence ∈ (machine.move next).trace, occurrence.enlists event token = false := by
  intro occurrence member
  cases move_sees run.owned event next with
  | begins _ _ _ trace continues =>
      rw [trace] at member
      refine Occurrence.enlists_of_enrols ?_ token
      rcases List.mem_cons.mp member with rfl | later
      · rfl
      · exact continues.unenrolled occurrence later
  | goesOn _ _ _ continues =>
      exact Occurrence.enlists_of_enrols (continues.unenrolled occurrence member) token
  | breaks _ _ _ _ trace =>
      rw [trace] at member
      cases member
  | aside flag changes still =>
      cases unset : (machine.events.get event).isSet with
      | true => exact Occurrence.enlists_of_enrols ((still unset).1 occurrence member) token
      | false =>
          rw [Bool.eq_false_iff]
          intro told
          rcases Occurrence.registers_or_refreshes told with registers | refreshes
          · have unique := (run.step next).registrations_nodup few
            rw [registrations_append] at unique
            have early := run.registered unset (issued unset)
            have late : token ∈ registrations event (machine.move next).trace :=
              List.mem_filterMap.mpr ⟨occurrence, member, registers⟩
            exact (List.nodup_append.mp unique).2.2 token early token late rfl
          · obtain ⟨other, polled, here, holds⟩ :=
              refreshes_of_move event token member refreshes
            have fewer := run.issued_few (few_of_append few)
            exact unpolled_elsewhere run.owned unset fewer found (held unset) idle polled here holds

theorem Run.stays_set (run : Run history machine) (set : (machine.events.get event).isSet = true)
    (next : Move ω σ ν) : ((machine.move next).machine.events.get event).isSet = true :=
  ((run.shut set).move run.owned next).1.set

theorem Run.was_unset (run : Run history machine)
    (unset : ((machine.move next).machine.events.get event).isSet = false) :
    (machine.events.get event).isSet = false := by
  rw [Bool.eq_false_iff] at unset ⊢
  exact fun set => unset (run.stays_set set next)

theorem unlisted_of_unvisited (run : Run history machine)
    (account : Unlisted event machine.events (some wait) others history log)
    (split : (machine.move next).machine.waits.Perm (wait :: left)) :
    Unlisted event (machine.move next).machine.events (some wait) left
      (history ++ (machine.move next).trace) log where
  owned := (run.step next).owned.perm split
  found waker member := run.stays_set (account.found waker member) next
  retold := account.retold
  unpolled := account.unpolled
  issued := (run.step next).issued
  holds := account.holds

/-- What is stored for a wait stays while nothing is done with the wait. -/
theorem entry_of_unvisited (run : Run history machine)
    (silent : ∀ occurrence ∈ (machine.move next).trace, occurrence.enlists event token = false)
    (live : wait ∈ (machine.move next).machine.waits) (here : wait.event = event)
    (holds : wait.token = some token)
    (unset : ((machine.move next).machine.events.get event).isSet = false)
    (few : ((machine.move next).machine.events.get event).registry.issued ≤ Token.limit)
    {copy : ω}
    (stored : (machine.events.get event).registry.get? token = some copy) :
    ((machine.move next).machine.events.get event).registry.get? token = some copy := by
  cases move_sees run.owned event next with
  | aside flag changes =>
      have quiet : ∀ occurrence ∈ (machine.move next).trace,
          occurrence.refreshes event token = false := by
        intro occurrence member
        rw [Bool.eq_false_iff]
        intro refreshes
        cases (silent occurrence member).symm.trans (Occurrence.enlists_of_refreshes refreshes)
      refine (changes.keeps stored quiet few).resolve_left fun withdrawn => ?_
      exact (run.step next).not_withdrawn unset few live here holds
        (List.mem_append_right _ withdrawn)
  | begins _ set =>
      rw [set] at unset
      cases unset
  | goesOn _ events | breaks _ _ events =>
      rw [events]
      exact stored

theorem listed_of_unvisited (run : Run history machine)
    (account : Listed event token machine.events (some wait) others history log)
    (found : machine.future? spot = some root) (inside : wait ∈ root.waits)
    (idle : machine.stage? next spot = none)
    (split : (machine.move next).machine.waits.Perm (wait :: left))
    (few : (registrations event (history ++ (machine.move next).trace)).length ≤ Token.limit) :
    Listed event token (machine.move next).machine.events (some wait) left
      (history ++ (machine.move next).trace) log := by
  have owned := (run.step next).owned.perm split
  have fewer := (run.step next).issued_few few
  have held : (machine.events.get event).isSet = false →
      token ∈ Wait.tokensOn event root.waits := by
    intro unset
    obtain ⟨here, holds⟩ := account.token_of_unset unset
    exact Wait.mem_tokensOn.mpr ⟨wait, inside, here, holds⟩
  have silent := unlisted_elsewhere run account.issued found held idle few
  have entry : ((machine.move next).machine.events.get event).isSet = false →
      ((machine.move next).machine.events.get event).registry.get? token =
        (Log.copies log).getLast? := by
    intro unset
    obtain ⟨here, holds⟩ := account.token_of_unset (run.was_unset unset)
    have stored := account.entry (run.was_unset unset) wait rfl
    obtain ⟨-, copy, -, copied, -⟩ := account.last
    rw [copied] at stored ⊢
    have live := split.mem_iff.mpr List.mem_cons_self
    exact entry_of_unvisited run silent live here holds unset fewer stored
  constructor
  · exact owned
  · exact fun waker member => run.stays_set (account.found waker member) next
  · exact account.retold
  · rw [filter_enlists_append silent, account.told]
  · exact account.last
  · exact account.holds
  · intro unset
    obtain ⟨-, copy, -, copied, -⟩ := account.last
    refine Registry.fresh _ fewer token
      (Table.contains_iff.mp ((Registry.contains_iff _ _).mpr ⟨copy, ?_⟩))
    rw [entry unset, copied]
  · intro unset
    obtain ⟨here, holds⟩ := account.token_of_unset (run.was_unset unset)
    have first : Owned (machine.move next).machine.events ([wait] ++ (left ++ [])) := by
      rw [List.append_nil]
      exact owned
    exact first.apart unset fewer
      (Wait.mem_tokensOn.mpr ⟨wait, List.mem_singleton_self _, here, holds⟩)
  · rintro unset _ ⟨⟩
    exact entry unset

/-- The books of a wait are kept by every move, wherever the wait is. -/
theorem account_of_move [LawfulWaker ω] (run : Run history machine) {place after : Place ν}
    {part : Future σ} (there : machine.part? place = some part)
    (present : part.wait? = some wait) (carried : machine.carry next place = some after)
    (split : machine.waits.Perm (wait :: others))
    (account : Account event machine.events (some wait) others history log)
    (few : (registrations event (history ++ (machine.move next).trace)).length ≤ Token.limit) :
    ∃ now left, (machine.move next).machine.part? after = some now ∧
      (machine.move next).machine.waits.Perm (now.wait?.toList ++ left) ∧
      Account event (machine.move next).machine.events now.wait? left
        (history ++ (machine.move next).trace) (log ++ machine.notes .wait next place) := by
  obtain ⟨now, stands, fares⟩ := fares there carried
  have remains : ((machine.visit? next place).elim part fun inner =>
      (inner.apply part).future).wait? = now.wait? := by
    cases fares with
    | left unvisited same => rw [unvisited, same]; rfl
    | raced unvisited own signal was becomes => rw [unvisited, was, becomes]; rfl
    | visited inner visits becomes => rw [visits, becomes]; rfl
  obtain ⟨root, found, inside⟩ := mem_waits_of_part? there present
  cases staged : machine.stage? next place.spot with
  | some stage =>
      obtain ⟨beside, left, before, last, tends⟩ := move_tended there present staged
      rw [remains] at tends last
      have same : others.Perm beside := (split.symm.trans before).cons_inv
      have after := (run.step next).issued_few few
      have reordered := account.reordered same (run.issued_few (few_of_append few))
      exact ⟨now, left, stands, last, tends.account reordered after⟩
  | none =>
      have unvisited := visit?_of_idle found staged
      rw [unvisited, Option.elim_none, present] at remains
      obtain ⟨left, last⟩ := exists_others stands remains.symm
      rw [notes_of_unvisited unvisited, List.append_nil]
      refine ⟨now, left, stands, ?_, ?_⟩
      · rw [← remains]
        exact last
      · rw [← remains]
        cases account with
        | unlisted account => exact .unlisted (unlisted_of_unvisited run account last)
        | listed token account =>
            exact .listed token (listed_of_unvisited run account found inside staged last few)

/-- In every run, the log of a wait can be recounted from its polls. -/
theorem Career.account [LawfulWaker ω] {rule : Machine ω σ ν → Move ω σ ν → Prop} {kind : Kind}
    {place : Place ν} (career : Career rule kind history machine place log) (waits : kind = .wait)
    (few : ∀ event, (registrations event history).length ≤ Token.limit) :
    ∃ event part others, machine.part? place = some part ∧
      machine.waits.Perm (part.wait?.toList ++ others) ∧
      Account event machine.events part.wait? others history log := by
  induction career with
  | raced => cases waits
  | @made history machine ruled choice name event hold allowed =>
      have there : (machine.perform choice (.makeWait name event hold)).machine.part?
          { spot := .held name } = some (.plain { event, hold }) :=
        part?_of_future? ((store_future? _ name _ _ _).trans (if_pos rfl)) 0
      obtain ⟨others, split⟩ := exists_others there rfl
      have after := ruled.run.step (.perform choice (.makeWait name event hold))
      refine ⟨event, _, others, there, split, .unlisted ?_⟩
      constructor
      · exact after.owned.perm split
      · exact nofun
      · exact fun _ => rfl
      · exact rfl
      · exact after.issued
      · rintro _ ⟨⟩
        exact ⟨rfl, rfl⟩
  | step career there stands next allowed carried ih =>
      obtain ⟨event, part, others, found, split, account⟩ :=
        ih waits fun event => few_of_append (few event)
      subst waits
      cases found.symm.trans there
      obtain ⟨wait, present⟩ := Option.isSome_iff_exists.mp stands
      rw [present] at split account
      obtain ⟨now, left, later, last, kept⟩ :=
        account_of_move career.ruled.run there present carried split account (few event)
      exact ⟨event, now, left, later, last, kept⟩

/-! ## The end of a registration -/

omit [Waker ω] in
theorem get?_eq_none_of_unheld {events : Events ω} {waits : List Wait} (owned : Owned events waits)
    (unheld : (events.get event).isSet = false → token ∉ Wait.tokensOn event waits)
    (few : (events.get event).registry.issued ≤ Token.limit) :
    (events.get event).registry.get? token = none := by
  cases flag : (events.get event).isSet with
  | true => exact owned.get?_eq_none flag token
  | false =>
      exact Table.get?_eq_none fun member =>
        unheld flag ((owned.held event flag few).mem_iff.mp member)

theorem held_of_carry {place : Place ν} (dropped : machine.carry next place = none) :
    ∃ name, place.spot = .held name := by
  cases next with
  | resume response choice =>
      simp only [carry] at dropped
      split at dropped
      · split at dropped
        · cases dropped
        · split at dropped
          · next own _ _ _ _ _ here => exact ⟨own, here⟩
          · cases dropped
      · cases dropped
  | perform choice action =>
      cases action with
      | makeWait name | drop name =>
          simp only [carry] at dropped
          split at dropped
          · next here => exact ⟨name, here⟩
          · cases dropped
      | poll name waker =>
          simp only [carry] at dropped
          split at dropped <;> cases dropped
      | race name signal =>
          cases signal with
          | ready | never | external => cases dropped
          | future other =>
              simp only [carry] at dropped
              split at dropped
              · split at dropped <;> cases dropped
              · cases dropped
      | makeEvent | setEvent | wake | makeRegistry | dropRegistry => cases dropped
      | add | update | remove | releaseAll | releaseOne | drain => cases dropped

/-- A future that is polled takes no token that was handed out and that it does not have. -/
theorem unheld_of_staged (run : Run history machine) {stage : Future.Stage ω σ}
    (found : machine.future? spot = some root) (staged : machine.stage? next spot = some stage)
    (absent : token ∉ Wait.tokensOn event root.waits)
    (issued : token.number.toNat < (machine.events.get event).registry.issued)
    (few : (registrations event (history ++ (machine.move next).trace)).length ≤ Token.limit) :
    token ∉ Wait.tokensOn event (stage.apply root).future.waits := by
  obtain ⟨rest, own, id, waker, same, split, moves⟩ := exists_afterPoll found staged
  have after := (run.step next).issued_few few
  rw [moves] at after
  have fewer := Nat.le_trans (rest.issued_le_afterPoll own id waker _ event) after
  have owned := run.owned.perm split
  rw [← stage?_found staged] at owned issued
  exact ((stage.apply_handles root).spares owned absent issued fewer).2

/-- Nobody else gets the token of a wait that is dropped. -/
theorem unheld_of_dropped (run : Run history machine) {place : Place ν}
    (found : machine.future? place.spot = some root)
    (held : token ∈ Wait.tokensOn event root.waits)
    (unset : (machine.events.get event).isSet = false)
    (issued : token.number.toNat < (machine.events.get event).registry.issued)
    (few : (registrations event (history ++ (machine.move next).trace)).length ≤ Token.limit)
    (dropped : machine.carry next place = none) :
    token ∉ Wait.tokensOn event (machine.move next).machine.waits := by
  obtain ⟨name, here⟩ := held_of_carry dropped
  rw [here] at found
  obtain ⟨holding, stored, rfl⟩ := Option.map_eq_some_iff.mp found
  have before := run.issued_few (few_of_append few)
  have elsewhere : ∀ spot other, spot ≠ .held name → machine.future? spot = some other →
      token ∉ Wait.tokensOn event other.waits := by
    intro spot other apart there
    obtain ⟨others, split⟩ := waits_perm_of_held stored there apart
    exact (run.owned.perm split).apart unset before held
  intro member
  obtain ⟨wait, live, own, holds⟩ := Wait.mem_tokensOn.mp member
  obtain ⟨spot, other, there, inside⟩ := exists_spot live
  have shared : token ∈ Wait.tokensOn event other.waits :=
    Wait.mem_tokensOn.mpr ⟨wait, inside, own, holds⟩
  cases move_shift machine next with
  | still futures carries =>
      rw [carries place holding.future (here ▸ found)] at dropped
      cases dropped
  | raced _ _ _ _ _ _ _ carries =>
      rw [carries] at dropped
      cases dropped
  | handed _ _ _ _ _ _ _ _ _ carries =>
      rw [carries] at dropped
      split at dropped <;> cases dropped
  | dropped gone futures carries =>
      rw [carries, here] at dropped
      rw [futures] at there
      split at dropped
      · next same =>
          split at there
          · cases there
          · next apart => exact elsewhere spot other (same ▸ apart) there shared
      · cases dropped
  | made new id hold futures carries =>
      rw [carries, here] at dropped
      rw [futures] at there
      split at dropped
      · next same =>
          split at there
          · cases there
            cases List.mem_singleton.mp inside
            cases holds
          · next apart => exact elsewhere spot other (same ▸ apart) there shared
      · cases dropped
  | staged source target first stage was asks futures carries stages =>
      rw [carries place holding.future (here ▸ found), here] at dropped
      rw [futures] at there
      split at dropped
      · cases dropped
      · next moved =>
          split at dropped
          · next same =>
              split at there
              · cases there
                have staged := (stages source first was).trans (if_pos rfl)
                have absent := elsewhere source first (Ne.symm moved) was
                exact unheld_of_staged run was staged absent issued few shared
              · next apart =>
                  split at there
                  · cases there
                  · exact elsewhere spot other (same ▸ apart) there shared
          · cases dropped

/-- A wait may be polled, raced and dropped in any run. Its log can be recounted from its polls: the
first waker that finds the event unset is copied, and each later one that does not wake the task of
the one before; a poll that finds the event set copies nothing. The trace tells of no other copies.
From the first such poll on the wait has one token, and the event holds the last copy under it and
no other one, until it is set or the wait is dropped; afterwards it holds none, for good. No event
must have made more registrations than there are tokens by then. -/
theorem wakers_are_copied_sparingly [LawfulWaker ω] {rule : Machine ω σ ν → Move ω σ ν → Prop}
    {place : Place ν} (career : Career rule .wait history machine place log)
    (few : ∀ event, (registrations event history).length ≤ Token.limit) :
    ∃ event token part, machine.part? place = some part ∧
      log = Log.recount event token none (Log.polls log) ∧
      (Log.copies log).length = (if Log.wakers (Log.polls log) = [] then 0 else 1) +
        ((Log.wakers (Log.polls log)).zip (Log.wakers (Log.polls log)).tail).countP
          (fun pair => !willWake pair.2 pair.1) ∧
      (Log.wakers (Log.polls log) = [] →
        ∀ wait, part.wait? = some wait → wait.event = event ∧ wait.token = none) ∧
      (Log.wakers (Log.polls log) ≠ [] →
        history.filter (Occurrence.enlists event token) = Log.told log ∧
        (∀ wait, part.wait? = some wait → wait.event = event ∧
          ((∀ waker, (waker, true) ∉ Log.polls log) → wait.token = some token)) ∧
        (part.wait?.isSome = true → (machine.events.get event).isSet = false →
          (∀ waker, (waker, true) ∉ Log.polls log) ∧
          ∃ copy, (Log.copies log).getLast? = some copy ∧
            (machine.events.get event).registry.entries.filter (fun entry => entry.1 = token) =
              [(token, copy)]) ∧
        ((machine.events.get event).isSet = true ∨ part.wait? = none →
          ∀ trace later, Within [] machine trace later →
            (registrations event (history ++ trace)).length ≤ Token.limit →
              (later.events.get event).registry.get? token = none) ∧
        ∀ next, part.wait?.isSome = true → machine.carry next place = none →
          ∀ trace later, Within [] (machine.move next).machine trace later →
            (registrations event (history ++ (machine.move next).trace ++ trace)).length ≤
              Token.limit →
              (later.events.get event).registry.get? token = none) := by
  have run := career.ruled.run
  obtain ⟨event, part, others, there, split, account⟩ := career.account rfl few
  cases account with
  | unlisted account =>
      have retold := account.retold (machine.events.get event).registry.next
      refine ⟨event, (machine.events.get event).registry.next, part, there, retold, ?_, ?_, ?_⟩
      · rw [← Log.copies_recount event (machine.events.get event).registry.next, ← retold]
      · exact fun _ => account.holds
      · exact fun polled => absurd account.unpolled polled
  | listed token account =>
      refine ⟨event, token, part, there, account.retold, ?_, ?_, ?_⟩
      · rw [← Log.copies_recount event token, ← account.retold]
      · intro unpolled
        obtain ⟨waker, stored, polled, -⟩ := account.last
        rw [unpolled] at polled
        cases polled
      · refine fun _ => ⟨account.told, account.holds, ?_, ?_, ?_⟩
        · intro stands unset
          obtain ⟨wait, present⟩ := Option.isSome_iff_exists.mp stands
          obtain ⟨-, copy, -, copied, -⟩ := account.last
          have entry := (account.entry unset wait present).trans copied
          refine ⟨fun waker polled => ?_, copy, copied, ?_⟩
          · rw [account.found waker polled] at unset
            cases unset
          · exact Table.filter_key_of_mem (Table.keys_nodup _) (Table.mem_of_find? entry)
        · intro ended trace later within fewLater
          refine run.stays_gone account.registered ?_ within fewLater
          refine get?_eq_none_of_unheld account.owned (fun unset => ?_)
            (run.issued_few (few event))
          rcases ended with set | gone
          · rw [set] at unset
            cases unset
          · rw [gone]
            exact account.apart unset
        · intro next stands dropped trace later within fewLater
          obtain ⟨wait, present⟩ := Option.isSome_iff_exists.mp stands
          rw [present] at account
          have after := run.step next
          have registered : token ∈ registrations event (history ++ (machine.move next).trace) := by
            rw [registrations_append]
            exact List.mem_append_left _ account.registered
          have fewAfter := few_of_append fewLater
          refine after.stays_gone registered ?_ within fewLater
          refine get?_eq_none_of_unheld after.owned (fun unset => ?_)
            (after.issued_few fewAfter)
          have before := run.was_unset unset
          obtain ⟨here, holds⟩ := account.token_of_unset before
          obtain ⟨root, found, inside⟩ := mem_waits_of_part? there present
          exact unheld_of_dropped run found (Wait.mem_tokensOn.mpr ⟨wait, inside, here, holds⟩)
            before (account.issued before) fewAfter dropped

end

/-- A wait is polled, becomes the signal of a race, and is polled there twice more, the second time
by a waker of a third event. -/
def copiedMoves : List (Move Pool.TaskId Nat Nat) :=
  [.perform 0 (.makeWait 0 ⟨0⟩ .owned), .perform 0 (.poll 0 ⟨4⟩),
    .perform 0 (.makeWait 1 ⟨1⟩ .owned), .perform 0 (.race 1 (.future 0)),
    .perform 0 (.poll 1 ⟨4⟩), .perform 0 (.makeWait 2 ⟨2⟩ .owned), .perform 0 (.poll 2 ⟨9⟩),
    .perform 0 (.setEvent ⟨2⟩), .perform 0 (.poll 1 ⟨5⟩)]

/-- The machine after some of the moves. -/
def copied (moves : Nat) : Machine Pool.TaskId Nat Nat := (follow (copiedMoves.take moves)).2

/-- The waker of the second poll is not copied again; the copy goes when the race is dropped. -/
theorem wakers_are_copied_sparingly_in_race :
    ∃ history log,
      Career (fun _ _ => True) .wait history (copied 9) { spot := .held 1, depth := 1 } log ∧
      (copied 9).calls.length = 1 ∧
      Log.wakers (Log.polls log) = [⟨4⟩, ⟨4⟩, ⟨5⟩] ∧ (Log.copies log).length = 2 ∧
      (copied 9).carry (.perform 0 (.drop 1)) { spot := .held 1, depth := 1 } = none ∧
      ∃ event token, ∀ trace later,
        Within [] ((copied 9).perform 0 (.drop 1)).machine trace later →
        (registrations event (history ++ ((copied 9).perform 0 (.drop 1)).trace ++ trace)).length ≤
          Token.limit →
          (later.events.get event).registry.get? token = none := by
  have made : Career (fun _ _ => True) .wait _ (copied 1) { spot := .held 0 } [] :=
    .made .start 0 0 ⟨0⟩ .owned trivial
  have polled : Career (fun _ _ => True) .wait _ (copied 2) { spot := .held 0 } _ :=
    made.step rfl rfl (.perform 0 (.poll 0 ⟨4⟩)) trivial rfl
  have beside : Career (fun _ _ => True) .wait _ (copied 3) { spot := .held 0 } _ :=
    polled.step rfl rfl (.perform 0 (.makeWait 1 ⟨1⟩ .owned)) trivial rfl
  have raced : Career (fun _ _ => True) .wait _ (copied 4) { spot := .held 1, depth := 1 } _ :=
    beside.step rfl rfl (.perform 0 (.race 1 (.future 0))) trivial rfl
  have again : Career (fun _ _ => True) .wait _ (copied 5) { spot := .held 1, depth := 1 } _ :=
    raced.step rfl rfl (.perform 0 (.poll 1 ⟨4⟩)) trivial rfl
  have third : Career (fun _ _ => True) .wait _ (copied 7) { spot := .held 1, depth := 1 } _ :=
    (again.step rfl rfl (.perform 0 (.makeWait 2 ⟨2⟩ .owned)) trivial rfl).step rfl rfl
      (.perform 0 (.poll 2 ⟨9⟩)) trivial rfl
  have set : Career (fun _ _ => True) .wait _ (copied 8) { spot := .held 1, depth := 1 } _ :=
    third.step rfl rfl (.perform 0 (.setEvent ⟨2⟩)) trivial rfl
  have last : Career (fun _ _ => True) .wait _ (copied 9) { spot := .held 1, depth := 1 } _ :=
    set.step rfl rfl (.perform 0 (.poll 1 ⟨5⟩)) trivial rfl
  obtain ⟨event, token, part, there, -, copies, -, listed⟩ := wakers_are_copied_sparingly last
    fun event => Nat.le_trans (length_registrations_le event _) (by decide)
  refine ⟨_, _, last, rfl, rfl, copies.trans (by decide), rfl, event, token, ?_⟩
  obtain ⟨-, -, -, -, dropped⟩ := listed (by decide)
  have stands : part.wait?.isSome = true := by
    cases there
    rfl
  exact dropped (.perform 0 (.drop 1)) stands rfl

end Machine

end Latch
